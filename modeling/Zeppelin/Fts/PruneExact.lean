import Zeppelin.Fts.MaxscoreExact
import Zeppelin.Fts.RowTotals

namespace Zeppelin.Fts
open Collections Machine List

variable {R : Type} [AddCommGroup R] [LinearOrder R]

def planOf (c : TermCursor R) : TermPlan R := ⟨c.stream.tf,c.scorer,c.upperBound⟩

structure Opened (fields : List (FieldId × List ℕ)) (rowCount : ℕ) (lengths : List ℕ)
    (c : TermCursor R) : Prop where
  wf : StreamWf fields rowCount (lengthOf lengths) c.stream
  whole : ∀ r,c.stream.tf r = sourceTf c.stream.sources r
  upper : c.upperBound = c.stream.upperBound c.scorer

theorem boundAt_planOf (cursors : List (TermCursor R)) (slot : ℕ) :
    boundAt cursors slot = upperAt (cursors.map planOf) slot := by
  unfold boundAt upperAt
  rw [getElem?_map]
  cases cursors[slot]? with
  | none => rfl
  | some c => rfl

section Segment
variable {fields : List (FieldId × List ℕ)} {rowCount : ℕ} {lengths : List ℕ}
  {cursors : List (TermCursor R)} {segment : ℕ} {allowed : ℕ → Bool} {heap : TopK R}
  (hopened : ∀ c ∈ cursors,Opened fields rowCount lengths c)
include hopened

theorem plans_bounded : ∀ t ∈ cursors.map planOf,t.Bounded lengths := by
  intro t ht row
  obtain ⟨c,hc,rfl⟩ := mem_map.mp ht
  change c.scorer.score (c.stream.tf row) (lengthOf lengths row) ≤ c.upperBound
  rw [(hopened c hc).upper]
  exact (hopened c hc).wf.upperBound_dominates row

theorem resetCursors_ready :
    Ready fields rowCount lengths (cursors.map planOf) 0 (resetCursors cursors) := by
  unfold Ready resetCursors
  rw [forall₂_map_left_iff,forall₂_map_right_iff]
  refine forall₂_same.mpr fun c hc => ⟨?_,fun r hr => absurd hr (Nat.not_lt_zero r)⟩
  obtain ⟨hwf,htf⟩ := reset_spec (hopened c hc).wf.runs
  refine ⟨hwf,rfl,rfl,fun r _ => ?_⟩
  rw [htf,← (hopened c hc).whole]
  rfl

theorem matchesRow_lt {row : ℕ} (h : matchesRow (cursors.map planOf) row = true) :
    row < rowCount := by
  obtain ⟨t,ht,htf⟩ := any_eq_true.mp h
  obtain ⟨c,hc,rfl⟩ := mem_map.mp ht
  exact (hopened c hc).wf.row_lt (of_decide_eq_true htf)

theorem offered_rowCount (hbefore : Before segment 0 heap) {last : TopK R}
    (h : ∃ bound,last = offered lengths segment allowed (cursors.map planOf) heap bound ∧
      ∀ row,bound ≤ row →
        offered lengths segment allowed (cursors.map planOf) heap row = last) :
    last = offered lengths segment allowed (cursors.map planOf) heap rowCount := by
  obtain ⟨bound,-,hlater⟩ := h
  rw [← hlater (max bound rowCount) (le_max_left _ _)]
  refine offered_skip (le_max_right _ _) hbefore fun row hrow _ hmatch => ?_
  exact absurd (matchesRow_lt hopened hmatch) (by omega)

variable [IsOrderedAddMonoid R] in
theorem wand_eq (hbefore : Before segment 0 heap) :
    wand lengths segment allowed cursors heap =
      some (offered lengths segment allowed (cursors.map planOf) heap rowCount) := by
  have hbounded:=plans_bounded hopened
  obtain ⟨last,hloop,hlast⟩ := loop_spec
    (WandInv fields rowCount lengths (cursors.map planOf) segment allowed heap)
    (fun last => last.2 = offered lengths segment allowed (cursors.map planOf) heap rowCount)
    (fun state => cursorsLeft state.1)
    (fun state next h hstep => wandStep_next hbounded hbefore h hstep)
    (fun state last h hstep => offered_rowCount hopened hbefore
      (wandStep_stop hbounded hbefore h hstep))
    (s := (resetCursors cursors,heap)) ⟨0,resetCursors_ready hopened,rfl⟩
    (Nat.lt_succ_self _)
  rw [wand,hloop,Option.map_some,hlast]

variable [IsOrderedAddMonoid R] in
theorem maxscore_eq (hbefore : Before segment 0 heap) (hranked : heap.Ranked) :
    maxscore lengths segment allowed cursors heap =
      some (offered lengths segment allowed (cursors.map planOf) heap rowCount) := by
  have hbounded:=plans_bounded hopened
  have horder : (boundOrder cursors).Perm (List.range (cursors.map planOf).length) := by
    rw [length_map]
    exact mergeSort_perm _ _
  have htotal : ((boundOrder cursors).map (boundAt cursors)).sum =
      ((boundOrder cursors).map (upperAt (cursors.map planOf))).sum := by
    congr 1
    exact map_congr_left fun slot _ => boundAt_planOf cursors slot
  have hinit : MaxscoreAt fields rowCount lengths (cursors.map planOf) segment allowed heap
      (boundOrder cursors) (resetCursors cursors,heap) 0 :=
    ⟨(resetCursors_ready hopened).imp fun _ _ h => h.1,rfl,
      fun _ _ _ _ r hr => absurd hr (Nat.not_lt_zero r)⟩
  obtain ⟨last,hloop,hlast⟩ := loop_spec
    (fun state => ∃ bound,MaxscoreAt fields rowCount lengths (cursors.map planOf) segment
      allowed heap (boundOrder cursors) state bound)
    (fun last => last.2 = offered lengths segment allowed (cursors.map planOf) heap rowCount)
    (fun state => cursorsLeft state.1)
    (fun state next h hstep => maxscoreStep_next hbounded hbefore horder hranked htotal h hstep)
    (fun state last h hstep => offered_rowCount hopened hbefore
      (maxscoreStep_stop hbounded hbefore horder hranked htotal h hstep))
    (s := (resetCursors cursors,heap)) ⟨0,hinit⟩ (Nat.lt_succ_self _)
  rw [maxscore,hloop,Option.map_some,hlast]

theorem scoreAll_eq : scoreAll lengths segment allowed cursors heap =
    offered lengths segment allowed (cursors.map planOf) heap rowCount := by
  have hreset : ∀ c ∈ cursors,StreamWf fields rowCount (lengthOf lengths) c.stream.reset ∧
      ∀ r,c.stream.reset.tf r = c.stream.tf r := by
    intro c hc
    obtain ⟨hwf,htf⟩ := reset_spec (hopened c hc).wf.runs
    exact ⟨hwf,fun r => by rw [htf,← (hopened c hc).whole]⟩
  have hoccurs : ∀ row,occurs (cursors.flatMap fun c =>
      entriesOf lengths (c.stream.reset,c.scorer)) row ↔
      matchesRow (cursors.map planOf) row = true := by
    intro row
    rw [occurs_flatMap,matchesRow,any_map,any_eq_true]
    refine exists_congr fun c => and_congr_right fun hc => ?_
    rw [occurs_entriesOf (hreset c hc).1,(hreset c hc).2]
    exact decide_eq_true_iff.symm
  have htotal : ∀ row,total (cursors.flatMap fun c =>
      entriesOf lengths (c.stream.reset,c.scorer)) row =
      rowScore lengths (cursors.map planOf) row := by
    intro row
    rw [total_flatMap,rowScore,map_map]
    congr 1
    refine map_congr_left fun c hc => ?_
    rw [total_entriesOf (hreset c hc).1,(hreset c hc).2]
    rfl
  have hfold : cursors.foldl (fun totals c => c.stream.reset.postings.foldl (fun totals p =>
      addTotal p.1 (c.scorer.score p.2 (lengthOf lengths p.1)) totals) totals) [] =
      (cursors.flatMap fun c => entriesOf lengths (c.stream.reset,c.scorer)).foldl
        (fun totals e => addTotal e.1 e.2 totals) [] := by
    rw [foldl_flatMap]
    simp only [entriesOf,foldl_map]
  rw [scoreAll,hfold,totals_eq (fun row => (hoccurs row).symm)
    (fun row h => matchesRow_lt hopened ((hoccurs row).mp h)) htotal,foldl_map]
  rfl

variable [IsOrderedAddMonoid R] in
theorem pruneSegment_eq {strategy : Strategy} (hstrategy : strategy ≠ .exhaustive) {ordinal : ℕ}
    (hordinal : segmentIndex ordinal = segment) (hbefore : Before segment 0 heap) (hranked : heap.Ranked) :
    pruneSegment strategy lengths ordinal allowed cursors heap =
      some (offered lengths segment allowed (cursors.map planOf) heap rowCount) := by
  unfold pruneSegment
  rw [hordinal]
  split
  · rename_i hempty
    obtain rfl := List.isEmpty_iff.mp hempty
    have hnone : (List.range rowCount).filter (matchesRow ([] : List (TermPlan R))) = [] :=
      filter_eq_nil_iff.mpr fun row _ => by simp [matchesRow]
    rw [map_nil,offered,hnone]
    rfl
  · split
    · rw [scoreAll_eq hopened]
    · cases strategy with
      | exhaustive => exact absurd rfl hstrategy
      | blockMaxWand => exact wand_eq hopened hbefore
      | blockMaxMaxscore => exact maxscore_eq hopened hbefore hranked

end Segment

def segmentHits (lengths : List ℕ) (segment rowCount : ℕ) (allowed : ℕ → Bool)
    (plans : List (TermPlan R)) : List (ScoredDoc R) :=
  ((List.range rowCount).filter fun row => matchesRow plans row && allowed row).map fun row =>
    ⟨⟨segment,row⟩,rowScore lengths plans row⟩

omit [AddCommGroup R] in
theorem foldl_offerRow (segment : ℕ) (allowed : ℕ → Bool) (f : ℕ → R) (rows : List ℕ)
    (heap : TopK R) : rows.foldl (fun heap row => offerRow segment allowed heap row (f row)) heap =
      ⟨heap.capacity,((rows.filter allowed).map fun row => ⟨⟨segment,row⟩,f row⟩).foldl
        (offerTop heap.capacity) heap.entries⟩ := by
  induction rows generalizing heap with
  | nil => rfl
  | cons row rows ih =>
    rw [foldl_cons,ih]
    by_cases hrow : allowed row = true
    · rw [filter_cons_of_pos hrow,offerRow,if_pos hrow]
      rfl
    · rw [filter_cons_of_neg hrow,offerRow,if_neg hrow]

theorem offered_eq_hits (lengths : List ℕ) (segment rowCount : ℕ) (allowed : ℕ → Bool)
    (plans : List (TermPlan R)) (heap : TopK R) :
    offered lengths segment allowed plans heap rowCount =
      ⟨heap.capacity,(segmentHits lengths segment rowCount allowed plans).foldl
        (offerTop heap.capacity) heap.entries⟩ := by
  rw [offered,foldl_offerRow,segmentHits,filter_filter]
  simp only [Bool.and_comm]

theorem weightedLengths_length (s : SealedSegment) (weights : FieldWeights) :
    (s.weightedLengths weights).length = s.rowCount := by
  unfold SealedSegment.weightedLengths
  cases hunit : s.unitField weights with
  | some lengths =>
    unfold SealedSegment.unitField at hunit
    split at hunit
    · split at hunit
      · simpa using (Option.filter_eq_some_iff.mp hunit).2
      · cases hunit
    · cases hunit
  | none =>
    simp only
    split
    · simp [SealedSegment.totalLengths]
    · simp

section Terms
variable {segment : SealedSegment} {query : TermQuery} {allowed : ℕ → Bool}
  {terms : List (TermStream × TermScorer R)}

theorem scoreSegment_eq (hterms : ∀ term ∈ terms,StreamWf segment.lengths segment.rowCount
      (lengthOf (segment.weightedLengths query.fields)) term.1) :
    scoreSegment segment query allowed terms =
      ((terms.flatMap (entriesOf (segment.weightedLengths query.fields))).filter
        fun e => allowed e.1).foldl (fun state e => scoreRow state e.1 e.2)
        (List.replicate segment.rowCount 0,[]) := by
  rw [foldl_filter,foldl_flatMap,scoreSegment]
  refine foldl_ext _ _ _ fun state term hterm => ?_
  rw [entriesOf,foldl_map]
  refine foldl_ext _ _ _ fun state p hp => ?_
  have hrow : p.1 < (segment.weightedLengths query.fields).length := by
    rw [postings_eq (hterms term hterm)] at hp
    obtain ⟨r,hr,rfl⟩ := mem_map.mp hp
    rw [weightedLengths_length]
    exact mem_range.mp (mem_filter.mp hr).1
  simp only [lengthOf,getElem?_eq_getElem hrow,Option.getD_some]

theorem rowScore_openCursors (lengths : List ℕ) {fields : List (FieldId × List ℕ)} {rowCount : ℕ}
    (hterms : ∀ term ∈ terms,StreamWf fields rowCount (lengthOf lengths) term.1) (row : ℕ) :
    rowScore lengths ((openCursors terms).map planOf) row =
        (terms.map fun term => term.2.score (term.1.tf row) (lengthOf lengths row)).sum ∧
      (matchesRow ((openCursors terms).map planOf) row = true ↔
        ∃ term ∈ terms,term.1.tf row ≠ 0) := by
  induction terms with
  | nil => exact ⟨rfl,by simp [matchesRow,openCursors]⟩
  | cons term terms ih =>
    obtain ⟨hscore,hmatch⟩ := ih fun term hterm => hterms term (mem_cons_of_mem _ hterm)
    have hwf:=hterms term mem_cons_self
    unfold rowScore matchesRow openCursors at *
    cases hexhausted : term.1.exhausted with
    | true =>
      have hnone : term.1.tf row = 0 :=
        hwf.tf_none (by simpa [TermStream.exhausted] using hexhausted) row
      rw [filter_cons_of_neg (by simp [hexhausted])]
      refine ⟨?_,?_⟩
      · rw [hscore,map_cons,sum_cons,hnone,term.2.absent,zero_add]
      · rw [hmatch,exists_mem_cons_iff]
        simp [hnone]
    | false =>
      rw [filter_cons_of_pos (by simp [hexhausted])]
      refine ⟨?_,?_⟩
      · rw [map_cons,map_cons,map_cons,sum_cons,hscore,map_cons,
          sum_cons]
        rfl
      · rw [map_cons,map_cons,any_cons,Bool.or_eq_true,hmatch,
          exists_mem_cons_iff,decide_eq_true_eq]
        rfl

theorem touchedHits_eq {ordinal : ℕ} (hterms : ∀ term ∈ terms,StreamWf segment.lengths
      segment.rowCount (lengthOf (segment.weightedLengths query.fields)) term.1) :
    touchedHits ordinal (scoreSegment segment query allowed terms) =
      segmentHits (segment.weightedLengths query.fields) (segmentIndex ordinal) segment.rowCount
        allowed ((openCursors terms).map planOf) := by
  have hrows:=rowScore_openCursors (segment.weightedLengths query.fields) hterms
  have hoccurs : ∀ row,occurs (terms.flatMap
      (entriesOf (segment.weightedLengths query.fields))) row ↔
      ∃ term ∈ terms,term.1.tf row ≠ 0 := by
    intro row
    rw [occurs_flatMap]
    exact exists_congr fun term => and_congr_right fun hterm => occurs_entriesOf (hterms term hterm)
  have hfiltered : ∀ row,occurs ((terms.flatMap
      (entriesOf (segment.weightedLengths query.fields))).filter fun e => allowed e.1) row ↔
      (∃ term ∈ terms,term.1.tf row ≠ 0) ∧ allowed row = true := by
    intro row
    rw [← hoccurs row]
    constructor
    · rintro ⟨e,he,rfl⟩
      obtain ⟨hmem,hallowed⟩ := mem_filter.mp he
      exact ⟨⟨e,hmem,rfl⟩,hallowed⟩
    · rintro ⟨⟨e,hmem,rfl⟩,hallowed⟩
      exact ⟨e,mem_filter.mpr ⟨hmem,hallowed⟩,rfl⟩
  have hbelow : ∀ row,(∃ term ∈ terms,term.1.tf row ≠ 0) → row < segment.rowCount := by
    rintro row ⟨term,hterm,htf⟩
    exact (hterms term hterm).row_lt htf
  rw [scoreSegment_eq hterms]
  refine (touched_foldl _ fun e he => hbelow e.1 ((hfiltered e.1).mp ⟨e,he,rfl⟩).1).hits
    (fun row => ?_) (fun row h => hbelow row ((hfiltered row).mp h).1) fun row h => ?_
  · rw [hfiltered,Bool.and_eq_true,(hrows row).2]
  · have hallowed:=((hfiltered row).mp h).2
    rw [(hrows row).1,total,filter_filter]
    have hsame : ((terms.flatMap (entriesOf (segment.weightedLengths query.fields))).filter
        fun e => decide (e.1 = row) && allowed e.1) =
        (terms.flatMap (entriesOf (segment.weightedLengths query.fields))).filter
          fun e => e.1 = row := by
      refine filter_congr fun e _ => ?_
      by_cases heq : e.1 = row
      · simp [heq,hallowed]
      · simp [heq]
    rw [hsame]
    change total _ row = _
    rw [total_flatMap]
    congr 1
    exact map_congr_left fun term hterm => total_entriesOf (hterms term hterm) row

end Terms

section Index
variable {scorerFor : ℕ → CorpusStats → TermScorer R} {index : LexicalIndex} {stats : CorpusStats}
  {query : TermQuery} {allow : Option (AllowLists index)} {strategy : Strategy}

theorem openTerms_spec (live : LiveSegment) :
    ∀ term ∈ openTerms scorerFor index stats query live.segment,
      StreamWf live.segment.lengths live.segment.rowCount
          (lengthOf (live.segment.weightedLengths query.fields)) term.1 ∧
        ∀ r,term.1.tf r = sourceTf term.1.sources r := by
  intro term hterm
  obtain ⟨word,-,hopen⟩ := mem_filterMap.mp hterm
  obtain ⟨-,hopen⟩ := Option.ite_none_left_eq_some.mp hopen
  obtain ⟨stream,hstream,rfl⟩ := Option.map_eq_some_iff.mp hopen
  exact openStream_spec live.valid hstream

theorem openCursors_opened (live : LiveSegment) :
    ∀ c ∈ openCursors (openTerms scorerFor index stats query live.segment),
      Opened live.segment.lengths live.segment.rowCount
        (live.segment.weightedLengths query.fields) c := by
  intro c hc
  obtain ⟨term,hterm,rfl⟩ := mem_map.mp hc
  obtain ⟨hwf,hwhole⟩ := openTerms_spec live term (mem_filter.mp hterm).1
  exact ⟨hwf,hwhole,rfl⟩

def hitsOf (scorerFor : ℕ → CorpusStats → TermScorer R) (index : LexicalIndex)
    (stats : CorpusStats) (query : TermQuery) (allow : Option (AllowLists index))
    (entry : LiveSegment × ℕ) : List (ScoredDoc R) :=
  segmentHits (entry.1.segment.weightedLengths query.fields) entry.2 entry.1.segment.rowCount
    (allowedAt allow entry.2)
    ((openCursors (openTerms scorerFor index stats query entry.1.segment)).map planOf)

omit [AddCommGroup R] [LinearOrder R] in
theorem Before.next {segment bound : ℕ} {heap : TopK R} (h : Before segment bound heap) :
    Before (segment+1) 0 heap := by
  intro e he
  rcases h e he with hlt | ⟨heq,-⟩
  · exact .inl (by omega)
  · exact .inl (by omega)

variable [IsOrderedAddMonoid R] in
theorem foldlM_pruneSegment (hstrategy : strategy ≠ .exhaustive) (segments : List LiveSegment)
    (start : ℕ) (hordinals : start+segments.length ≤ 2^32) (heap : TopK R)
    (hbefore : Before start 0 heap) (hranked : heap.Ranked) :
    (segments.zipIdx start).foldlM (fun heap entry =>
        pruneSegment strategy (entry.1.segment.weightedLengths query.fields) entry.2
          (allowedAt allow entry.2)
          (openCursors (openTerms scorerFor index stats query entry.1.segment)) heap) heap =
      some ⟨heap.capacity,((segments.zipIdx start).flatMap
        (hitsOf scorerFor index stats query allow)).foldl (offerTop heap.capacity)
          heap.entries⟩ := by
  induction segments generalizing start heap with
  | nil => rfl
  | cons live segments ih =>
    rw [length_cons] at hordinals
    have hordinal : segmentIndex start = start := by
      simp only [segmentIndex,u32Max]
      omega
    rw [zipIdx_cons,foldlM_cons,flatMap_cons,foldl_append]
    simp only
    rw [pruneSegment_eq (openCursors_opened live) hstrategy hordinal hbefore hranked,
      Option.bind_eq_bind,Option.bind_some,
      ih (start+1) (by omega) _ hbefore.offered.next (hranked.offered _),offered_capacity,
      offered_eq_hits]
    rfl

theorem search_eq (k : ℕ) : search scorerFor index query k allow =
    index.corpusStats.map fun stats => ((index.segments.zipIdx.flatMap
      (hitsOf scorerFor index stats query allow)).insertionSort (· ≤ ·)).take k := by
  unfold search
  cases index.corpusStats with
  | error error => rfl
  | ok stats =>
    change Except.ok _ = Except.ok _
    rw [mergeSort_eq_insertionSort]
    congr 3
    refine flatMap_congr fun entry hentry => ?_
    have hlt : entry.2 < 2^32 := by
      have hget:=mem_zipIdx_iff_getElem?.mp hentry
      exact (List.getElem?_eq_some_iff.mp hget).1.trans_le index.ordinals
    have hordinal : segmentIndex entry.2 = entry.2 := by
      simp only [segmentIndex,u32Max]
      omega
    rw [touchedHits_eq fun term hterm => (openTerms_spec entry.1 term hterm).1,hordinal]
    rfl

variable [IsOrderedAddMonoid R] in
theorem searchPruned_eq (hstrategy : strategy ≠ .exhaustive) (k : ℕ) :
    searchPruned scorerFor index query k strategy allow =
      (index.corpusStats.map fun stats => ((index.segments.zipIdx.flatMap
        (hitsOf scorerFor index stats query allow)).insertionSort (· ≤ ·)).take
          (max k 1)).mapError SearchError.stats := by
  unfold searchPruned
  rw [if_neg hstrategy]
  cases index.corpusStats with
  | error error => rfl
  | ok stats =>
    have hbefore : Before 0 0 (TopK.new (max k 1) : TopK R) := fun e he => by cases he
    have hranked : (TopK.new (max k 1) : TopK R).Ranked :=
      ⟨by simp [TopK.new,sortedLE_iff_pairwise],Nat.zero_le _,fun e he => by cases he⟩
    simp only
    rw [foldlM_pruneSegment hstrategy index.segments 0 (by simpa using index.ordinals) _ hbefore
      hranked]
    simp only [TopK.new]
    rw [foldl_offerTop]
    rfl

def NothingMatches (index : LexicalIndex) (query : TermQuery) (allow : Option (AllowLists index)) :
    Prop :=
  ∀ ordinal live,index.segments[ordinal]? = some live → ∀ term ∈ query.terms,
    query.frequency index term ≠ 0 → ∀ stream,live.segment.openStream term query.fields = some stream →
      ∀ p ∈ stream.postings,allowedAt allow ordinal p.1 = false

theorem hitsOf_eq_nil {entry : LiveSegment × ℕ} :
    hitsOf scorerFor index stats query allow entry = [] ↔ ∀ term ∈ query.terms,
      query.frequency index term ≠ 0 → ∀ stream,
        entry.1.segment.openStream term query.fields = some stream →
          ∀ p ∈ stream.postings,allowedAt allow entry.2 p.1 = false := by
  have hterms : ∀ term ∈ openTerms scorerFor index stats query entry.1.segment,
      StreamWf entry.1.segment.lengths entry.1.segment.rowCount
        (lengthOf (entry.1.segment.weightedLengths query.fields)) term.1 :=
    fun term hterm => (openTerms_spec entry.1 term hterm).1
  have hrows:=rowScore_openCursors _ hterms
  unfold hitsOf segmentHits
  rw [map_eq_nil_iff,filter_eq_nil_iff]
  constructor
  · intro hnone term hterm hfrequency stream hopen p hp
    have hmem : (stream,scorerFor (query.frequency index term) stats) ∈
        openTerms scorerFor index stats query entry.1.segment :=
      mem_filterMap.mpr ⟨term,hterm,by rw [if_neg hfrequency,hopen,Option.map_some]⟩
    rw [postings_eq (hterms _ hmem)] at hp
    obtain ⟨row,hrow,rfl⟩ := mem_map.mp hp
    obtain ⟨hrange,htf⟩ := mem_filter.mp hrow
    have hmatch:=(hrows row).2.mpr ⟨_,hmem,by simpa using htf⟩
    simpa [hmatch] using hnone row hrange
  · intro hnone row _ hhit
    obtain ⟨hmatch,hallowed⟩ := Bool.and_eq_true_iff.mp hhit
    obtain ⟨term,hterm,htf⟩ := (hrows row).2.mp hmatch
    obtain ⟨word,hword,hopen⟩ := mem_filterMap.mp hterm
    obtain ⟨hfrequency,hopen⟩ := Option.ite_none_left_eq_some.mp hopen
    obtain ⟨stream,hstream,rfl⟩ := Option.map_eq_some_iff.mp hopen
    have hp : (row,stream.tf row) ∈ stream.postings := by
      rw [postings_eq (hterms _ hterm)]
      refine mem_map.mpr ⟨row,mem_filter.mpr ⟨?_,by simpa using htf⟩,rfl⟩
      exact mem_range.mpr ((hterms _ hterm).row_lt htf)
    rw [hnone word hword hfrequency stream hstream _ hp] at hallowed
    cases hallowed

theorem hits_eq_nil :
    index.segments.zipIdx.flatMap (hitsOf scorerFor index stats query allow) = [] ↔
      NothingMatches index query allow := by
  rw [flatMap_eq_nil_iff]
  constructor
  · intro h ordinal live hlive
    exact hitsOf_eq_nil.mp (h (live,ordinal) (mem_zipIdx_iff_getElem?.mpr hlive))
  · rintro h ⟨live,ordinal⟩ hentry
    exact hitsOf_eq_nil.mpr (h ordinal live (mem_zipIdx_iff_getElem?.mp hentry))

end Index

variable [IsOrderedAddMonoid R] in
/-- Pruned search is exhaustive search, but for a request for no hits that matches. -/
theorem searchPruned_exact_iff (scorerFor : ℕ → CorpusStats → TermScorer R) (index : LexicalIndex)
    (query : TermQuery) (k : ℕ) (strategy : Strategy) (allow : Option (AllowLists index)) :
    searchPruned scorerFor index query k strategy allow =
        (search scorerFor index query k allow).mapError SearchError.stats ↔
      k ≠ 0 ∨ strategy = .exhaustive ∨ (∃ error,index.corpusStats = .error error) ∨
        NothingMatches index query allow := by
  by_cases hstrategy : strategy = .exhaustive
  · simp [searchPruned,hstrategy]
  · rw [searchPruned_eq hstrategy,search_eq]
    cases hstats : index.corpusStats with
    | error error => simp [Except.map,Except.mapError]
    | ok stats =>
      have hhits : index.segments.zipIdx.flatMap (hitsOf scorerFor index stats query allow) = [] ↔
          NothingMatches index query allow := hits_eq_nil
      have hempty : NothingMatches index query allow ↔ ((index.segments.zipIdx.flatMap
          (hitsOf scorerFor index stats query allow)).insertionSort (· ≤ ·)) = [] := by
        rw [← hhits,← length_eq_zero_iff,← length_eq_zero_iff,
          length_insertionSort]
      rw [hempty]
      simp only [Except.map,Except.mapError,Except.ok.injEq,hstrategy,false_or,reduceCtorEq,
        exists_false]
      cases k with
      | zero => simp
      | succ k => simp

def oneTermIndex : LexicalIndex where
  segments := [{
    segment := ⟨[⟨"heap",0,[⟨[(0,2)],0,⟨2,5⟩⟩],⟨2,5⟩⟩],[(0,[5])],1⟩
    live := {0}
    valid := by
      refine ⟨fun span hspan => ?_,by decide⟩
      rw [mem_singleton.mp hspan]
      refine ⟨by decide,fun b hb => ?_,by decide,by decide⟩
      rw [mem_singleton.mp hb]
      exact ⟨by decide,by decide,by decide,by decide,by decide⟩ }]
  ordinals := by decide

def oneTermScorer (_ : ℕ) (stats : CorpusStats) : TermScorer ℚ :=
  bm25Scorer 1 (by norm_num) stats ⟨6 / 5,3 / 4,by norm_num,by norm_num,by norm_num⟩

theorem searchPruned_exact_one :
    searchPruned oneTermScorer oneTermIndex ⟨["heap"],[(0,1000)]⟩ 1 .blockMaxWand none =
      (search oneTermScorer oneTermIndex ⟨["heap"],[(0,1000)]⟩ 1 none).mapError
        SearchError.stats :=
  (searchPruned_exact_iff oneTermScorer oneTermIndex ⟨["heap"],[(0,1000)]⟩ 1 .blockMaxWand
    none).mpr (.inl one_ne_zero)

/-- A request for no hits gets one. -/
theorem searchPruned_zero :
    searchPruned oneTermScorer oneTermIndex ⟨["heap"],[(0,1000)]⟩ 0 .blockMaxMaxscore none ≠
      (search oneTermScorer oneTermIndex ⟨["heap"],[(0,1000)]⟩ 0 none).mapError
        SearchError.stats := by
  decide +kernel

end Zeppelin.Fts
