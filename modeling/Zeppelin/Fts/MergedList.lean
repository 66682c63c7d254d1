import Zeppelin.Fts.StreamSpec

/-! fts/sealed.rs, fts/prune/bounds.rs -/

namespace Zeppelin.Fts
open List

def frequencySum (segment : SealedSegment) (term : String) (weights : FieldWeights)
    (row : ℕ) : ℕ :=
  ((segment.spansOf term).map fun span =>
    tfOf (span.blocks.flatMap Block.postings) row*weights.weight span.field).sum

def mergedFrequency (segment : SealedSegment) (term : String) (weights : FieldWeights)
    (row : ℕ) : ℕ :=
  min (frequencySum segment term weights row / 1000) u32Max

def mergedList (segment : SealedSegment) (term : String) (weights : FieldWeights) :
    List (ℕ × ℕ) :=
  ((List.range segment.rowCount).map fun row =>
    (row,mergedFrequency segment term weights row)).filter fun p => p.2 ≠ 0

inductive Move where
  | advance
  | seek (row : ℕ)
  deriving DecidableEq

def TermStream.move (s : TermStream) : Move → TermStream
  | .advance => s.advance
  | .seek row => s.seek row

def moveList (rest : List (ℕ × ℕ)) : Move → List (ℕ × ℕ)
  | .advance => rest.tail
  | .seek row => rest.dropWhile fun p => p.1 < row

theorem moveList_suffix (rest : List (ℕ × ℕ)) (move : Move) : moveList rest move <:+ rest := by
  cases move with
  | advance => exact tail_suffix rest
  | seek row => exact dropWhile_suffix _

theorem moves_suffix (moves : List Move) (rest : List (ℕ × ℕ)) :
    moves.foldl moveList rest <:+ rest := by
  induction moves generalizing rest with
  | nil => exact suffix_refl rest
  | cons move moves ih => exact (ih (moveList rest move)).trans (moveList_suffix rest move)

theorem mergedList_ascending (segment : SealedSegment) (term : String) (weights : FieldWeights) :
    (mergedList segment term weights).Pairwise fun p q => p.1 < q.1 := by
  apply List.Pairwise.filter
  rw [pairwise_map]
  exact pairwise_lt_range

theorem tfOf_filter {rest : List (ℕ × ℕ)} (h : rest.Pairwise fun p q => p.1 < q.1) (row : ℕ) :
    tfOf (rest.filter fun p => p.2 ≠ 0) row = tfOf rest row := by
  induction rest with
  | nil => rfl
  | cons p rest ih =>
    have htail:=ih (pairwise_cons.mp h).2
    by_cases hzero : p.2 = 0
    · rw [filter_cons_of_neg (by simpa using hzero),htail,tfOf_cons]
      split
      · rename_i hrow
        rw [hzero]
        refine tfOf_eq_zero fun q hq heq => ?_
        have hlt:=(pairwise_cons.mp h).1 q hq
        omega
      · rfl
    · rw [filter_cons_of_pos (by simpa using hzero),tfOf_cons,tfOf_cons,htail]

theorem tfOf_range (f : ℕ → ℕ) (count row : ℕ) :
    tfOf ((List.range count).map fun i => (i,f i)) row = if row < count then f row else 0 := by
  induction count with
  | zero => simp [tfOf]
  | succ count ih =>
    rw [range_succ,map_append,tfOf,lookup_append]
    rw [tfOf] at ih
    by_cases hlt : row < count
    · rw [if_pos hlt] at ih
      rw [if_pos (by omega)]
      cases hlookup : ((List.range count).map fun i => (i,f i)).lookup row with
      | none =>
        rw [lookup_eq_none_iff] at hlookup
        have hne:=hlookup (row,f row) (mem_map.mpr ⟨row,mem_range.mpr hlt,rfl⟩)
        simp at hne
      | some tf =>
        rw [hlookup] at ih
        exact ih
    · have hnone : ((List.range count).map fun i => (i,f i)).lookup row = none := by
        rw [lookup_eq_none_iff]
        intro p hp
        obtain ⟨i,hi,rfl⟩ := mem_map.mp hp
        have hi:=mem_range.mp hi
        simp only [bne_iff_ne,ne_eq]
        omega
      rw [hnone]
      by_cases heq : row = count
      · simp [heq]
      · rw [if_neg (by omega)]
        simp [lookup_cons,beq_false_of_ne heq]

structure Reads (lengths : List (FieldId × List ℕ)) (rowCount : ℕ) (lengthAt : ℕ → ℕ)
    (s : TermStream) (rest : List (ℕ × ℕ)) : Prop where
  wf : StreamWf lengths rowCount lengthAt s
  ascending : rest.Pairwise fun p q => p.1 < q.1
  positive : ∀ p ∈ rest,p.2 ≠ 0
  tf : ∀ row,s.tf row = tfOf rest row

section Stream
variable {lengths : List (FieldId × List ℕ)} {rowCount : ℕ} {lengthAt : ℕ → ℕ} {s : TermStream}
  {rest : List (ℕ × ℕ)}

theorem Reads.tf_mem (h : Reads lengths rowCount lengthAt s rest) {p : ℕ × ℕ} (hp : p ∈ rest) :
    s.tf p.1 = p.2 := by
  have hasc:=h.ascending
  rw [h.tf]
  clear h
  induction rest with
  | nil => cases hp
  | cons q rest ih =>
    rw [tfOf_cons]
    rcases mem_cons.mp hp with rfl | hp
    · exact if_pos rfl
    · have hlt:=(pairwise_cons.mp hasc).1 p hp
      rw [if_neg (by omega)]
      exact ih hp (pairwise_cons.mp hasc).2

theorem Reads.head (h : Reads lengths rowCount lengthAt s rest) :
    s.head = rest.head?.map Prod.fst := by
  cases rest with
  | nil =>
    cases hhead : s.head with
    | none => rfl
    | some row =>
      have hpos:=h.wf.head_pos row hhead
      rw [h.tf] at hpos
      exact absurd hpos (Nat.lt_irrefl 0)
  | cons p rest =>
    have hp : s.tf p.1 ≠ 0 := by
      rw [h.tf_mem mem_cons_self]
      exact h.positive p mem_cons_self
    obtain ⟨row,hrow,hle⟩ := h.wf.head_le hp
    have hmem : (row,s.tf row) ∈ p::rest := by
      rw [h.tf]
      apply mem_of_tfOf
      rw [← h.tf]
      exact (h.wf.head_pos row hrow).ne'
    have hge : p.1 ≤ row := by
      rcases mem_cons.mp hmem with heq | hmem
      · rw [← heq]
      · exact ((pairwise_cons.mp h.ascending).1 _ hmem).le
    rw [hrow,le_antisymm hle hge]
    rfl

theorem Reads.currentTf (h : Reads lengths rowCount lengthAt s rest) :
    s.currentTf = rest.head?.map Prod.snd := by
  cases rest with
  | nil => rw [TermStream.currentTf,h.head]; rfl
  | cons p rest =>
    rw [h.wf.currentTf h.head,h.tf_mem mem_cons_self]
    rfl

theorem Reads.move (h : Reads lengths rowCount lengthAt s rest) (move : Move) :
    Reads lengths rowCount lengthAt (s.move move) (moveList rest move) := by
  have hsub:=(moveList_suffix rest move).sublist
  have hpos : ∀ p ∈ moveList rest move,p.2 ≠ 0 := fun p hp => h.positive p (hsub.subset hp)
  cases move with
  | advance =>
    cases rest with
    | nil =>
      have heq : s.move .advance = s := by
        simp only [TermStream.move,TermStream.advance,h.head,head?_nil,Option.map_none]
      rw [heq]
      exact h
    | cons p rest =>
      obtain ⟨hwf,htf,-⟩ := h.wf.advance h.head
      refine ⟨hwf,h.ascending.sublist hsub,hpos,fun row => ?_⟩
      rw [moveList,tail_cons,tfOf_tail h.ascending,← h.tf]
      exact htf row
  | seek row =>
    obtain ⟨hwf,htf,-⟩ := h.wf.seek row
    refine ⟨hwf,h.ascending.sublist hsub,hpos,fun r => ?_⟩
    rw [moveList,tfOf_dropWhile h.ascending,← h.tf]
    exact htf r

theorem Reads.moves (h : Reads lengths rowCount lengthAt s rest) (moves : List Move) :
    Reads lengths rowCount lengthAt (moves.foldl TermStream.move s)
      (moves.foldl moveList rest) := by
  induction moves generalizing s rest with
  | nil => exact h
  | cons move moves ih => exact ih (h.move move)

end Stream

section Open
variable {segment : SealedSegment} {term : String} {weights : FieldWeights} {s : TermStream}

theorem sum_weighted_filter (spans : List ListSpan) (row : ℕ) :
    ((spans.filter fun span => weights.weight span.field ≠ 0).map fun span =>
      tfOf (span.blocks.flatMap Block.postings) row*weights.weight span.field).sum =
    (spans.map fun span =>
      tfOf (span.blocks.flatMap Block.postings) row*weights.weight span.field).sum := by
  induction spans with
  | nil => rfl
  | cons span spans ih =>
    by_cases hzero : weights.weight span.field = 0
    · rw [filter_cons_of_neg (by simpa using hzero),ih,map_cons,sum_cons,hzero,
        Nat.mul_zero,Nat.zero_add]
    · rw [filter_cons_of_pos (by simpa using hzero),map_cons,sum_cons,ih,
        map_cons,sum_cons]

theorem openStream_none (h : segment.openStream term weights = none) :
    mergedList segment term weights = [] := by
  unfold SealedSegment.openStream at h
  split at h
  · rename_i hempty
    have hsum : ∀ row,frequencySum segment term weights row = 0 := by
      intro row
      rw [frequencySum,← sum_weighted_filter,List.isEmpty_iff.mp hempty]
      rfl
    simp [mergedList,mergedFrequency,hsum]
  · cases h

theorem openStream_sources (h : segment.openStream term weights = some s) (row : ℕ) :
    sourceTf s.sources row = mergedFrequency segment term weights row := by
  unfold SealedSegment.openStream at h
  obtain ⟨-,h⟩ := Option.ite_none_left_eq_some.mp h
  obtain rfl := Option.some.inj h
  rw [reset_sources,mergedFrequency,frequencySum,← sum_weighted_filter,sourceTf]
  simp only [TermStream.sources,map_map,Function.comp_def,ListCursor.source,cursorAt,
    u64Max,u32Max]
  omega

theorem openStream_reads (hvalid : segment.Valid)
    (h : segment.openStream term weights = some s) :
    Reads segment.lengths segment.rowCount (lengthOf (segment.weightedLengths weights)) s
      (mergedList segment term weights) := by
  obtain ⟨hwf,htf⟩ := openStream_spec hvalid h
  refine ⟨hwf,mergedList_ascending segment term weights,?_,fun row => ?_⟩
  · intro p hp
    simpa using (mem_filter.mp hp).2
  · rw [mergedList,tfOf_filter,tfOf_range]
    · split
      · rw [htf,openStream_sources h]
      · rename_i hrow
        by_contra hne
        exact hrow (hwf.row_lt hne)
    · rw [pairwise_map]
      exact pairwise_lt_range

end Open

/-- Where a seek lands: the first row of the list that is neither below the target nor behind
the cursor. -/
theorem find_landing {list rest : List (ℕ × ℕ)} (h : list.Pairwise fun p q => p.1 < q.1)
    (hsuffix : rest <:+ list) (target : ℕ) :
    (rest.dropWhile fun p => p.1 < target).head? = list.find? fun p =>
      target ≤ p.1 && (rest.head?.map Prod.fst).any fun row => row ≤ p.1 := by
  obtain ⟨front,rfl⟩ := hsuffix
  rw [pairwise_append] at h
  obtain ⟨-,hrest,hcross⟩ := h
  rw [find?_append]
  have hfront : front.find? (fun p =>
      target ≤ p.1 && (rest.head?.map Prod.fst).any fun row => row ≤ p.1) = none := by
    rw [find?_eq_none]
    intro p hp hcon
    cases rest with
    | nil => simp at hcon
    | cons q rest =>
      have hlt:=hcross p hp q mem_cons_self
      simp only [head?_cons,Option.map_some,Option.any_some,Bool.and_eq_true,
        decide_eq_true_eq] at hcon
      omega
  rw [hfront,Option.none_or]
  cases rest with
  | nil => rfl
  | cons q rest =>
    have hge : ∀ p ∈ q::rest,q.1 ≤ p.1 := by
      intro p hp
      rcases mem_cons.mp hp with rfl | hp
      · exact le_rfl
      · exact ((pairwise_cons.mp hrest).1 p hp).le
    have hcongr : ∀ part : List (ℕ × ℕ),(∀ p ∈ part,q.1 ≤ p.1) →
        (part.dropWhile fun p => p.1 < target).head? = part.find? fun p =>
          target ≤ p.1 && q.1 ≤ p.1 := by
      intro part hpart
      induction part with
      | nil => rfl
      | cons p part ih =>
        have hle:=hpart p mem_cons_self
        by_cases hlt : p.1 < target
        · rw [dropWhile_cons_of_pos (by simpa using hlt),find?_cons_of_neg (by simp; omega)]
          exact ih fun p hp => hpart p (mem_cons_of_mem _ hp)
        · rw [dropWhile_cons_of_neg (by simpa using hlt),find?_cons_of_pos (by simp; omega)]
          rfl
    exact hcongr (q::rest) hge

/-- A cursor stands on the row of its list that the same moves lead to. A seek lands on the first
row at or behind its target that the cursor has not passed, and no move goes back. -/
theorem cursor_reads_merged {segment : SealedSegment} (h : segment.Valid) (term : String)
    (weights : FieldWeights) :
    (segment.openStream term weights = none → mergedList segment term weights = []) ∧
    ∀ s,segment.openStream term weights = some s → ∀ moves : List Move,
      let list:=mergedList segment term weights
      let rest:=moves.foldl moveList list
      let now:=moves.foldl TermStream.move s
      now.currentRow = rest.head?.map Prod.fst ∧ now.currentTf = rest.head?.map Prod.snd ∧
      (∀ target,(now.seek target).currentRow = (list.find? fun p =>
        target ≤ p.1 && now.currentRow.any fun row => row ≤ p.1).map Prod.fst) ∧
      ∀ move row,(now.move move).currentRow = some row →
        ∃ before,now.currentRow = some before ∧ before ≤ row := by
  refine ⟨openStream_none,?_⟩
  intro s hopen moves list rest now
  have hreads:=(openStream_reads h hopen).moves moves
  have hrow : now.currentRow = rest.head?.map Prod.fst := hreads.head
  refine ⟨hrow,hreads.currentTf,?_,?_⟩
  · intro target
    have hseek:=(hreads.move (.seek target)).head
    rw [hrow,← find_landing (mergedList_ascending segment term weights)
      (moves_suffix moves list) target]
    exact hseek
  · intro move row hmove
    have hnext:=(hreads.move move).head
    rw [TermStream.currentRow] at hmove
    rw [hmove] at hnext
    obtain ⟨p,hp,rfl⟩ := Option.map_eq_some_iff.mp hnext.symm
    have hmem : p ∈ rest := (moveList_suffix rest move).subset (mem_of_mem_head? hp)
    rw [hrow]
    cases hrest : rest with
    | nil => rw [hrest] at hmem; cases hmem
    | cons q tail =>
      refine ⟨q.1,rfl,?_⟩
      have hasc:=hreads.ascending
      rw [show moves.foldl moveList list = q::tail from hrest] at hasc
      rw [hrest] at hmem
      rcases mem_cons.mp hmem with rfl | hmem
      · exact le_rfl
      · exact ((pairwise_cons.mp hasc).1 p hmem).le

/-- One posting whose weighted frequency needs more than 32 bits. -/
def wideSegment : SealedSegment where
  spans := [⟨"a",0,[⟨[(0,2^31)],0,⟨2^31,u16Max⟩⟩],⟨2^31,u16Max⟩⟩]
  lengths := [(0,[2^31])]
  rowCount := 1

theorem wideSegment_valid : wideSegment.Valid where
  rows := by decide
  span := by
    intro span hspan
    obtain rfl := mem_singleton.mp hspan
    refine ⟨by simp,?_,by simp,by simp⟩
    intro b hb
    obtain rfl := mem_singleton.mp hb
    exact ⟨rfl,by decide,by decide,by decide,by decide⟩

theorem frequency_saturates : ¬ ∀ (segment : SealedSegment) (term : String)
    (weights : FieldWeights) (s : TermStream),segment.Valid →
    segment.openStream term weights = some s → ∀ row,s.currentRow = some row →
    s.currentTf = some (frequencySum segment term weights row / 1000) := by
  intro hall
  have h:=hall wideSegment "a" [(0,4000)] _ wideSegment_valid rfl 0 (by decide +kernel)
  revert h
  decide +kernel

theorem cursor_reads_wide : ∃ s,wideSegment.openStream "a" [(0,4000)] = some s ∧
    ((s.seek 0).advance.currentRow = none ∧ (s.seek 0).currentTf = some u32Max) := by
  obtain ⟨s,hs⟩ : ∃ s,wideSegment.openStream "a" [(0,4000)] = some s := ⟨_,rfl⟩
  have hread:=(cursor_reads_merged wideSegment_valid "a" [(0,4000)]).2 s hs
  refine ⟨s,hs,(hread [.seek 0,.advance]).1.trans ?_,(hread [.seek 0]).2.1.trans ?_⟩
  · decide +kernel
  · decide +kernel

end Zeppelin.Fts
