import Zeppelin.GraphStore.MergeSpec

namespace Zeppelin.GraphStore.Adjacency
open List

def RangeKey.holds (key : RangeKey) (rel : ℕ) : Prop :=
  key.lower ≤ rel ∧ key.upper.above rel = true

variable {key : RangeKey} {delta : Bool} {watermark : ℕ} {base : Run} {deltas : List Run}
  {previous : Option ℕ} {entries : List DeltaEntry} {run : Run} {later : ℕ}

theorem validEdge_eq_ok {edge : Edge} : validEdge key edge previous = .ok () ↔
      (∀ rel ∈ previous,rel < edge.rel) ∧ key.holds edge.rel := by
  have hprevious : (previous.any fun rel => ¬ rel < edge.rel) = true ↔
      ¬ ∀ rel ∈ previous,rel < edge.rel := by
    cases previous with
    | none => simp
    | some rel => simp
  simp only [validEdge,RangeKey.holds,hprevious]
  by_cases h1 : ∀ rel ∈ previous,rel < edge.rel
  · rw [if_neg (not_not.mpr h1)]
    by_cases h2 : edge.rel < key.lower
    · simp [h2]
    · by_cases h3 : key.upper.above edge.rel = true
      · simpa [h2,h3] using ⟨h1,Nat.le_of_not_lt h2⟩
      · simp [h2,h3]
  · rw [if_pos h1]
    simp only [reduceCtorEq,false_iff]
    exact fun h => h1 h.1

theorem checkEntries_eq_ok : checkEntries key previous entries = .ok () ↔
      (∀ rel ∈ previous,∀ entry ∈ entries,rel < entry.edge.rel) ∧ Ascending entries ∧
        ∀ entry ∈ entries,key.holds entry.edge.rel := by
  induction entries generalizing previous with
  | nil => simp [checkEntries,Ascending]
  | cons entry entries ih =>
    rw [checkEntries]
    constructor
    · intro h
      obtain ⟨⟨⟩,hedge,hrest⟩ := bind_eq_ok h
      obtain ⟨hlt,hholds⟩ := validEdge_eq_ok.mp hedge
      obtain ⟨hnext,hascending,hall⟩ := ih.mp hrest
      have hhead:=hnext entry.edge.rel rfl
      refine ⟨fun rel hrel other hother => ?_,pairwise_cons.mpr ⟨hhead,hascending⟩,?_⟩
      · rcases mem_cons.mp hother with rfl | hother
        · exact hlt rel hrel
        · exact (hlt rel hrel).trans (hhead other hother)
      · exact forall_mem_cons.mpr ⟨hholds,hall⟩
    · rintro ⟨hlt,hascending,hall⟩
      have hedge:=validEdge_eq_ok.mpr
        ⟨fun rel hrel => hlt rel hrel entry mem_cons_self,hall entry mem_cons_self⟩
      rw [hedge,ok_bind]
      apply ih.mpr
      refine ⟨?_,hascending.tail,fun other hother => hall other (mem_cons_of_mem _ hother)⟩
      intro rel hrel other hother
      cases hrel
      exact hascending.head_lt other hother

def maxEntries (delta : Bool) : ℕ := if delta then maxPendingEntries else maxBaseEntries

theorem limitCount_eq_ok {count : ℕ} :
    limitCount delta count = .ok () ↔ count ≤ maxEntries delta := by
  cases delta with
  | false => simp [limitCount,maxEntries]
  | true => simp [limitCount,maxEntries]

theorem validRange_eq_ok : validRange key = .ok () ↔ key.upper.above key.lower = true := by
  simp [validRange]

/-- A stored block that passes a reader of `key`. -/
structure Run.Fits (key : RangeKey) (delta : Bool) (run : Run) : Prop where
  delta_eq : run.delta = delta
  key_eq : run.key = key
  interval : key.upper.above key.lower = true
  count : run.entries.length ≤ maxEntries delta
  ascending : Ascending run.entries
  holds : ∀ entry ∈ run.entries,key.holds entry.edge.rel

theorem decode_eq_ok : decode key delta run = .ok () ↔ run.Fits key delta := by
  constructor
  · intro h
    obtain ⟨⟨⟩,hdelta,h⟩ := bind_eq_ok h
    obtain ⟨⟨⟩,hrange,h⟩ := bind_eq_ok h
    obtain ⟨⟨⟩,hkey,h⟩ := bind_eq_ok h
    obtain ⟨⟨⟩,hcount,hentries⟩ := bind_eq_ok h
    simp only [failIf_eq_ok,ne_eq,not_not] at hdelta hkey
    have hchecked:=checkEntries_eq_ok.mp hentries
    exact ⟨hdelta,hkey,hkey ▸ validRange_eq_ok.mp hrange,limitCount_eq_ok.mp hcount,
      hchecked.2.1,hchecked.2.2⟩
  · rintro ⟨hdelta,hkey,hinterval,hcount,hascending,hholds⟩
    rw [decode,failIf_neg _ (not_not.mpr hdelta),failIf_neg _ (not_not.mpr hkey),hkey,
      validRange_eq_ok.mpr hinterval,limitCount_eq_ok.mpr hcount,
      checkEntries_eq_ok.mpr ⟨by simp,hascending,hholds⟩]
    rfl

theorem encode_eq_ok {sequence : ℕ} : encode key sequence entries delta = .ok run ↔
      run = ⟨key,sequence,delta,entries⟩ ∧ run.Fits key delta := by
  constructor
  · intro h
    obtain ⟨⟨⟩,hrange,h⟩ := bind_eq_ok h
    obtain ⟨⟨⟩,hcount,h⟩ := bind_eq_ok h
    obtain ⟨⟨⟩,hentries,hret⟩ := bind_eq_ok h
    cases hret
    have hchecked:=checkEntries_eq_ok.mp hentries
    exact ⟨rfl,rfl,rfl,validRange_eq_ok.mp hrange,limitCount_eq_ok.mp hcount,hchecked.2.1,
      hchecked.2.2⟩
  · rintro ⟨rfl,hfits⟩
    rw [encode,validRange_eq_ok.mpr hfits.interval,limitCount_eq_ok.mpr hfits.count,
      checkEntries_eq_ok.mpr ⟨by simp,hfits.ascending,hfits.holds⟩]
    rfl

theorem checkRuns_eq_ok {cutoff previous pending : ℕ}
    {runs : List Run} (hpending : pending ≤ maxPendingEntries) :
    checkRuns key watermark cutoff previous pending runs = .ok () ↔
      (∀ run ∈ runs,run.Fits key true ∧ watermark < run.sequence ∧ run.sequence ≤ cutoff) ∧
        (previous::runs.map Run.sequence).IsChain (· ≤ ·) ∧
          pending+sumEntries runs ≤ maxPendingEntries := by
  induction runs generalizing previous pending with
  | nil => simp [checkRuns,sumEntries,hpending]
  | cons run runs ih =>
    rw [checkRuns]
    constructor
    · intro h
      obtain ⟨⟨⟩,hfits,h⟩ := bind_eq_ok h
      obtain ⟨⟨⟩,hseq,h⟩ := bind_eq_ok h
      obtain ⟨⟨⟩,hcount,h⟩ := bind_eq_ok h
      simp only [failIf_eq_ok,not_or,not_le,not_lt] at hseq hcount
      obtain ⟨hall,hchain,hsum⟩ := (ih hcount).mp h
      refine ⟨forall_mem_cons.mpr ⟨⟨decode_eq_ok.mp hfits,hseq.1,hseq.2.1⟩,hall⟩,?_,?_⟩
      · rw [map_cons,isChain_cons_cons]
        exact ⟨hseq.2.2,hchain⟩
      · simp only [sumEntries,map_cons,sum_cons] at hsum ⊢
        omega
    · rintro ⟨hall,hchain,hsum⟩
      rw [map_cons,isChain_cons_cons] at hchain
      obtain ⟨hfits,hwatermark,hcutoff⟩ := hall run mem_cons_self
      simp only [sumEntries,map_cons,sum_cons] at hsum
      have hcount : pending+run.entries.length ≤ maxPendingEntries := by omega
      rw [decode_eq_ok.mpr hfits,ok_bind,failIf_neg _ (by omega),ok_bind,
        failIf_neg _ (by omega),ok_bind]
      apply (ih hcount).mpr
      refine ⟨fun other hother => hall other (mem_cons_of_mem _ hother),hchain.2,?_⟩
      rw [sumEntries]
      omega

/-- A merge that passes, at a sequence that only bounds the runs from above. -/
structure Merged (key : RangeKey) (watermark cutoff : ℕ) (base : Run) (deltas : List Run)
    (edges : List Edge) : Prop where
  cutoff_le : watermark ≤ cutoff
  runs : deltas.length ≤ maxDeltaRuns
  base_fits : base.Fits key false
  base_sequence : base.sequence = watermark
  delta_fits : ∀ run ∈ deltas,run.Fits key true ∧ watermark < run.sequence ∧
    run.sequence ≤ cutoff
  chain : (watermark::deltas.map Run.sequence).IsChain (· ≤ ·)
  pending : sumEntries deltas ≤ maxPendingEntries
  walked : walk (base::deltas) = .ok edges
  output : edges.length ≤ maxMergedEntries

theorem merge_eq_ok {cutoff : ℕ} {edges : List Edge} :
    merge key watermark cutoff base deltas = .ok edges ↔
      Merged key watermark cutoff base deltas edges := by
  constructor
  · intro h
    obtain ⟨⟨⟩,hinterval,h⟩ := bind_eq_ok h
    obtain ⟨⟨⟩,hcutoff,h⟩ := bind_eq_ok h
    obtain ⟨⟨⟩,hruns,h⟩ := bind_eq_ok h
    obtain ⟨⟨⟩,hbase,h⟩ := bind_eq_ok h
    obtain ⟨⟨⟩,hsequence,h⟩ := bind_eq_ok h
    obtain ⟨⟨⟩,hdeltas,h⟩ := bind_eq_ok h
    obtain ⟨found,hwalk,h⟩ := bind_eq_ok h
    obtain ⟨⟨⟩,houtput,h⟩ := bind_eq_ok h
    cases h
    rw [failIf_eq_ok] at hcutoff hruns hsequence houtput
    obtain ⟨hall,hchain,hsum⟩ := (checkRuns_eq_ok (Nat.zero_le _)).mp hdeltas
    exact ⟨by omega,by omega,decode_eq_ok.mp hbase,not_not.mp hsequence,hall,hchain,
      by omega,hwalk,by omega⟩
  · intro h
    have hdeltas:=(checkRuns_eq_ok (Nat.zero_le _)).mpr
      ⟨h.delta_fits,h.chain,(Nat.zero_add _).symm ▸ h.pending⟩
    have hcutoff:=h.cutoff_le
    have hruns:=h.runs
    have houtput:=h.output
    rw [merge,validRange_eq_ok.mpr h.base_fits.interval,failIf_neg _ (by omega),
      failIf_neg _ (by omega),decode_eq_ok.mpr h.base_fits,
      failIf_neg _ (not_not.mpr h.base_sequence),hdeltas,h.walked]
    simp only [ok_bind,failIf_neg _ (Nat.not_lt.mpr houtput)]
    rfl

def RangeDescriptor.edges (d : RangeDescriptor) : List Edge :=
  (walk (d.base::d.deltas)).toOption.getD []

structure RangeDescriptor.Valid (cutoff : ℕ) (d : RangeDescriptor) : Prop where
  merged : Merged d.key d.watermark cutoff d.base d.deltas d.edges
  base_count : d.base.entries.length = d.baseCount
  run_nonempty : ∀ run ∈ d.deltas,run.entries ≠ []
  pending_eq : sumEntries d.deltas = d.pending
  nonempty : d.edges ≠ []

theorem edges_of_walk {d : RangeDescriptor} {edges : List Edge}
    (h : walk (d.base::d.deltas) = .ok edges) : d.edges = edges := by
  rw [RangeDescriptor.edges,h]
  rfl

theorem validateRange_eq_ok {cutoff : ℕ} {d : RangeDescriptor} {edges : List Edge} :
    validateRange cutoff d = .ok edges ↔ d.Valid cutoff ∧ d.edges = edges := by
  constructor
  · intro h
    obtain ⟨found,hdescriptor,h⟩ := bind_eq_ok h
    obtain ⟨⟨⟩,hnonempty,hret⟩ := bind_eq_ok h
    cases hret
    obtain ⟨found,hmerge,h⟩ := bind_eq_ok hdescriptor
    obtain ⟨⟨⟩,hcount,h⟩ := bind_eq_ok h
    obtain ⟨⟨⟩,hruns,h⟩ := bind_eq_ok h
    obtain ⟨⟨⟩,hpending,hret⟩ := bind_eq_ok h
    cases hret
    have hmerged:=merge_eq_ok.mp (mapError_eq_ok hmerge)
    have hedges:=edges_of_walk hmerged.walked
    simp only [failIf_eq_ok,ne_eq,not_not] at hcount hruns hpending hnonempty
    subst hedges
    refine ⟨⟨hmerged,hcount,?_,hpending,by simpa using hnonempty⟩,rfl⟩
    simpa using hruns
  · rintro ⟨hvalid,rfl⟩
    have hruns : ¬ d.deltas.any (fun run => run.entries.isEmpty) = true := by
      simpa using hvalid.run_nonempty
    have hedges : ¬ d.edges.isEmpty = true := by simpa using hvalid.nonempty
    rw [validateRange,validateDescriptor,merge_eq_ok.mpr hvalid.merged]
    simp only [Except.mapError,ok_bind,failIf_neg _ (not_not.mpr hvalid.base_count),
      failIf_neg _ hruns,failIf_neg _ (not_not.mpr hvalid.pending_eq)]
    rw [pure_bind,failIf_neg _ hedges]
    rfl

theorem Merged.mono {cutoff : ℕ} {edges : List Edge}
    (h : Merged key watermark cutoff base deltas edges) (hle : cutoff ≤ later) :
    Merged key watermark later base deltas edges where
  cutoff_le := h.cutoff_le.trans hle
  runs := h.runs
  base_fits := h.base_fits
  base_sequence := h.base_sequence
  delta_fits := by
    intro run hrun
    obtain ⟨hfits,hwatermark,hcutoff⟩ := h.delta_fits run hrun
    exact ⟨hfits,hwatermark,hcutoff.trans hle⟩
  chain := h.chain
  pending := h.pending
  walked := h.walked
  output := h.output

theorem RangeDescriptor.Valid.mono {cutoff : ℕ} {d : RangeDescriptor}
    (h : d.Valid cutoff) (hle : cutoff ≤ later) : d.Valid later :=
  ⟨h.merged.mono hle,h.base_count,h.run_nonempty,h.pending_eq,h.nonempty⟩

theorem Merged.ascending_runs {cutoff : ℕ} {edges : List Edge}
    (h : Merged key watermark cutoff base deltas edges) :
    ∀ run ∈ base::deltas,Ascending run.entries ∧ ∀ entry ∈ run.entries,
      key.holds entry.edge.rel := by
  intro run hrun
  rcases mem_cons.mp hrun with rfl | hrun
  · exact ⟨h.base_fits.ascending,h.base_fits.holds⟩
  · have hfits:=(h.delta_fits run hrun).1
    exact ⟨hfits.ascending,hfits.holds⟩

namespace RangeDescriptor.Valid

variable {cutoff : ℕ} {d : RangeDescriptor}

theorem walked (h : d.Valid cutoff) : AscendingEdges d.edges ∧ ∀ edge,edge ∈ d.edges ↔
    latest edge.rel (runEntries (d.base::d.deltas)) = some ⟨edge,.insert⟩ :=
  walk_ok (fun run hrun => (h.merged.ascending_runs run hrun).1) h.merged.walked

theorem ascending (h : d.Valid cutoff) : AscendingEdges d.edges := h.walked.1

theorem interval (h : d.Valid cutoff) : d.key.upper.above d.key.lower = true :=
  h.merged.base_fits.interval

theorem holds (h : d.Valid cutoff) : ∀ edge ∈ d.edges,d.key.holds edge.rel := by
  intro edge hedge
  obtain ⟨entries,hentries,hmem⟩ := latest_mem ((h.walked.2 edge).mp hedge)
  obtain ⟨run,hrun,rfl⟩ := mem_map.mp hentries
  exact (h.merged.ascending_runs run hrun).2 _ hmem

theorem edge_eq (h : d.Valid cutoff) {a b : Edge} (ha : a ∈ d.edges) (hb : b ∈ d.edges)
    (hrel : a.rel = b.rel) : a = b := by
  have hlatest:=(h.walked.2 a).mp ha
  rw [hrel,(h.walked.2 b).mp hb] at hlatest
  exact (DeltaEntry.mk.inj (Option.some.inj hlatest)).1.symm

end RangeDescriptor.Valid

def RangeKey.pos (key : RangeKey) : ℕ ×ₗ ℕ ×ₗ ℕ :=
  toLex (key.node,toLex (key.relType,key.lower))

variable {a b : RangeKey} {dir : Directory} {ops edits : List Edit}

theorem keyLt_iff : KeyLt a b ↔ a.pos < b.pos := by
  simp [KeyLt,RangeKey.pos,Prod.Lex.lt_iff]

theorem pos_eq_iff :
    a.pos = b.pos ↔ a.node = b.node ∧ a.relType = b.relType ∧ a.lower = b.lower := by
  simp [RangeKey.pos]

def Sorted (dir : Directory) : Prop := dir.Pairwise fun a b => a.key.pos < b.key.pos

def Edit.Placed (edit : Edit) : Prop := ∀ d ∈ edit.value,d.key = edit.key

theorem applyEdit_spec {edit : Edit} (hplaced : edit.Placed) (h : Sorted dir) :
    Sorted (applyEdit edit dir) ∧ ∀ d,d ∈ applyEdit edit dir ↔
      edit.value = some d ∨ (d ∈ dir ∧ d.key.pos ≠ edit.key.pos) := by
  induction dir with
  | nil =>
    rw [applyEdit]
    cases edit.value with
    | none => exact ⟨.nil,by simp⟩
    | some value => exact ⟨pairwise_singleton ..,by simp [eq_comm]⟩
  | cons cell cells ih =>
    obtain ⟨hhead,htail⟩ := pairwise_cons.mp h
    rw [applyEdit]
    simp only [keyLt_iff]
    by_cases hlt : edit.key.pos < cell.key.pos
    · rw [if_pos hlt]
      have hbefore : ∀ d ∈ cell::cells,edit.key.pos < d.key.pos := by
        intro d hd
        rcases mem_cons.mp hd with rfl | hd
        · exact hlt
        · exact hlt.trans (hhead d hd)
      refine ⟨?_,fun d => ?_⟩
      · apply pairwise_append.mpr
        refine ⟨by cases edit.value <;> simp,h,fun value hvalue d hd => ?_⟩
        rw [hplaced value (Option.mem_toList.mp hvalue)]
        exact hbefore d hd
      · rw [mem_append,Option.mem_toList]
        refine or_congr Iff.rfl ⟨fun hd => ⟨hd,(hbefore d hd).ne'⟩,And.left⟩
    · rw [if_neg hlt]
      by_cases hgt : cell.key.pos < edit.key.pos
      · rw [if_pos hgt]
        obtain ⟨hsorted,hmem⟩ := ih htail
        refine ⟨?_,fun d => ?_⟩
        · apply pairwise_cons.mpr
          refine ⟨fun d hd => ?_,hsorted⟩
          rcases (hmem d).mp hd with hvalue | hold
          · rw [hplaced d hvalue]
            exact hgt
          · exact hhead d hold.1
        · rw [mem_cons,hmem,mem_cons]
          constructor
          · intro hor
            rcases hor with rfl | hvalue | hold
            · exact .inr ⟨.inl rfl,hgt.ne⟩
            · exact .inl hvalue
            · exact .inr ⟨.inr hold.1,hold.2⟩
          · intro hor
            rcases hor with hvalue | ⟨rfl | hold,hne⟩
            · exact .inr (.inl hvalue)
            · exact .inl rfl
            · exact .inr (.inr ⟨hold,hne⟩)
      · rw [if_neg hgt]
        have heq : cell.key.pos = edit.key.pos := le_antisymm (not_lt.mp hlt) (not_lt.mp hgt)
        refine ⟨?_,fun d => ?_⟩
        · apply pairwise_append.mpr
          refine ⟨by cases edit.value <;> simp,htail,fun value hvalue d hd => ?_⟩
          rw [hplaced value (Option.mem_toList.mp hvalue),← heq]
          exact hhead d hd
        · rw [mem_append,Option.mem_toList,mem_cons]
          refine or_congr Iff.rfl ⟨fun hd => ⟨.inr hd,heq ▸ (hhead d hd).ne'⟩,fun hd => ?_⟩
          rcases hd with ⟨rfl | hold,hne⟩
          · exact absurd heq hne
          · exact hold

theorem applyEdits_spec (hplaced : ∀ op ∈ ops,op.Placed)
    (hops : ops.Pairwise fun a b => a.key.pos < b.key.pos) (h : Sorted dir) :
    Sorted (ops.foldl (fun dir op => applyEdit op dir) dir) ∧
      ∀ d,d ∈ ops.foldl (fun dir op => applyEdit op dir) dir ↔
        (∃ op ∈ ops,op.value = some d) ∨ (d ∈ dir ∧ ∀ op ∈ ops,d.key.pos ≠ op.key.pos) := by
  induction ops generalizing dir with
  | nil => simpa using h
  | cons op ops ih =>
    obtain ⟨hhead,htail⟩ := pairwise_cons.mp hops
    have hfirst:=hplaced op mem_cons_self
    obtain ⟨hsorted,hmem⟩ := applyEdit_spec hfirst h
    obtain ⟨hsorted',hmem'⟩ := ih (fun o ho => hplaced o (mem_cons_of_mem _ ho)) htail hsorted
    rw [foldl_cons]
    refine ⟨hsorted',fun d => ?_⟩
    rw [hmem',hmem,exists_mem_cons_iff,forall_mem_cons]
    constructor
    · intro hor
      rcases hor with hlater | ⟨hvalue | hold,hfree⟩
      · exact .inl (.inr hlater)
      · exact .inl (.inl hvalue)
      · exact .inr ⟨hold.1,hold.2,hfree⟩
    · intro hor
      rcases hor with (hvalue | hlater) | hold
      · refine .inr ⟨.inl hvalue,fun later hmemLater => ?_⟩
        rw [hfirst d hvalue]
        exact (hhead later hmemLater).ne
      · exact .inl hlater
      · exact .inr ⟨.inr ⟨hold.1,hold.2.1⟩,hold.2.2⟩

theorem replaceEdits_ok
    (hedits : edits.Pairwise fun a b => a.key.pos ≤ b.key.pos) (h : replaceEdits edits = .ok ops) :
    (ops.Pairwise fun a b => a.key.pos < b.key.pos) ∧ (∀ op ∈ ops,op ∈ edits) ∧
      (∀ edit ∈ edits,edit.value.isSome → edit ∈ ops) ∧
        ∀ edit ∈ edits,∃ op ∈ ops,op.key.pos = edit.key.pos := by
  induction edits using replaceEdits.induct generalizing ops with
  | case1 =>
    cases h
    simp
  | case2 edit =>
    cases h
    simp
  | case3 edit next edits hsame hbad =>
    rw [replaceEdits,if_pos hsame,if_pos hbad] at h
    cases h
  | case4 edit next edits hsame hgood ih =>
    rw [replaceEdits,if_pos hsame,if_neg hgood] at h
    obtain ⟨hhead,htail⟩ := pairwise_cons.mp hedits
    obtain ⟨hsorted,hsub,hvalues,hpos⟩ := ih htail h
    have hsamePos : edit.key.pos = next.key.pos :=
      le_antisymm (hhead next mem_cons_self) (not_lt.mp fun hlt => hsame (keyLt_iff.mpr hlt))
    refine ⟨hsorted,fun op hop => mem_cons_of_mem _ (hsub op hop),?_,?_⟩
    · intro found hfound hsome
      rcases mem_cons.mp hfound with rfl | hfound
      · exact absurd (Or.inl hsome) hgood
      · exact hvalues found hfound hsome
    · intro found hfound
      rcases mem_cons.mp hfound with rfl | hfound
      · rw [hsamePos]
        exact hpos next mem_cons_self
      · exact hpos found hfound
  | case5 edit next edits hdiff ih =>
    rw [replaceEdits,if_neg hdiff] at h
    obtain ⟨rest,hrest,hret⟩ := bind_eq_ok h
    cases hret
    obtain ⟨hhead,htail⟩ := pairwise_cons.mp hedits
    obtain ⟨hsorted,hsub,hvalues,hpos⟩ := ih htail hrest
    have hnext : edit.key.pos < next.key.pos := keyLt_iff.mp (not_not.mp hdiff)
    refine ⟨?_,?_,?_,?_⟩
    · apply pairwise_cons.mpr
      refine ⟨fun op hop => ?_,hsorted⟩
      rcases mem_cons.mp (hsub op hop) with rfl | hlater
      · exact hnext
      · exact hnext.trans_le ((pairwise_cons.mp htail).1 op hlater)
    · intro op hop
      rcases mem_cons.mp hop with rfl | hop
      · exact mem_cons_self
      · exact mem_cons_of_mem _ (hsub op hop)
    · intro found hfound hsome
      rcases mem_cons.mp hfound with rfl | hfound
      · exact mem_cons_self
      · exact mem_cons_of_mem _ (hvalues found hfound hsome)
    · intro found hfound
      rcases mem_cons.mp hfound with rfl | hfound
      · exact ⟨found,mem_cons_self,rfl⟩
      · obtain ⟨op,hop,hpos⟩ := hpos found hfound
        exact ⟨op,mem_cons_of_mem _ hop,hpos⟩

theorem flush_ok {next : Directory} (hplaced : ∀ edit ∈ edits,edit.Placed)
    (hdir : Sorted dir) (h : flush edits dir = .ok next) : Sorted next ∧ ∀ d,d ∈ next ↔
      (∃ edit ∈ edits,edit.value = some d) ∨
        (d ∈ dir ∧ ∀ edit ∈ edits,d.key.pos ≠ edit.key.pos) := by
  obtain ⟨ops,hops,hret⟩ := bind_eq_ok h
  cases hret
  have htotal : Std.Total fun a b : Edit => ¬ KeyLt b.key a.key := ⟨fun a b => by
    simp only [keyLt_iff,not_lt]
    exact le_total _ _⟩
  have htrans : IsTrans Edit fun a b : Edit => ¬ KeyLt b.key a.key := ⟨fun a b c hab hbc => by
    simp only [keyLt_iff,not_lt] at hab hbc ⊢
    exact hab.trans hbc⟩
  have hsorted : (edits.insertionSort fun a b => ¬ KeyLt b.key a.key).Pairwise
      fun a b => a.key.pos ≤ b.key.pos :=
    (pairwise_insertionSort _ edits).imp fun hab => not_lt.mp (keyLt_iff.not.mp hab)
  obtain ⟨hstrict,hsub,hvalues,hpos⟩ := replaceEdits_ok hsorted hops
  simp only [mem_insertionSort] at hsub hvalues hpos
  obtain ⟨hnext,hmem⟩ :=
    applyEdits_spec (fun op hop => hplaced op (hsub op hop)) hstrict hdir
  refine ⟨hnext,fun d => ?_⟩
  rw [hmem]
  apply or_congr
  · constructor
    · rintro ⟨op,hop,hvalue⟩
      exact ⟨op,hsub op hop,hvalue⟩
    · rintro ⟨edit,hedit,hvalue⟩
      exact ⟨edit,hvalues edit hedit (hvalue ▸ rfl),hvalue⟩
  · apply and_congr_right
    intro _
    constructor
    · intro hfree edit hedit
      obtain ⟨op,hop,heq⟩ := hpos edit hedit
      rw [← heq]
      exact hfree op hop
    · exact fun hfree op hop => hfree op (hsub op hop)

end Zeppelin.GraphStore.Adjacency
