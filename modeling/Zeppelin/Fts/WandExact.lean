import Zeppelin.Fts.PruneSpec

namespace Zeppelin.Fts
open Collections Machine List

variable {R : Type} [AddCommGroup R] [LinearOrder R]

section Pivots
variable {cursors : List (TermCursor R)} {full : Bool} {threshold : R}

theorem mem_liveCursors {entry : ℕ × ℕ} : entry ∈ liveCursors cursors ↔
    ∃ c,cursors[entry.2]? = some c ∧ c.current = some entry.1 := by
  unfold liveCursors
  rw [mem_mergeSort,mem_filterMap]
  constructor
  · rintro ⟨⟨c,slot⟩,hmem,hentry⟩
    obtain ⟨row,hrow,rfl⟩ := Option.map_eq_some_iff.mp hentry
    exact ⟨c,mem_zipIdx_iff_getElem?.mp hmem,hrow⟩
  · rintro ⟨c,hget,hrow⟩
    exact ⟨(c,entry.2),mem_zipIdx_iff_getElem?.mpr hget,by simp [hrow]⟩

theorem liveCursors_sorted (cursors : List (TermCursor R)) :
    (liveCursors cursors).Pairwise fun a b => a.1 ≤ b.1 := by
  refine List.Pairwise.imp ?_ (pairwise_mergeSort ?_ ?_ _)
  · intro a b hab
    simp only [Bool.or_eq_true,Bool.and_eq_true,decide_eq_true_eq] at hab
    omega
  · intro a b c hab hbc
    simp only [Bool.or_eq_true,Bool.and_eq_true,decide_eq_true_eq] at hab hbc ⊢
    omega
  · intro a b
    simp only [Bool.or_eq_true,Bool.and_eq_true,decide_eq_true_eq]
    omega

theorem slots_sublist (cs : List (TermCursor R)) (start : ℕ) :
    ((cs.zipIdx start).filterMap fun entry => entry.1.current.map fun row => (row,entry.2)).map
      Prod.snd |>.Sublist (List.range' start cs.length) := by
  induction cs generalizing start with
  | nil => simp
  | cons c cs ih =>
    rw [zipIdx_cons,length_cons,range'_succ]
    cases hcurrent : c.current with
    | none =>
      rw [filterMap_cons_none (by simp [hcurrent])]
      exact (ih (start+1)).cons _
    | some row =>
      rw [filterMap_cons_some (b := (row,start)) (by simp [hcurrent]),map_cons]
      exact (ih (start+1)).cons_cons _

theorem liveCursors_slots (cursors : List (TermCursor R)) :
    ((liveCursors cursors).map Prod.snd).Nodup := by
  have hsub:=slots_sublist cursors 0
  have hperm : ((liveCursors cursors).map Prod.snd).Perm
      ((cursors.zipIdx.filterMap fun entry => entry.1.current.map fun row =>
        (row,entry.2)).map Prod.snd) := (mergeSort_perm _ _).map _
  exact hperm.nodup_iff.mpr (hsub.nodup nodup_range')

variable {live : List (ℕ × ℕ)} {position : ℕ} {accumulated : R}

theorem findPivot_none (h : findPivot cursors full threshold position accumulated live = none) :
    live = [] ∨ full = true ∧
      accumulated+(live.map fun entry => boundAt cursors entry.2).sum ≤ threshold := by
  induction live generalizing position accumulated with
  | nil => exact .inl rfl
  | cons entry rest ih =>
    rw [findPivot] at h
    split at h
    · cases h
    · rename_i hnot
      simp only [not_or,not_lt,Bool.not_eq_false] at hnot
      refine .inr ⟨hnot.2,?_⟩
      rw [map_cons,sum_cons,← add_assoc]
      rcases ih h with rfl | ⟨-,hsum⟩
      · simpa using hnot.1
      · exact hsum

theorem findPivot_some {p : ℕ} {acc : R}
    (h : findPivot cursors full threshold position accumulated live = some (p,acc)) :
    ∃ before entry after,live = before++entry::after ∧ p = position+before.length ∧
      (before = [] ∨ full = true ∧
        accumulated+(before.map fun entry => boundAt cursors entry.2).sum ≤ threshold) := by
  induction live generalizing position accumulated with
  | nil => cases h
  | cons first rest ih =>
    rw [findPivot] at h
    split at h
    · obtain ⟨rfl,-⟩ := Prod.mk.inj (Option.some.inj h)
      exact ⟨[],first,rest,rfl,rfl,.inl rfl⟩
    · rename_i hnot
      simp only [not_or,not_lt,Bool.not_eq_false] at hnot
      obtain ⟨before,entry,after,rfl,rfl,hbefore⟩ := ih h
      refine ⟨first::before,entry,after,rfl,by simp; omega,.inr ⟨hnot.2,?_⟩⟩
      rw [map_cons,sum_cons,← add_assoc]
      rcases hbefore with rfl | ⟨-,hsum⟩
      · simpa using hnot.1
      · exact hsum

end Pivots

def catchUp (target : ℕ) (cursors : List (TermCursor R)) : List (TermCursor R) :=
  cursors.map fun c => if c.current.any fun row => row < target then c.seek target else c

variable {α β : Type} {i : ℕ}

theorem foldl_modify (slot : β → ℕ) (keep : β → Prop) [DecidablePred keep]
    (f : α → α) (entries : List β) (hnodup : (entries.map slot).Nodup) (xs : List α) (i : ℕ) :
    (entries.foldl (fun xs entry => if keep entry then xs else xs.modify (slot entry) f) xs)[i]? =
      xs[i]?.map fun x => if ∃ entry ∈ entries,slot entry = i ∧ ¬ keep entry then f x else x := by
  induction entries generalizing xs with
  | nil => simp
  | cons entry entries ih =>
    rw [map_cons,nodup_cons] at hnodup
    rw [foldl_cons,ih hnodup.2]
    by_cases hslot : slot entry = i
    · -- the slot occurs once, so the rest leaves it alone
      have hrest : ¬ ∃ other ∈ entries,slot other = i ∧ ¬ keep other := by
        rintro ⟨other,hmem,hother,-⟩
        exact hnodup.1 (mem_map.mpr ⟨other,hmem,hother.trans hslot.symm⟩)
      by_cases hkeep : keep entry
      · simp [hkeep,hrest]
      · simp [hkeep,hrest,hslot]
        rfl
    · by_cases hkeep : keep entry
      · simp [hkeep]
      · simp [hkeep,hslot]

theorem forall₂_get {r : α → β → Prop} {xs : List α} {ys : List β} (h : List.Forall₂ r xs ys) :
    (∀ x,xs[i]? = some x → ∃ y,ys[i]? = some y ∧ r x y) ∧
      ∀ y,ys[i]? = some y → ∃ x,xs[i]? = some x ∧ r x y := by
  induction h generalizing i with
  | nil => simp
  | cons hxy _ ih =>
    cases i with
    | zero => simp [hxy]
    | succ i => simpa using ih

theorem forall₂_set {r : α → β → Prop} {xs : List α} {ys : List β}
    (h : List.Forall₂ r xs ys) {x : α} (hnew : ∀ y,ys[i]? = some y → r x y) :
    List.Forall₂ r (xs.set i x) ys := by
  induction h generalizing i with
  | nil => exact .nil
  | cons hxy hrest ih =>
    cases i with
    | zero => exact .cons (hnew _ rfl) hrest
    | succ i => exact .cons hxy (ih fun y hy => hnew y hy)

/-- No cursor has a row below `bound`, and each has every row of its plan from there on. -/
def Ready (fields : List (FieldId × List ℕ)) (rowCount : ℕ) (lengths : List ℕ)
    (plans : List (TermPlan R)) (bound : ℕ) (cursors : List (TermCursor R)) : Prop :=
  List.Forall₂ (fun c t => Follows fields rowCount lengths bound c t ∧ Caught bound c) cursors plans

section Turns
variable {fields : List (FieldId × List ℕ)} {rowCount : ℕ} {lengths : List ℕ}
  {plans : List (TermPlan R)} {bound target : ℕ} {cursors : List (TermCursor R)}

theorem boundAt_eq_upperAt
    (h : List.Forall₂ (Follows fields rowCount lengths bound) cursors plans) (slot : ℕ) :
    boundAt cursors slot = upperAt plans slot := by
  unfold boundAt upperAt
  cases hget : cursors[slot]? with
  | none =>
    cases hplan : plans[slot]? with
    | none => rfl
    | some t =>
      obtain ⟨c,hc,-⟩ := (forall₂_get h).2 t hplan
      rw [hget] at hc
      cases hc
  | some c =>
    obtain ⟨t,ht,hfollows⟩ := (forall₂_get h).1 c hget
    rw [ht,Option.map_some,Option.getD_some,Option.elim_some,hfollows.upper]

theorem Ready.boundAt_eq (h : Ready fields rowCount lengths plans bound cursors) (slot : ℕ) :
    boundAt cursors slot = upperAt plans slot :=
  boundAt_eq_upperAt (h.imp fun _ _ hct => hct.1) slot

theorem Ready.catchUp_ready (h : Ready fields rowCount lengths plans bound cursors) (hle : bound ≤ target) :
    Ready fields rowCount lengths plans target (catchUp target cursors) := by
  unfold Ready catchUp
  rw [forall₂_map_left_iff]
  refine h.imp fun c t hc => ?_
  split
  · exact ⟨hc.1.seek hle,hc.1.caught_seek target⟩
  · rename_i hcurrent
    refine ⟨hc.1.mono hle,hc.1.caught_of_head fun r hr => ?_⟩
    rw [hr] at hcurrent
    simpa using hcurrent

theorem Ready.mem (h : Ready fields rowCount lengths plans bound cursors) {c : TermCursor R}
    (hc : c ∈ cursors) : ∃ t,Follows fields rowCount lengths bound c t ∧ Caught bound c := by
  obtain ⟨i,hi⟩ := getElem?_of_mem hc
  obtain ⟨t,-,ht⟩ := (forall₂_get h).1 c hi
  exact ⟨t,ht⟩

theorem Ready.left_catchUp (h : Ready fields rowCount lengths plans bound cursors)
    {c : TermCursor R} {row : ℕ} (hc : c ∈ cursors) (hcurrent : c.current = some row)
    (hlt : row < target) : cursorsLeft (catchUp target cursors) < cursorsLeft cursors := by
  unfold cursorsLeft catchUp
  rw [map_map]
  refine sum_lt_sum _ _ (fun c hc => ?_) ⟨c,hc,?_⟩
  · obtain ⟨t,hfollows,-⟩ := h.mem hc
    rw [Function.comp_apply]
    split
    · exact (hfollows.wf.seek target).2.2
    · exact le_rfl
  · obtain ⟨t,hfollows,-⟩ := h.mem hc
    rw [Function.comp_apply,if_pos (by simpa [hcurrent] using hlt)]
    exact hfollows.wf.seek_lt hcurrent hlt

theorem Ready.live_of_tf (h : Ready fields rowCount lengths plans bound cursors) {row i : ℕ}
    {t : TermPlan R} (hrow : bound ≤ row) (ht : plans[i]? = some t) (htf : t.tf row ≠ 0) :
    ∃ head,(head,i) ∈ liveCursors cursors ∧ head ≤ row := by
  obtain ⟨c,hc,hfollows,-⟩ := (forall₂_get h).2 t ht
  rw [← hfollows.tf row hrow] at htf
  obtain ⟨head,hhead,hle⟩ := hfollows.wf.head_le htf
  exact ⟨head,mem_liveCursors.mpr ⟨c,hc,hhead⟩,hle⟩

theorem Ready.sum_boundAt (h : Ready fields rowCount lengths plans bound cursors)
    (entries : List (ℕ × ℕ)) : (entries.map fun entry => boundAt cursors entry.2).sum =
      ((entries.map Prod.snd).map (upperAt plans)).sum := by
  rw [map_map]
  congr 2
  funext entry
  exact h.boundAt_eq entry.2

section Heap
variable {segment : ℕ} {allowed : ℕ → Bool} {heap : TopK R}
  [IsOrderedAddMonoid R] (hbounded : ∀ t ∈ plans,t.Bounded lengths)
  (hbefore : Before segment 0 heap)
include hbounded hbefore

theorem offered_pivot (h : Ready fields rowCount lengths plans bound cursors)
    {before after : List (ℕ × ℕ)} {pivot : ℕ × ℕ}
    (hlive : liveCursors cursors = before++pivot::after)
    (hsum : before = [] ∨ (offered lengths segment allowed plans heap bound).isFull = true ∧
      (before.map fun entry => boundAt cursors entry.2).sum ≤
        (offered lengths segment allowed plans heap bound).threshold)
    (hle : bound ≤ pivot.1) :
    offered lengths segment allowed plans heap pivot.1 =
      offered lengths segment allowed plans heap bound := by
  refine offered_covered hbounded hbefore hle (before.map Prod.snd) ?_ ?_
  · -- a term of the row has its cursor before the pivot
    intro row hrow hlt i t ht htf
    obtain ⟨head,hmem,hhead⟩ := h.live_of_tf hrow ht htf
    have hsorted:=liveCursors_sorted cursors
    rw [hlive] at hmem hsorted
    rcases mem_append.mp hmem with hmem | hmem
    · exact mem_map.mpr ⟨(head,i),hmem,rfl⟩
    · have hge : pivot.1 ≤ head := by
        rcases mem_cons.mp hmem with heq | hmem
        · rw [← heq]
        · exact (pairwise_cons.mp (pairwise_append.mp hsorted).2.1).1 _ hmem
      omega
  · rcases hsum with rfl | ⟨hfull,hsum⟩
    · exact .inl rfl
    · exact .inr ⟨hfull,by rwa [← h.sum_boundAt]⟩

theorem offered_end (h : Ready fields rowCount lengths plans bound cursors)
    (hnone : liveCursors cursors = [] ∨
      (offered lengths segment allowed plans heap bound).isFull = true ∧
      ((liveCursors cursors).map fun entry => boundAt cursors entry.2).sum ≤
        (offered lengths segment allowed plans heap bound).threshold)
    {last : ℕ} (hle : bound ≤ last) :
    offered lengths segment allowed plans heap last =
      offered lengths segment allowed plans heap bound := by
  refine offered_covered hbounded hbefore hle ((liveCursors cursors).map Prod.snd) ?_ ?_
  · intro row hrow _ i t ht htf
    obtain ⟨head,hmem,-⟩ := h.live_of_tf hrow ht htf
    exact mem_map.mpr ⟨(head,i),hmem,rfl⟩
  · rcases hnone with hnil | ⟨hfull,hsum⟩
    · exact .inl (by rw [hnil]; rfl)
    · exact .inr ⟨hfull,by rwa [← h.sum_boundAt]⟩

end Heap

variable [IsOrderedAddMonoid R] in
theorem Ready.rowScore_le_spanBound (h : Ready fields rowCount lengths plans bound cursors) {row : ℕ}
    (hbound : bound ≤ target) (hrow : target ≤ row)
    (hedge : ∀ e,spanEdge cursors target = some e → row ≤ e) :
    rowScore lengths plans row ≤ spanBound cursors target := by
  have hhorizon : ∀ c ∈ cursors,c.stream.exhausted = false → ∀ e,
      c.stream.boundHorizonFor target = some e → row ≤ e := by
    intro c hc hlive e he
    have hmem : some e ∈ cursors.map fun c =>
        if c.stream.exhausted then none else c.stream.boundHorizonFor target :=
      mem_map.mpr ⟨c,hc,by simp [hlive,he]⟩
    cases hspan : spanEdge cursors target with
    | none => exact absurd hmem (((foldl_minRow _ none).2 hspan).2 e)
    | some edge =>
      exact (hedge edge hspan).trans (((foldl_minRow _ none).1 edge hspan).2.2 e hmem)
  unfold rowScore spanBound
  refine List.Forall₂.sum_le_sum ?_
  rw [forall₂_map_left_iff,forall₂_map_right_iff]
  have hboth:=(forall₂_and_left _ _).mpr ⟨hhorizon,h⟩
  refine (hboth.imp fun c t hct => ?_).flip
  obtain ⟨hhorizon,hfollows,-⟩ := hct
  change t.score lengths row ≤ if c.stream.exhausted then 0 else c.stream.boundFor target c.scorer
  rw [TermPlan.score,← hfollows.tf row (hbound.trans hrow),← hfollows.scorer]
  cases hlive : c.stream.exhausted with
  | true =>
    have hhead : c.stream.head = none := by simpa [TermStream.exhausted] using hlive
    rw [hfollows.wf.tf_none hhead,TermScorer.absent,if_pos rfl]
  | false =>
    rw [if_neg Bool.false_ne_true]
    exact hfollows.wf.boundFor_dominates hrow (hhorizon hlive)

variable [IsOrderedAddMonoid R] in
theorem Ready.condemn_spec (h : Ready fields rowCount lengths plans bound cursors) (threshold : R)
    (hbound : bound ≤ target) : target ≤ condemn cursors threshold target ∧
      ∀ row,target ≤ row → row < condemn cursors threshold target →
        rowScore lengths plans row ≤ threshold := by
  fun_induction condemn cursors threshold target with
  | case1 target hexceeds => exact ⟨le_rfl,fun row h₁ h₂ => absurd h₂ (by omega)⟩
  | case2 target hwithin hnone => exact ⟨le_rfl,fun row h₁ h₂ => absurd h₂ (by omega)⟩
  | case3 target hwithin edge hedge hstuck =>
    exact ⟨le_rfl,fun row h₁ h₂ => absurd h₂ (by omega)⟩
  | case4 target hwithin edge hedge hmoves ih =>
    obtain ⟨hle,hrest⟩ := ih (by omega)
    refine ⟨by omega,fun row hrow hlt => ?_⟩
    by_cases hspan : row < min (edge+1) u32Max
    · refine (h.rowScore_le_spanBound hbound hrow fun e he => ?_).trans (not_lt.mp hwithin)
      rw [hedge] at he
      obtain rfl := Option.some.inj he
      omega
    · exact hrest row (by omega) hlt

theorem catchUp_trailing {before after : List (ℕ × ℕ)} {pivot : ℕ × ℕ}
    (hlive : liveCursors cursors = before++pivot::after) :
    ((liveCursors cursors).take (before.length+1)).foldl (fun cursors entry =>
      if pivot.1 ≤ entry.1 then cursors else cursors.modify entry.2 (TermCursor.seek pivot.1))
      cursors = catchUp pivot.1 cursors := by
  have htake : (liveCursors cursors).take (before.length+1) = before++[pivot] := by
    rw [hlive]
    simp [List.take_append]
  have hslots : ((before++[pivot]).map Prod.snd).Nodup := by
    have hnodup:=liveCursors_slots cursors
    rw [← htake,map_take]
    exact hnodup.sublist (take_sublist _ _)
  have hsorted:=liveCursors_sorted cursors
  rw [htake]
  refine ext_getElem? fun i => ?_
  rw [foldl_modify Prod.snd (fun entry : ℕ × ℕ => pivot.1 ≤ entry.1) (TermCursor.seek pivot.1) _
    hslots,catchUp,getElem?_map]
  cases hget : cursors[i]? with
  | none => rfl
  | some c =>
    rw [Option.map_some,Option.map_some]
    congr 1
    by_cases hbehind : (c.current.any fun row => decide (row < pivot.1)) = true
    · rw [if_pos hbehind,if_pos]
      obtain ⟨row,hrow,hlt⟩ := Option.any_eq_true _ _ |>.mp hbehind
      rw [decide_eq_true_eq] at hlt
      have hmem : (row,i) ∈ liveCursors cursors := mem_liveCursors.mpr ⟨c,hget,hrow⟩
      refine ⟨(row,i),?_,rfl,by simpa using hlt⟩
      rw [hlive] at hmem hsorted
      rcases mem_append.mp hmem with hmem | hmem
      · exact mem_append_left _ hmem
      · rcases mem_cons.mp hmem with heq | hmem
        · simp [heq]
        · have hge:=(pairwise_cons.mp (pairwise_append.mp hsorted).2.1).1 _ hmem
          simp only at hge
          omega
    · rw [if_neg hbehind,if_neg]
      rintro ⟨entry,hentry,rfl,hlt⟩
      have hmem : entry ∈ liveCursors cursors := by
        rw [← htake] at hentry
        exact mem_of_mem_take hentry
      obtain ⟨c',hc',hcurrent⟩ := mem_liveCursors.mp hmem
      obtain rfl := Option.some.inj (hget.symm.trans hc')
      exact hbehind (by simpa [hcurrent] using hlt)

section Loop
variable {segment : ℕ} {allowed : ℕ → Bool} {heap : TopK R}

def WandInv (fields : List (FieldId × List ℕ)) (rowCount : ℕ) (lengths : List ℕ)
    (plans : List (TermPlan R)) (segment : ℕ) (allowed : ℕ → Bool) (heap : TopK R)
    (state : PruneState R) : Prop :=
  ∃ bound,Ready fields rowCount lengths plans bound state.1 ∧
    state.2 = offered lengths segment allowed plans heap bound

variable [IsOrderedAddMonoid R]
variable (hbounded : ∀ t ∈ plans,t.Bounded lengths) (hbefore : Before segment 0 heap)
include hbounded hbefore

theorem wandPivot_inv {state : PruneState R} {bound : ℕ} {accumulated : R}
    (hready : Ready fields rowCount lengths plans bound state.1)
    (hheap : state.2 = offered lengths segment allowed plans heap bound)
    {before after : List (ℕ × ℕ)} {pivot first : ℕ × ℕ}
    (hlive : liveCursors state.1 = before++pivot::after)
    (hfirst : (liveCursors state.1).head? = some first)
    (hsum : before = [] ∨ state.2.isFull = true ∧
      (before.map fun entry => boundAt state.1 entry.2).sum ≤ state.2.threshold) :
    WandInv fields rowCount lengths plans segment allowed heap
        (wandPivot lengths segment allowed state before.length accumulated pivot.1 first.1) ∧
      cursorsLeft (wandPivot lengths segment allowed state before.length accumulated pivot.1
        first.1).1 < cursorsLeft state.1 := by
  have hfirstMem : first ∈ liveCursors state.1 := mem_of_head? hfirst
  obtain ⟨c₀,hc₀,hcurrent₀⟩ := mem_liveCursors.mp hfirstMem
  have hsorted:=liveCursors_sorted state.1
  -- the first live row is the least
  have hleast : ∀ entry ∈ liveCursors state.1,first.1 ≤ entry.1 := by
    intro entry hentry
    obtain ⟨rest,hrest⟩ : ∃ rest,liveCursors state.1 = first::rest := by
      cases hlist : liveCursors state.1 with
      | nil => simp [hlist] at hfirst
      | cons a rest =>
        rw [hlist] at hfirst
        exact ⟨rest,by rw [Option.some.inj hfirst]⟩
    rw [hrest] at hentry hsorted
    rcases mem_cons.mp hentry with rfl | hentry
    · exact le_rfl
    · exact (pairwise_cons.mp hsorted).1 entry hentry
  have hpivotMem : pivot ∈ liveCursors state.1 := by simp [hlive]
  obtain ⟨tPivot,htPivot,hfollows₀,hcaught₀⟩ := (forall₂_get hready).1 c₀ hc₀
  have hboundFirst : bound ≤ first.1 := hfollows₀.head_ge hcaught₀ hcurrent₀
  have hboundPivot : bound ≤ pivot.1 := hboundFirst.trans (hleast pivot hpivotMem)
  have hpivot : offered lengths segment allowed plans heap pivot.1 = state.2 := by
    rw [hheap]
    refine offered_pivot hbounded hbefore hready hlive ?_ hboundPivot
    rwa [← hheap]
  have hmem₀ : c₀ ∈ state.1 := mem_of_getElem? hc₀
  unfold wandPivot
  split
  · rename_i hcondemned
    obtain ⟨hfull,hsame,-,hmoved⟩ := hcondemned
    obtain ⟨hle,hrows⟩ := hready.condemn_spec state.2.threshold hboundPivot
    refine ⟨⟨_,hready.catchUp_ready (hboundPivot.trans hle),?_⟩,
      hready.left_catchUp hmem₀ hcurrent₀ (by omega)⟩
    rw [offered_skip hle hbefore fun row hrow hlt _ => ?_,hpivot]
    rw [hpivot]
    exact ⟨hfull,hrows row hrow hlt⟩
  · split
    · rename_i hsame
      have hcaught : ∀ c ∈ state.1,Caught pivot.1 c := by
        intro c hc
        obtain ⟨t,hfollows,-⟩ := hready.mem hc
        refine hfollows.caught_of_head fun r hr => ?_
        obtain ⟨i,hi⟩ := getElem?_of_mem hc
        exact hsame ▸ hleast (r,i) (mem_liveCursors.mpr ⟨c,hi,hr⟩)
      have hboth:=(forall₂_and_left _ _).mpr ⟨hcaught,hready⟩
      refine ⟨⟨pivot.1+1,?_,?_⟩,?_⟩
      · unfold Ready
        rw [forall₂_map_left_iff]
        refine hboth.imp fun c t hct => ?_
        exact ⟨hct.2.1.advanceFrom (by omega),hct.2.1.caught_advanceFrom hct.1⟩
      · have hmatch : matchesRow plans pivot.1 = true := by
          have htf : tPivot.tf pivot.1 ≠ 0 := by
            rw [← hfollows₀.tf _ hboundPivot,← hsame]
            exact (hfollows₀.wf.head_pos _ hcurrent₀).ne'
          exact any_eq_true.mpr ⟨tPivot,mem_of_getElem? htPivot,by simpa using htf⟩
        have hscore : (state.1.map (TermCursor.contribution lengths pivot.1)).sum =
            rowScore lengths plans pivot.1 := by
          unfold rowScore
          congr 1
          rw [← forall₂_eq_eq_eq,forall₂_map_left_iff,forall₂_map_right_iff]
          exact hboth.imp fun c t hct => hct.2.1.contribution hboundPivot hct.1
        rw [offered_succ,if_pos hmatch,hpivot,hscore]
      · unfold cursorsLeft
        rw [map_map]
        refine sum_lt_sum _ _ (fun c hc => ?_) ⟨c₀,hmem₀,?_⟩
        · obtain ⟨t,hfollows,-⟩ := hready.mem hc
          exact left_advanceFrom_le hfollows pivot.1
        · rw [Function.comp_apply,TermCursor.advanceFrom,if_pos (hsame ▸ hcurrent₀)]
          exact (hfollows₀.wf.advance hcurrent₀).2.2
    · rename_i hdiffer
      have hlt : first.1 < pivot.1 := lt_of_le_of_ne (hleast pivot hpivotMem) hdiffer
      rw [catchUp_trailing hlive]
      exact ⟨⟨pivot.1,hready.catchUp_ready hboundPivot,hpivot.symm⟩,
        hready.left_catchUp hmem₀ hcurrent₀ hlt⟩

theorem wandStep_next {state next : PruneState R}
    (h : WandInv fields rowCount lengths plans segment allowed heap state)
    (hstep : wandStep lengths segment allowed state = .next next) :
    WandInv fields rowCount lengths plans segment allowed heap next ∧
      cursorsLeft next.1 < cursorsLeft state.1 := by
  obtain ⟨bound,hready,hheap⟩ := h
  unfold wandStep at hstep
  split at hstep
  · cases hstep
  · rename_i position accumulated hpivot
    obtain ⟨before,pivot,after,hlive,hposition,hsum⟩ := findPivot_some hpivot
    rw [Nat.zero_add] at hposition
    subst hposition
    rw [zero_add] at hsum
    have hget : (liveCursors state.1)[before.length]? = some pivot := by
      rw [hlive,getElem?_append_right le_rfl]
      simp
    rw [hget] at hstep
    cases hfirst : (liveCursors state.1).head? with
    | none =>
      rw [hfirst] at hstep
      cases hstep
    | some first =>
      rw [hfirst] at hstep
      obtain rfl := Flow.next.inj hstep
      exact wandPivot_inv hbounded hbefore hready hheap hlive hfirst hsum

theorem wandStep_stop {state last : PruneState R}
    (h : WandInv fields rowCount lengths plans segment allowed heap state)
    (hstep : wandStep lengths segment allowed state = .stop last) :
    ∃ bound,last.2 = offered lengths segment allowed plans heap bound ∧
      ∀ row,bound ≤ row → offered lengths segment allowed plans heap row = last.2 := by
  obtain ⟨bound,hready,hheap⟩ := h
  unfold wandStep at hstep
  split at hstep
  · rename_i hnone
    obtain rfl := Flow.stop.inj hstep
    refine ⟨bound,hheap,fun row hrow => ?_⟩
    rw [hheap]
    refine offered_end hbounded hbefore hready ?_ hrow
    rw [← hheap]
    rcases findPivot_none hnone with hnil | ⟨hfull,hsum⟩
    · exact .inl hnil
    · rw [zero_add] at hsum
      exact .inr ⟨hfull,hsum⟩
  · rename_i position accumulated hpivot
    obtain ⟨before,pivot,after,hlive,hposition,-⟩ := findPivot_some hpivot
    rw [Nat.zero_add] at hposition
    subst hposition
    have hget : (liveCursors state.1)[before.length]? = some pivot := by
      rw [hlive,getElem?_append_right le_rfl]
      simp
    rw [hget] at hstep
    cases hfirst : (liveCursors state.1).head? with
    | none =>
      rw [hlive] at hfirst
      simp at hfirst
    | some first =>
      rw [hfirst] at hstep
      cases hstep

end Loop

end Turns

end Zeppelin.Fts
