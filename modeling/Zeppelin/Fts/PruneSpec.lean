import Mathlib.Algebra.BigOperators.Intervals
import Zeppelin.Fts.Prune

namespace Zeppelin.Fts
open Collections List

variable {R : Type} [AddCommGroup R] [LinearOrder R]

structure TermPlan (R : Type) [Zero R] [LE R] where
  tf : ℕ → ℕ
  scorer : TermScorer R
  upper : R

namespace TermPlan

def score (lengths : List ℕ) (row : ℕ) (t : TermPlan R) : R :=
  t.scorer.score (t.tf row) (lengthOf lengths row)

def Bounded (lengths : List ℕ) (t : TermPlan R) : Prop := ∀ row,t.score lengths row ≤ t.upper

theorem score_nonneg (lengths : List ℕ) (row : ℕ) (t : TermPlan R) : 0 ≤ t.score lengths row :=
  t.scorer.nonneg _ _

theorem score_of_zero {lengths : List ℕ} {row : ℕ} {t : TermPlan R} (h : t.tf row = 0) :
    t.score lengths row = 0 := by
  rw [score,h,t.scorer.absent]

theorem Bounded.nonneg {lengths : List ℕ} {t : TermPlan R} (h : t.Bounded lengths) : 0 ≤ t.upper :=
  (t.score_nonneg lengths 0).trans (h 0)

end TermPlan

def rowScore (lengths : List ℕ) (plans : List (TermPlan R)) (row : ℕ) : R :=
  (plans.map (TermPlan.score lengths row)).sum

def matchesRow (plans : List (TermPlan R)) (row : ℕ) : Bool := plans.any fun t => t.tf row ≠ 0

/-- Every matching row below `bound`, offered in ascending order. -/
def offered (lengths : List ℕ) (segment : ℕ) (allowed : ℕ → Bool) (plans : List (TermPlan R))
    (heap : TopK R) (bound : ℕ) : TopK R :=
  ((List.range bound).filter (matchesRow plans)).foldl
    (fun heap row => offerRow segment allowed heap row (rowScore lengths plans row)) heap

section Offers
variable {lengths : List ℕ} {segment : ℕ} {allowed : ℕ → Bool} {plans : List (TermPlan R)}
  {heap : TopK R} {bound : ℕ}

theorem offered_succ : offered lengths segment allowed plans heap (bound+1) =
    if matchesRow plans bound then
      offerRow segment allowed (offered lengths segment allowed plans heap bound) bound
        (rowScore lengths plans bound)
    else offered lengths segment allowed plans heap bound := by
  unfold offered
  rw [range_succ,filter_append,foldl_append]
  split
  · rename_i hmatch
    rw [filter_cons_of_pos hmatch]
    rfl
  · rename_i hmatch
    rw [filter_cons_of_neg hmatch]
    rfl

omit [AddCommGroup R] in
theorem offerRow_capacity (heap : TopK R) (row : ℕ) (score : R) :
    (offerRow segment allowed heap row score).capacity = heap.capacity := by
  unfold offerRow
  split <;> rfl

theorem offered_capacity :
    (offered lengths segment allowed plans heap bound).capacity = heap.capacity := by
  induction bound with
  | zero => rfl
  | succ bound ih =>
    rw [offered_succ]
    split
    · rw [offerRow_capacity,ih]
    · exact ih

theorem mem_offerTop {α : Type} [LinearOrder α] {capacity : ℕ} {xs : List α} {x y : α}
    (h : y ∈ offerTop capacity xs x) : y = x ∨ y ∈ xs := by
  unfold offerTop at h
  split at h
  · exact .inr h
  · split at h
    · exact .inr h
    · rcases eq_or_mem_of_mem_insertIdx (mem_of_mem_take h) with h | h
      · exact .inl h
      · exact .inr h

/-- The documents of a ranking come before the rows from `bound` on. -/
def Before (segment bound : ℕ) (heap : TopK R) : Prop :=
  ∀ e ∈ heap.entries,e.doc.segment < segment ∨ e.doc.segment = segment ∧ e.doc.row < bound

omit [AddCommGroup R] in
theorem Before.offerRow (h : Before segment bound heap) (score : R) :
    Before segment (bound+1) (offerRow segment allowed heap bound score) := by
  intro e he
  unfold Fts.offerRow at he
  split at he
  · rcases mem_offerTop he with rfl | he
    · exact .inr ⟨rfl,Nat.lt_succ_self _⟩
    · rcases h e he with h | h
      · exact .inl h
      · exact .inr ⟨h.1,by omega⟩
  · rcases h e he with h | h
    · exact .inl h
    · exact .inr ⟨h.1,by omega⟩

omit [AddCommGroup R] [LinearOrder R] in
theorem Before.mono {bound' : ℕ} (h : Before segment bound heap) (hle : bound ≤ bound') :
    Before segment bound' heap := by
  intro e he
  rcases h e he with h | h
  · exact .inl h
  · exact .inr ⟨h.1,by omega⟩

theorem Before.offered (h : Before segment 0 heap) :
    Before segment bound (offered lengths segment allowed plans heap bound) := by
  induction bound with
  | zero => exact h
  | succ bound ih =>
    rw [offered_succ]
    split
    · exact ih.offerRow _
    · exact ih.mono (Nat.le_succ _)

omit [AddCommGroup R] in
theorem le_of_score_le {d e : ScoredDoc R} (hscore : e.score ≤ d.score)
    (hdoc : d.doc.segment < e.doc.segment ∨
      d.doc.segment = e.doc.segment ∧ d.doc.row ≤ e.doc.row) : d ≤ e := by
  change rankKey d ≤ rankKey e
  rw [rankKey,rankKey,Prod.Lex.toLex_le_toLex]
  rcases lt_or_eq_of_le hscore with hlt | heq
  · exact .inl (OrderDual.toDual_lt_toDual.mpr hlt)
  · refine .inr ⟨congrArg OrderDual.toDual heq.symm,?_⟩
    rw [Prod.Lex.toLex_le_toLex]
    exact hdoc

theorem offerRow_of_le {row : ℕ} {score : R} (hbefore : Before segment row heap)
    (hfull : heap.isFull = true) (hscore : score ≤ heap.threshold) :
    offerRow segment allowed heap row score = heap := by
  have hlen : heap.capacity ≤ heap.entries.length := by simpa [TopK.isFull] using hfull
  unfold offerRow
  split
  · have hentries : offerTop heap.capacity heap.entries ⟨⟨segment,row⟩,score⟩ = heap.entries := by
      refine offerTop_of_le hlen fun last hlast => le_of_score_le ?_ ?_
      · rw [TopK.threshold,if_neg (by omega),Option.mem_def.mp hlast] at hscore
        exact hscore
      · rcases hbefore last (mem_of_getLast? hlast) with h | h
        · exact .inl h
        · exact .inr ⟨h.1,h.2.le⟩
    simp only [TopK.offer,hentries]
  · rfl

theorem offered_skip {bound' : ℕ} (hle : bound ≤ bound') (hbefore : Before segment 0 heap)
    (hskip : ∀ row,bound ≤ row → row < bound' → matchesRow plans row = true →
      (offered lengths segment allowed plans heap bound).isFull = true ∧
        rowScore lengths plans row ≤
          (offered lengths segment allowed plans heap bound).threshold) :
    offered lengths segment allowed plans heap bound' =
      offered lengths segment allowed plans heap bound := by
  induction bound',hle using Nat.le_induction with
  | base => rfl
  | succ bound' hle ih =>
    have hsame:=ih fun row hrow hlt => hskip row hrow (by omega)
    rw [offered_succ]
    split
    · rename_i hmatch
      obtain ⟨hfull,hscore⟩ := hskip bound' hle (Nat.lt_succ_self _) hmatch
      have hearlier : Before segment bound' (offered lengths segment allowed plans heap bound') :=
        hbefore.offered
      rw [hsame] at hearlier ⊢
      exact offerRow_of_le hearlier hfull hscore
    · exact hsame

end Offers

section Sums

omit [LinearOrder R] in
theorem sum_map_eq_range {α : Type} (f : α → R) (xs : List α) :
    (xs.map f).sum = ∑ i ∈ Finset.range xs.length,xs[i]?.elim 0 f := by
  induction xs with
  | nil => rfl
  | cons x xs ih =>
    rw [map_cons,sum_cons,length_cons,Finset.sum_range_succ',ih,add_comm]
    simp

variable [IsOrderedAddMonoid R]

theorem sum_toFinset_le (f : ℕ → R) (hnonneg : ∀ i,0 ≤ f i) (slots : List ℕ) :
    ∑ i ∈ slots.toFinset,f i ≤ (slots.map f).sum := by
  induction slots with
  | nil => simp
  | cons slot slots ih =>
    rw [toFinset_cons,map_cons,sum_cons]
    by_cases hmem : slot ∈ slots.toFinset
    · rw [Finset.insert_eq_of_mem hmem]
      exact ih.trans (le_add_of_nonneg_left (hnonneg slot))
    · rw [Finset.sum_insert hmem]
      exact add_le_add_right ih _

def upperAt (plans : List (TermPlan R)) (slot : ℕ) : R := plans[slot]?.elim 0 TermPlan.upper

theorem rowScore_le_slots {lengths : List ℕ} {plans : List (TermPlan R)} {row : ℕ}
    (hbounded : ∀ t ∈ plans,t.Bounded lengths) (slots : List ℕ)
    (hcover : ∀ i t,plans[i]? = some t → t.tf row ≠ 0 → i ∈ slots) :
    rowScore lengths plans row ≤ (slots.map (upperAt plans)).sum := by
  have hupper : ∀ i,0 ≤ upperAt plans i := by
    intro i
    unfold upperAt
    cases hget : plans[i]? with
    | none => exact le_rfl
    | some t => exact (hbounded t (mem_of_getElem? hget)).nonneg
  rw [rowScore,sum_map_eq_range]
  calc ∑ i ∈ Finset.range plans.length,plans[i]?.elim 0 (TermPlan.score lengths row)
      ≤ ∑ i ∈ (Finset.range plans.length).filter (· ∈ slots),upperAt plans i := by
        rw [Finset.sum_filter]
        refine Finset.sum_le_sum fun i _ => ?_
        cases hget : plans[i]? with
        | none =>
          rw [Option.elim_none]
          split
          · exact hupper i
          · exact le_rfl
        | some t =>
          rw [Option.elim_some]
          by_cases htf : t.tf row = 0
          · rw [TermPlan.score_of_zero htf]
            split
            · exact hupper i
            · exact le_rfl
          · rw [if_pos (hcover i t hget htf),upperAt,hget]
            exact hbounded t (mem_of_getElem? hget) row
    _ ≤ ∑ i ∈ slots.toFinset,upperAt plans i := by
        refine Finset.sum_le_sum_of_subset_of_nonneg ?_ fun i _ _ => hupper i
        intro i hi
        exact mem_toFinset.mpr (Finset.mem_filter.mp hi).2
    _ ≤ (slots.map (upperAt plans)).sum := sum_toFinset_le _ hupper slots

theorem offered_covered {lengths : List ℕ} {plans : List (TermPlan R)} {segment bound last : ℕ}
    {allowed : ℕ → Bool} {heap : TopK R} (hbounded : ∀ t ∈ plans,t.Bounded lengths)
    (hbefore : Before segment 0 heap) (hle : bound ≤ last) (slots : List ℕ)
    (hcover : ∀ row,bound ≤ row → row < last → ∀ i t,plans[i]? = some t → t.tf row ≠ 0 → i ∈ slots)
    (hsum : slots = [] ∨ (offered lengths segment allowed plans heap bound).isFull = true ∧
      (slots.map (upperAt plans)).sum ≤
        (offered lengths segment allowed plans heap bound).threshold) :
    offered lengths segment allowed plans heap last =
      offered lengths segment allowed plans heap bound := by
  refine offered_skip hle hbefore fun row hrow hlt hmatch => ?_
  have hrowCover:=hcover row hrow hlt
  rcases hsum with rfl | ⟨hfull,hsum⟩
  · obtain ⟨t,ht,htf⟩ := any_eq_true.mp hmatch
    obtain ⟨i,hi⟩ := getElem?_of_mem ht
    exact absurd (hrowCover i t hi (by simpa using htf)) (by simp)
  · exact ⟨hfull,(rowScore_le_slots hbounded _ hrowCover).trans hsum⟩

end Sums

section Cursors
variable {fields : List (FieldId × List ℕ)} {rowCount : ℕ} {lengths : List ℕ} {bound row : ℕ}
  {c : TermCursor R} {t : TermPlan R}

/-- The cursor has every row of its plan left from `bound` on. -/
structure Follows (fields : List (FieldId × List ℕ)) (rowCount : ℕ) (lengths : List ℕ) (bound : ℕ)
    (c : TermCursor R) (t : TermPlan R) : Prop where
  wf : StreamWf fields rowCount (lengthOf lengths) c.stream
  scorer : c.scorer = t.scorer
  upper : c.upperBound = t.upper
  tf : ∀ r,bound ≤ r → c.stream.tf r = t.tf r

/-- The cursor has no row left below `bound`. -/
def Caught (bound : ℕ) (c : TermCursor R) : Prop := ∀ r < bound,c.stream.tf r = 0

theorem Follows.mono (h : Follows fields rowCount lengths bound c t) {bound' : ℕ}
    (hle : bound ≤ bound') : Follows fields rowCount lengths bound' c t :=
  ⟨h.wf,h.scorer,h.upper,fun r hr => h.tf r (hle.trans hr)⟩

theorem Follows.seek (h : Follows fields rowCount lengths bound c t) (hle : bound ≤ row) :
    Follows fields rowCount lengths row (c.seek row) t := by
  obtain ⟨hwf,htf,-⟩ := h.wf.seek row
  refine ⟨hwf,h.scorer,h.upper,fun r hr => ?_⟩
  rw [TermCursor.seek,htf,if_neg (by omega),h.tf r (by omega)]

theorem Follows.caught_seek (h : Follows fields rowCount lengths bound c t) (row : ℕ) :
    Caught row (c.seek row) := by
  intro r hr
  rw [TermCursor.seek,(h.wf.seek row).2.1,if_pos hr]

theorem Follows.head_ge (h : Follows fields rowCount lengths bound c t) (hcaught : Caught row c)
    {r : ℕ} (hcurrent : c.current = some r) : row ≤ r := by
  by_contra hlt
  have hpos:=h.wf.head_pos r hcurrent
  rw [hcaught r (by omega)] at hpos
  exact absurd hpos (lt_irrefl 0)

theorem Follows.caught_of_head (h : Follows fields rowCount lengths bound c t)
    (hhead : ∀ r,c.current = some r → row ≤ r) : Caught row c := by
  intro r hr
  by_contra hne
  obtain ⟨head,hhead',hle⟩ := h.wf.head_le hne
  have := hhead head hhead'
  omega

theorem Follows.advanceFrom (h : Follows fields rowCount lengths bound c t) (hle : bound ≤ row+1) :
    Follows fields rowCount lengths (row+1) (c.advanceFrom row) t := by
  unfold TermCursor.advanceFrom
  split
  · rename_i hcurrent
    obtain ⟨hwf,htf,-⟩ := h.wf.advance hcurrent
    refine ⟨hwf,h.scorer,h.upper,fun r hr => ?_⟩
    rw [htf,if_neg (by omega),h.tf r (by omega)]
  · exact h.mono hle

theorem Follows.caught_advanceFrom (h : Follows fields rowCount lengths bound c t)
    (hcaught : Caught row c) : Caught (row+1) (c.advanceFrom row) := by
  unfold TermCursor.advanceFrom
  split
  · rename_i hcurrent
    intro r hr
    change c.stream.advance.tf r = 0
    rw [(h.wf.advance hcurrent).2.1,if_pos (by omega)]
  · rename_i hcurrent
    refine h.caught_of_head fun r hr => ?_
    have hge:=h.head_ge hcaught hr
    have hne : r ≠ row := by
      rintro rfl
      exact hcurrent hr
    omega

theorem Follows.contribution (h : Follows fields rowCount lengths bound c t) (hle : bound ≤ row)
    (hcaught : Caught row c) : c.contribution lengths row = t.score lengths row := by
  unfold TermCursor.contribution
  split
  · rename_i hcurrent
    rw [h.wf.currentTf hcurrent,Option.elim_some,h.scorer,h.tf row hle]
    rfl
  · rename_i hcurrent
    refine (TermPlan.score_of_zero ?_).symm
    rw [← h.tf row hle]
    by_contra hne
    obtain ⟨head,hhead,hhead_le⟩ := h.wf.head_le hne
    have hge:=h.head_ge hcaught hhead
    have heq : head = row := by omega
    exact hcurrent (heq ▸ hhead)

theorem left_advanceFrom_le (h : Follows fields rowCount lengths bound c t) (row : ℕ) :
    left (c.advanceFrom row).stream.runs ≤ left c.stream.runs := by
  unfold TermCursor.advanceFrom
  split
  · rename_i hcurrent
    exact (h.wf.advance hcurrent).2.2.le
  · exact le_rfl

end Cursors

end Zeppelin.Fts
