import Mathlib.Algebra.GroupWithZero.Nat
import Mathlib.Data.List.Basic
import Zeppelin.Machine.Except

namespace Zeppelin.Collections
open List

variable {ε ρ α : Type}

def pulls (pull : ρ → ℕ → Except ε (List α × Option ρ)) : ρ → List ℕ → Except ε (List α × Bool)
  | _,[] => .ok ([],false)
  | position,capacity::capacities => do
    let (page,next) ← pull position capacity
    match next with
    | none => return (page,true)
    | some behind => do
      let (rest,ended) ← pulls pull behind capacities
      return (page++rest,ended)

def TakesPage (pull : ρ → ℕ → Except ε (List α × Option ρ)) (left : ρ → List α → Prop) : Prop :=
  ∀ position rows capacity,left position rows → 0 < capacity →
    ∃ next,pull position capacity = .ok (rows.take capacity,next) ∧
      (next = none → rows.length < capacity) ∧
      ∀ behind,next = some behind → capacity ≤ rows.length ∧ left behind (rows.drop capacity)

/-- The pages are the rows up to the sum of the capacities, and the end is reached as soon as
that sum is more than the rows. -/
theorem pulls_spec {pull : ρ → ℕ → Except ε (List α × Option ρ)} {left : ρ → List α → Prop}
    (h : TakesPage pull left) {position : ρ} {rows : List α} (hleft : left position rows)
    {capacities : List ℕ} (hpositive : ∀ capacity ∈ capacities,0 < capacity) :
    ∃ ended,pulls pull position capacities = .ok (rows.take capacities.sum,ended) ∧
      (ended = true ↔ rows.length < capacities.sum) := by
  induction capacities generalizing position rows with
  | nil => exact ⟨false,rfl,by simp⟩
  | cons capacity capacities ih =>
    obtain ⟨hfirst,hrest⟩ := forall_mem_cons.mp hpositive
    obtain ⟨next,hpull,hend,hbehind⟩ := h position rows capacity hleft hfirst
    rw [pulls,hpull,ok_bind,sum_cons]
    cases next with
    | none =>
      have hshort:=hend rfl
      refine ⟨true,?_,iff_of_true rfl (by omega)⟩
      dsimp only
      rw [take_of_length_le (by omega),take_of_length_le (by omega)]
      rfl
    | some behind =>
      obtain ⟨hfull,hnext⟩ := hbehind behind rfl
      obtain ⟨ended,hpages,hiff⟩ := ih hnext hrest
      refine ⟨ended,?_,?_⟩
      · dsimp only
        rw [hpages,ok_bind,take_add]
        rfl
      · rw [hiff,length_drop]
        omega

end Zeppelin.Collections
