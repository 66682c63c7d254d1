import Mathlib.Data.List.Sort

namespace Zeppelin.Collections
open List

variable {α : Type} (r : α → α → Prop) [DecidableRel r]

def stableMerge (left right : List α) : List α := left.merge right fun a b => decide (r a b)

theorem stableMerge_nil (left : List α) : stableMerge r left [] = left := merge_right left

theorem nil_stableMerge (right : List α) : stableMerge r [] right = right := nil_merge right

theorem stableMerge_cons_of_le {a b : α} (h : r a b) (left right : List α) :
    stableMerge r (a::left) (b::right) = a::stableMerge r left (b::right) := by
  rw [stableMerge,cons_merge_cons,if_pos (decide_eq_true h)]
  rfl

theorem stableMerge_cons_of_not_le {a b : α} (h : ¬ r a b) (left right : List α) :
    stableMerge r (a::left) (b::right) = b::stableMerge r (a::left) right := by
  rw [stableMerge,cons_merge_cons,if_neg (by simpa using h)]
  rfl

variable [Std.Total r] [IsTrans α r]

theorem stableMerge_orderedInsert (a : α) (left : List α) : ∀ right : List α,
    stableMerge r (left.orderedInsert r a) right = (stableMerge r left right).orderedInsert r a := by
  induction left with
  | nil =>
    intro right
    rw [nil_stableMerge,orderedInsert_nil]
    induction right with
    | nil => exact stableMerge_nil r [a]
    | cons c right ih =>
      rw [orderedInsert_cons]
      split_ifs with hac
      · rw [stableMerge_cons_of_le r hac,nil_stableMerge]
      · rw [stableMerge_cons_of_not_le r hac,ih]
  | cons b left ihLeft =>
    intro right
    induction right with
    | nil => rw [stableMerge_nil,stableMerge_nil]
    | cons c right ihRight =>
      by_cases hab : r a b
      · rw [orderedInsert_cons_of_le r left hab] at ihRight ⊢
        by_cases hac : r a c
        · rw [stableMerge_cons_of_le r hac]
          by_cases hbc : r b c
          · rw [stableMerge_cons_of_le r hbc,orderedInsert_cons_of_le r _ hab]
          · rw [stableMerge_cons_of_not_le r hbc,orderedInsert_cons_of_le r _ hac]
        · have hbc : ¬ r b c := fun hbc => hac (IsTrans.trans a b c hab hbc)
          rw [stableMerge_cons_of_not_le r hac,stableMerge_cons_of_not_le r hbc,
            orderedInsert_of_not_le r _ hac,ihRight]
      · rw [orderedInsert_of_not_le r left hab] at ihRight ⊢
        by_cases hbc : r b c
        · rw [stableMerge_cons_of_le r hbc,stableMerge_cons_of_le r hbc,
            orderedInsert_of_not_le r _ hab,ihLeft]
        · have hac : ¬ r a c := by
            intro hac
            have hcb:=(Std.Total.total (r := r) b c).resolve_left hbc
            exact hab (IsTrans.trans a c b hac hcb)
          rw [stableMerge_cons_of_not_le r hbc,stableMerge_cons_of_not_le r hbc,
            orderedInsert_of_not_le r _ hac,ihRight]

theorem stableMerge_insertionSort (left right : List α) :
    stableMerge r (left.insertionSort r) (right.insertionSort r) =
      (left++right).insertionSort r := by
  induction left with
  | nil => exact nil_stableMerge r _
  | cons a left ih =>
    rw [insertionSort_cons,stableMerge_orderedInsert,ih,cons_append,
      insertionSort_cons]

omit [Std.Total r] [IsTrans α r]

variable {s : α → α → Prop} {list : List α} {width : ℕ}

theorem orderedInsert_congr [DecidableRel s] {a : α}
    (h : ∀ b ∈ list,r a b ↔ s a b) : list.orderedInsert r a = list.orderedInsert s a := by
  induction list with
  | nil => rfl
  | cons b list ih =>
    rw [orderedInsert_cons,orderedInsert_cons,
      ih fun c hc => h c (mem_cons_of_mem _ hc)]
    simp only [h b mem_cons_self]

theorem insertionSort_congr [DecidableRel s]
    (h : list.Pairwise fun a b => r a b ↔ s a b) : list.insertionSort r = list.insertionSort s := by
  induction list with
  | nil => rfl
  | cons a list ih =>
    rw [pairwise_cons] at h
    rw [insertionSort_cons,insertionSort_cons,ih h.2]
    apply orderedInsert_congr
    intro b hb
    exact h.1 b ((mem_insertionSort s).mp hb)

theorem take_insertionSort [Std.Total r] [IsTrans α r] [Std.Antisymm r]
    {sorted dropped : List α} (hperm : (sorted++dropped).Perm list)
    (hsorted : sorted.Pairwise r) (hcross : ∀ a ∈ sorted,∀ b ∈ dropped,r a b) :
    (list.insertionSort r).take sorted.length = sorted := by
  have hpairwise : (sorted++dropped.insertionSort r).Pairwise r := by
    rw [pairwise_append]
    refine ⟨hsorted,pairwise_insertionSort r dropped,?_⟩
    intro a ha b hb
    exact hcross a ha b ((mem_insertionSort r).mp hb)
  have hall : (sorted++dropped.insertionSort r).Perm (list.insertionSort r) := by
    have htail:=(perm_insertionSort r dropped).append_left sorted
    exact (htail.trans hperm).trans (perm_insertionSort r list).symm
  rw [← hall.eq_of_pairwise' hpairwise (pairwise_insertionSort r list),take_left]

/-- The second list is the first one with its runs of the width sorted; only the last run may
be shorter. -/
inductive Runs (width : ℕ) : List α → List α → Prop
  | nil : Runs width [] []
  | cons {run rest sorted : List α} (nonempty : run ≠ []) (length_le : run.length ≤ width)
      (full : run.length = width ∨ rest = []) (tail : Runs width rest sorted) :
      Runs width (run++rest) (run.insertionSort r++sorted)

def mergePass (width : ℕ) : ℕ → List α → List α
  | 0,list => list
  | fuel+1,list =>
    if list.isEmpty then []
    else stableMerge r (list.take width) ((list.drop width).take width)++
      mergePass width fuel (list.drop (2*width))

theorem runs_one (list : List α) : Runs r 1 list list := by
  induction list with
  | nil => exact Runs.nil
  | cons a list ih =>
    have hrun:=Runs.cons (r := r) (cons_ne_nil a []) (Nat.le_refl 1) (.inl rfl) ih
    exact hrun

theorem Runs.length_eq {sorted : List α} (h : Runs r width list sorted) :
    sorted.length = list.length := by
  induction h with
  | nil => rfl
  | cons _ _ _ _ ih => rw [length_append,length_append,length_insertionSort,ih]

theorem Runs.sorted {sorted : List α} (h : Runs r width list sorted)
    (hwidth : list.length ≤ width) : sorted = list.insertionSort r := by
  cases h with
  | nil => rfl
  | @cons run rest sorted hne hle hfull htail =>
    obtain rfl : rest = [] := by
      rcases hfull with hfull | hrest
      · rw [length_append] at hwidth
        exact length_eq_zero_iff.mp (by omega)
      · exact hrest
    obtain rfl : sorted = [] := length_eq_zero_iff.mp (htail.length_eq r)
    rw [append_nil,append_nil]

theorem take_insertionSort_append {run : List α} (h : run.length = width) (sorted : List α) :
    (run.insertionSort r++sorted).take width = run.insertionSort r ∧
      (run.insertionSort r++sorted).drop width = sorted := by
  have hlength : (run.insertionSort r).length = width := by
    rw [length_insertionSort,h]
  rw [← hlength]
  exact ⟨take_left,drop_left⟩

variable [Std.Total r] [IsTrans α r]

theorem Runs.pass {width : ℕ} {fuel : ℕ} : ∀ {list sorted : List α},Runs r width list sorted →
    list.length ≤ fuel → Runs r (2*width) list (mergePass r width fuel sorted) := by
  induction fuel with
  | zero =>
    intro list sorted h hfuel
    obtain rfl : list = [] := length_eq_zero_iff.mp (by omega)
    obtain rfl : sorted = [] := length_eq_zero_iff.mp (h.length_eq r)
    exact Runs.nil
  | succ fuel ih =>
    intro list sorted h hfuel
    cases h with
    | nil => exact Runs.nil
    | @cons run rest sorted hne hle hfull htail =>
      have hnonempty : (run.insertionSort r++sorted).isEmpty = false := by
        have hpositive:=length_pos_iff.mpr hne
        rw [isEmpty_eq_false_iff,← length_pos_iff,length_append,
          length_insertionSort]
        omega
      rw [mergePass,hnonempty]
      simp only [Bool.false_eq_true,if_false]
      by_cases hlast : rest = []
      · -- the last run stays as it is
        subst hlast
        obtain rfl : sorted = [] := length_eq_zero_iff.mp (htail.length_eq r)
        have hshort : (run.insertionSort r).length ≤ width := by
          rw [length_insertionSort]
          exact hle
        have hempty:=ih Runs.nil (Nat.zero_le fuel)
        have hone : Runs r (2*width) (run++[]) _ :=
          Runs.cons hne (by omega) (.inr rfl) hempty
        simp only [append_nil] at hone ⊢
        rwa [take_of_length_le hshort,drop_of_length_le hshort,take_nil,
          stableMerge_nil,drop_of_length_le (by omega)]
      · have hwidth:=hfull.resolve_right hlast
        obtain ⟨htake,hdrop⟩ := take_insertionSort_append r hwidth sorted
        rw [htake,hdrop,Nat.two_mul,← drop_drop,hdrop,← Nat.two_mul]
        cases htail with
        | nil => exact absurd rfl hlast
        | @cons second behind tail hsecond hsecondLe hsecondFull htail =>
          have hpositive:=length_pos_iff.mpr hne
          have hmerge:=stableMerge_insertionSort r run second
          by_cases hend : behind = []
          · subst hend
            obtain rfl : tail = [] := length_eq_zero_iff.mp (htail.length_eq r)
            have hshort : (second.insertionSort r).length ≤ width := by
              rw [length_insertionSort]
              exact hsecondLe
            have hempty:=ih Runs.nil (Nat.zero_le fuel)
            have hboth : Runs r (2*width) ((run++second)++[]) _ :=
              Runs.cons (by simp [hne]) (by rw [length_append]; omega) (.inr rfl) hempty
            simp only [append_nil] at hboth ⊢
            rwa [take_of_length_le hshort,drop_of_length_le hshort,hmerge]
          · have hsecondWidth:=hsecondFull.resolve_right hend
            obtain ⟨htake,hdrop⟩ := take_insertionSort_append r hsecondWidth tail
            rw [htake,hdrop,hmerge,← append_assoc]
            rw [length_append,length_append] at hfuel
            exact Runs.cons (by simp [hne]) (by rw [length_append]; omega)
              (.inl (by rw [length_append]; omega)) (ih htail (by omega))

end Zeppelin.Collections
