import Mathlib.Data.List.Basic

namespace Zeppelin.Collections
open List

theorem getElem?_of_isPrefix {β : Type} {list longer : List β} {index : ℕ} {item : β}
    (h : list <+: longer) (hitem : list[index]? = some item) : longer[index]? = some item := by
  obtain ⟨hlt,rfl⟩ := List.getElem?_eq_some_iff.mp hitem
  exact prefix_iff_getElem?.mp h index hlt

variable {α : Type} [Ord α]

theorem compare_append_of_length_eq {a b : List α} (h : a.length = b.length) (c d : List α) :
    compare (a++c) (b++d) = (compare a b).then (compare c d) := by
  induction a generalizing b with
  | nil =>
    rw [length_eq_zero_iff.mp h.symm]
    rfl
  | cons x a ih =>
    cases b with
    | nil => cases h
    | cons y b =>
      have hrest:=ih (Nat.succ.inj h)
      rw [cons_append,cons_append,List.compare_cons_cons,List.compare_cons_cons,
        hrest,Ordering.then_assoc]

theorem compare_take_drop {n : ℕ} {a b : List α} (ha : n ≤ a.length) (hb : n ≤ b.length) :
    compare a b = (compare (a.take n) (b.take n)).then (compare (a.drop n) (b.drop n)) := by
  have hlength : (a.take n).length = (b.take n).length := by
    rw [length_take_of_le ha,length_take_of_le hb]
  rw [← compare_append_of_length_eq hlength,take_append_drop,take_append_drop]

theorem compare_drop_min (a b : List α) :
    compare (a.drop (min a.length b.length)) (b.drop (min a.length b.length)) =
      compare a.length b.length := by
  rcases Nat.lt_trichotomy a.length b.length with hlt | heq | hgt
  · rw [Nat.min_eq_left (Nat.le_of_lt hlt),drop_length,Nat.compare_eq_lt.mpr hlt]
    cases hrest : b.drop a.length with
    | nil =>
      have hle:=drop_eq_nil_iff.mp hrest
      omega
    | cons y rest => rfl
  · rw [heq,Nat.min_self,drop_length,Nat.compare_eq_eq.mpr rfl,← heq,drop_length]
    rfl
  · rw [Nat.min_eq_right (Nat.le_of_lt hgt),drop_length,Nat.compare_eq_gt.mpr hgt]
    cases hrest : a.drop b.length with
    | nil =>
      have hle:=drop_eq_nil_iff.mp hrest
      omega
    | cons x rest => rfl

end Zeppelin.Collections
