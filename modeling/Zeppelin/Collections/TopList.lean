import Mathlib.Data.List.Induction
import Mathlib.Data.List.Sort
import Mathlib.Data.List.TakeWhile

namespace Zeppelin.Collections
open List

variable {α : Type*} [LinearOrder α]

/-- Where a scan from the back stops: behind the last element not above `x`. -/
def slotFor (x : α) (xs : List α) : ℕ := (xs.reverse.dropWhile fun y => x < y).length

def offerTop (capacity : ℕ) (xs : List α) (x : α) : List α :=
  if capacity = 0 then xs
  else if capacity ≤ xs.length ∧ xs.getLast?.any (fun last => ¬ x < last) then xs
  else (xs.insertIdx (slotFor x xs) x).take capacity

theorem split_slotFor (x : α) (xs : List α) : ∃ low high,xs = low++high ∧
    slotFor x xs = low.length ∧ (∀ y ∈ high,x < y) ∧ low.getLast?.all (· ≤ x) = true := by
  refine ⟨(xs.reverse.dropWhile fun y => x < y).reverse,
    (xs.reverse.takeWhile fun y => x < y).reverse,?_,by simp [slotFor],?_,?_⟩
  · rw [← reverse_append,takeWhile_append_dropWhile,reverse_reverse]
  · intro y hy
    simpa using mem_takeWhile_imp (mem_reverse.mp hy)
  · rw [getLast?_reverse]
    cases hdrop : xs.reverse.dropWhile fun y => x < y with
    | nil => rfl
    | cons y ys =>
      have hstop:=head?_dropWhile_not (fun y => decide (x < y)) xs.reverse
      rw [hdrop] at hstop
      simpa using hstop

variable {x : α} {xs : List α} {capacity : ℕ}

theorem insertIdx_slotFor (h : xs.SortedLE) :
    xs.insertIdx (slotFor x xs) x = xs.orderedInsert (· ≤ ·) x := by
  obtain ⟨low,high,rfl,hslot,hhigh,hlast⟩ := split_slotFor x xs
  have hinsert : (low++high).insertIdx low.length x = low++x::high := by
    clear h hslot hlast
    induction low with
    | nil => simp
    | cons y ys ih => simpa using ih
  rw [hslot,hinsert]
  have hpair:=h.pairwise
  rw [pairwise_append] at hpair
  obtain ⟨hlow,hhighs,hcross⟩ := hpair
  have hbelow : ∀ y ∈ low,y ≤ x := by
    intro y hy
    cases hl : low.getLast? with
    | none =>
      rw [getLast?_eq_none_iff.mp hl] at hy
      cases hy
    | some last =>
      rw [hl,Option.all_some,decide_eq_true_eq] at hlast
      obtain ⟨init,rfl⟩ := getLast?_eq_some_iff.mp hl
      rw [pairwise_append] at hlow
      rcases mem_append.mp hy with hy | hy
      · exact (hlow.2.2 y hy last (by simp)).trans hlast
      · rw [mem_singleton.mp hy]
        exact hlast
  have hsorted : (low++x::high).SortedLE := by
    rw [sortedLE_iff_pairwise,pairwise_append,pairwise_cons]
    refine ⟨hlow,⟨fun y hy => (hhigh y hy).le,hhighs⟩,?_⟩
    intro y hy z hz
    rcases mem_cons.mp hz with rfl | hz
    · exact hbelow y hy
    · exact hcross y hy z hz
  have hplaced : ((low++high).orderedInsert (· ≤ ·) x).SortedLE :=
    (List.Pairwise.orderedInsert x _ h.pairwise).sortedLE
  refine List.Perm.eq_of_sortedLE hsorted hplaced ?_
  exact perm_middle.trans (perm_orderedInsert (· ≤ ·) x _).symm

theorem take_orderedInsert (k : ℕ) (x : α) (xs : List α) :
    ((xs.take k).orderedInsert (· ≤ ·) x).take k = (xs.orderedInsert (· ≤ ·) x).take k := by
  induction xs generalizing k with
  | nil => simp
  | cons y ys ih =>
    cases k with
    | zero => simp
    | succ k =>
      rw [take_succ_cons,orderedInsert_cons,orderedInsert_cons]
      split
      · rw [take_succ_cons,take_succ_cons]
        congr 1
        cases k with
        | zero => rfl
        | succ k => simp [take_take]
      · rw [take_succ_cons,take_succ_cons,ih]

theorem take_orderedInsert_of_le (h : xs.SortedLE) (hlast : xs.getLast?.all (· ≤ x) = true) :
    (xs.orderedInsert (· ≤ ·) x).take xs.length = xs := by
  have hall : ∀ y ∈ xs,y ≤ x := by
    intro y hy
    cases hl : xs.getLast? with
    | none =>
      rw [getLast?_eq_none_iff.mp hl] at hy
      cases hy
    | some last =>
      rw [hl,Option.all_some,decide_eq_true_eq] at hlast
      obtain ⟨init,rfl⟩ := getLast?_eq_some_iff.mp hl
      have hpair:=h.pairwise
      rw [pairwise_append] at hpair
      rcases mem_append.mp hy with hy | hy
      · exact (hpair.2.2 y hy last (by simp)).trans hlast
      · rw [mem_singleton.mp hy]
        exact hlast
  have happend : xs.orderedInsert (· ≤ ·) x = xs++[x] := by
    refine List.Perm.eq_of_sortedLE (List.Pairwise.orderedInsert x _ h.pairwise).sortedLE ?_ ?_
    · rw [sortedLE_iff_pairwise,pairwise_append]
      refine ⟨h.pairwise,pairwise_singleton _ _,?_⟩
      intro y hy z hz
      rw [mem_singleton.mp hz]
      exact hall y hy
    · exact (perm_orderedInsert (· ≤ ·) x xs).trans (perm_append_singleton x xs).symm
  rw [happend,take_left]

theorem le_last_of_mem_take {y last : α} (h : xs.SortedLE) (hlast : xs.getLast? = some last)
    (hy : y ∈ (xs.orderedInsert (· ≤ ·) x).take xs.length) : y ≤ last := by
  have hall : ∀ z ∈ xs,z ≤ last := by
    obtain ⟨init,rfl⟩ := getLast?_eq_some_iff.mp hlast
    have hpair:=h.pairwise
    rw [pairwise_append] at hpair
    intro z hz
    rcases mem_append.mp hz with hz | hz
    · exact hpair.2.2 z hz last (by simp)
    · rw [mem_singleton.mp hz]
  induction xs with
  | nil => cases hlast
  | cons a xs ih =>
    rw [orderedInsert_cons] at hy
    split at hy
    · rename_i hle
      rw [length_cons,take_succ_cons] at hy
      rcases mem_cons.mp hy with rfl | hy
      · exact hle.trans (hall a mem_cons_self)
      · exact hall y (mem_of_mem_take hy)
    · rw [length_cons,take_succ_cons] at hy
      rcases mem_cons.mp hy with rfl | hy
      · exact hall y mem_cons_self
      · cases xs with
        | nil => simp at hy
        | cons b xs =>
          refine ih (pairwise_cons.mp h.pairwise).2.sortedLE ?_ hy
            fun z hz => hall z (mem_cons_of_mem _ hz)
          rw [getLast?_cons_cons] at hlast
          exact hlast

theorem offerTop_eq (h : xs.SortedLE) (hlen : xs.length ≤ capacity)
    (x : α) : offerTop capacity xs x = (xs.orderedInsert (· ≤ ·) x).take capacity := by
  unfold offerTop
  split
  · rename_i hzero
    subst hzero
    rw [length_eq_zero_iff.mp (Nat.le_zero.mp hlen)]
    rfl
  · split
    · rename_i hfull
      have hk : capacity = xs.length := le_antisymm hfull.1 hlen
      rw [hk,take_orderedInsert_of_le h]
      cases hl : xs.getLast? with
      | none => rfl
      | some last =>
        rw [hl] at hfull
        simpa using hfull.2
    · rw [insertIdx_slotFor h]

theorem offerTop_of_le (hfull : capacity ≤ xs.length)
    (hlast : ∀ last ∈ xs.getLast?,last ≤ x) : offerTop capacity xs x = xs := by
  unfold offerTop
  split
  · rfl
  · rename_i hcap
    rw [if_pos]
    refine ⟨hfull,?_⟩
    cases hl : xs.getLast? with
    | none =>
      rw [getLast?_eq_none_iff.mp hl] at hfull
      exact absurd (Nat.le_zero.mp hfull) hcap
    | some last => simpa using hlast last (by rw [hl]; rfl)

theorem offerTop_sorted (h : xs.SortedLE) (hlen : xs.length ≤ capacity) (x : α) :
    (offerTop capacity xs x).SortedLE ∧ (offerTop capacity xs x).length ≤ capacity := by
  rw [offerTop_eq h hlen]
  refine ⟨?_,length_take_le _ _⟩
  exact ((List.Pairwise.orderedInsert x _ h.pairwise).sublist (take_sublist _ _)).sortedLE

theorem foldl_offerTop (capacity : ℕ) (xs : List α) :
    xs.foldl (offerTop capacity) [] = (xs.insertionSort (· ≤ ·)).take capacity := by
  have key : xs.foldl (offerTop capacity) [] = (xs.insertionSort (· ≤ ·)).take capacity ∧
      (xs.foldl (offerTop capacity) []).SortedLE ∧
      (xs.foldl (offerTop capacity) []).length ≤ capacity := by
    -- the list offered so far, from the front
    induction xs using List.reverseRecOn with
    | nil => exact ⟨by simp,by simp [sortedLE_iff_pairwise],Nat.zero_le _⟩
    | append_singleton xs x ih =>
      obtain ⟨heq,hsorted,hlen⟩ := ih
      rw [foldl_append,foldl_cons,foldl_nil]
      refine ⟨?_,offerTop_sorted hsorted hlen x⟩
      rw [offerTop_eq hsorted hlen,heq,take_orderedInsert]
      congr 1
      refine List.Perm.eq_of_sortedLE ?_ sortedLE_insertionSort ?_
      · exact (List.Pairwise.orderedInsert x _ (pairwise_insertionSort _ xs)).sortedLE
      · have hinsert:=perm_orderedInsert (· ≤ ·) x (xs.insertionSort (· ≤ ·))
        have hsort:=(perm_insertionSort (· ≤ ·) xs).cons x
        exact hinsert.trans (hsort.trans ((perm_append_singleton x xs).symm.trans
          (perm_insertionSort (· ≤ ·) (xs++[x])).symm))
  exact key.1

end Zeppelin.Collections
