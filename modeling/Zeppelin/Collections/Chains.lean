import Mathlib.Data.List.Range

namespace Zeppelin.Collections
open List

inductive Chain (links : List (Option ℕ)) : Option ℕ → List ℕ → Prop where
  | nil : Chain links none []
  | cons {item : ℕ} {next : Option ℕ} {rest : List ℕ} (link : links[item]? = some next)
      (tail : Chain links next rest) : Chain links (some item) (item::rest)

theorem Chain.append {links : List (Option ℕ)} {head : Option ℕ} {items : List ℕ}
    (h : Chain links head items) (more : List (Option ℕ)) : Chain (links++more) head items := by
  induction h with
  | nil => exact .nil
  | cons link _ ih =>
    refine .cons ?_ ih
    rw [getElem?_append_left (List.getElem?_eq_some_iff.mp link).1]
    exact link

def bucketItems (bucket : ℕ → ℕ) (count place : ℕ) : List ℕ :=
  ((List.range count).filter fun item => bucket item = place).reverse

theorem bucketItems_succ (bucket : ℕ → ℕ) (count place : ℕ) :
    bucketItems bucket (count+1) place =
      if bucket count = place then count::bucketItems bucket count place
      else bucketItems bucket count place := by
  rw [bucketItems,range_succ,filter_append,reverse_append]
  split_ifs with h
  · simp [bucketItems,h]
  · simp [bucketItems,h]

structure Chained (bucket : ℕ → ℕ) (heads links : List (Option ℕ)) : Prop where
  chains : ∀ (place : ℕ) (head : Option ℕ),heads[place]? = some head →
    Chain links head (bucketItems bucket links.length place)

theorem chained_replicate (bucket : ℕ → ℕ) (count : ℕ) :
    Chained bucket (List.replicate count none) [] where
  chains := by
    intro place head hhead
    rw [getElem?_replicate] at hhead
    split_ifs at hhead
    obtain rfl := Option.some.inj hhead
    exact .nil

theorem Chained.insert {bucket : ℕ → ℕ} {heads links : List (Option ℕ)}
    (h : Chained bucket heads links) {head : Option ℕ}
    (hhead : heads[bucket links.length]? = some head) :
    Chained bucket (heads.set (bucket links.length) (some links.length)) (links++[head]) where
  chains := by
    intro place other hother
    rw [length_append,length_singleton,bucketItems_succ]
    by_cases hplace : bucket links.length = place
    · have hbound : place < heads.length := hplace ▸ (List.getElem?_eq_some_iff.mp hhead).1
      rw [hplace,getElem?_set_self hbound] at hother
      obtain rfl := Option.some.inj hother
      rw [if_pos hplace]
      refine @Chain.cons _ links.length head _ ?_ ?_
      · simp
      · apply Chain.append
        exact h.chains place head (hplace ▸ hhead)
    · rw [getElem?_set_ne hplace] at hother
      rw [if_neg hplace]
      apply Chain.append
      exact h.chains place other hother

end Zeppelin.Collections
