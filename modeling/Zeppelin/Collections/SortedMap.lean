import Mathlib.Order.Lattice
import Mathlib.Data.List.Basic

namespace Zeppelin
open List

structure SortedMap (α β : Type) [LinearOrder α] where
  entries : List (α × β)
  sorted : entries.Pairwise fun a b => a.1 < b.1

variable {α β : Type} [LinearOrder α] {m : SortedMap α β} {es : List (α × β)}

@[ext] theorem SortedMap.ext {n : SortedMap α β} (h : m.entries = n.entries) : m = n := by
  cases m
  cases n
  cases h
  rfl

instance [DecidableEq β] : DecidableEq (SortedMap α β) := fun m n =>
  decidable_of_iff (m.entries = n.entries) ⟨SortedMap.ext,congrArg SortedMap.entries⟩

def SortedMap.empty : SortedMap α β := ⟨[],.nil⟩

def insertEntry (key : α) (value : β) : List (α × β) → Option β × List (α × β)
  | [] => (none,[(key,value)])
  | (k,v)::es =>
    if key < k then (none,(key,value)::(k,v)::es)
    else if key = k then (some v,(key,value)::es)
    else ((insertEntry key value es).1,(k,v)::(insertEntry key value es).2)

theorem mem_insertEntry {key : α} {value : β} {e : α × β}
    (h : e ∈ (insertEntry key value es).2) : e = (key,value) ∨ e ∈ es := by
  induction es with
  | nil => simpa [insertEntry] using h
  | cons a es ih =>
    obtain ⟨k,v⟩ := a
    rw [insertEntry] at h
    split_ifs at h
    · rcases mem_cons.mp h with h | h
      · exact .inl h
      · exact .inr h
    · rcases mem_cons.mp h with h | h
      · exact .inl h
      · exact .inr (mem_cons_of_mem _ h)
    · rcases mem_cons.mp h with h | h
      · exact .inr (mem_cons.mpr (.inl h))
      · exact (ih h).imp_right (mem_cons_of_mem _)

theorem insertEntry_sorted (key : α) (value : β) (h : es.Pairwise fun a b => a.1 < b.1) :
    (insertEntry key value es).2.Pairwise fun a b => a.1 < b.1 := by
  induction es with
  | nil => simp [insertEntry]
  | cons a es ih =>
    obtain ⟨k,v⟩ := a
    obtain ⟨hk,hes⟩ := pairwise_cons.mp h
    rw [insertEntry]
    split_ifs with hlt heq
    · refine pairwise_cons.mpr ⟨?_,h⟩
      intro e he
      rcases mem_cons.mp he with rfl | he
      · exact hlt
      · exact lt_trans hlt (hk e he)
    · subst heq
      exact pairwise_cons.mpr ⟨hk,hes⟩
    · refine pairwise_cons.mpr ⟨?_,ih hes⟩
      intro e he
      rcases mem_insertEntry he with rfl | he
      · exact lt_of_le_of_ne (not_lt.mp hlt) (Ne.symm heq)
      · exact hk e he

def SortedMap.insert (m : SortedMap α β) (key : α) (value : β) : Option β × SortedMap α β :=
  ((insertEntry key value m.entries).1,
    ⟨(insertEntry key value m.entries).2,insertEntry_sorted key value m.sorted⟩)

theorem insertEntry_last {key : α} (value : β) (h : ∀ e ∈ es,e.1 < key) :
    insertEntry key value es = (none,es++[(key,value)]) := by
  induction es with
  | nil => rfl
  | cons a es ih =>
    obtain ⟨k,v⟩ := a
    have hk : k < key := h (k,v) (mem_cons_self ..)
    rw [insertEntry,if_neg (lt_asymm hk),if_neg (ne_of_gt hk),ih fun e he => h e (mem_cons_of_mem _ he)]
    rfl

theorem SortedMap.insert_last {key : α} (value : β) (h : ∀ e ∈ m.entries,e.1 < key) :
    (m.insert key value).1 = none ∧ (m.insert key value).2.entries = m.entries++[(key,value)] := by
  simp only [insert,insertEntry_last value h,and_self]

theorem mem_keys_insertEntry {key k : α} {value : β} :
    k ∈ (insertEntry key value es).2.map Prod.fst ↔ k = key ∨ k ∈ es.map Prod.fst := by
  induction es with
  | nil => simp [insertEntry]
  | cons e es ih =>
    obtain ⟨head,v⟩ := e
    rw [insertEntry]
    split_ifs with hlt heq
    · simp
    · subst heq
      simp
    · rw [map_cons,mem_cons,ih,map_cons,mem_cons]
      exact or_left_comm

theorem insertEntry_isSome {key : α} {value : β} (h : es.Pairwise fun a b => a.1 < b.1) :
    (insertEntry key value es).1.isSome = true ↔ key ∈ es.map Prod.fst := by
  induction es with
  | nil => simp [insertEntry]
  | cons e es ih =>
    obtain ⟨head,v⟩ := e
    obtain ⟨hhead,hes⟩ := pairwise_cons.mp h
    rw [insertEntry,map_cons,mem_cons]
    split_ifs with hlt heq
    · apply iff_of_false Bool.false_ne_true
      rintro (rfl | hmem)
      · exact lt_irrefl _ hlt
      · obtain ⟨e,he,rfl⟩ := mem_map.mp hmem
        exact lt_asymm hlt (hhead e he)
    · exact iff_of_true rfl (.inl heq)
    · rw [ih hes]
      exact (or_iff_right heq).symm

theorem SortedMap.mem_keys_insert {key k : α} {value : β} :
    k ∈ (m.insert key value).2.entries.map Prod.fst ↔ k = key ∨ k ∈ m.entries.map Prod.fst :=
  mem_keys_insertEntry

theorem SortedMap.insert_isSome {key : α} {value : β} :
    (m.insert key value).1.isSome = true ↔ key ∈ m.entries.map Prod.fst :=
  insertEntry_isSome m.sorted

theorem SortedMap.mem_insert {key : α} {value : β} {e : α × β}
    (h : e ∈ (m.insert key value).2.entries) : e = (key,value) ∨ e ∈ m.entries :=
  mem_insertEntry h

section Lookup
variable {key : α} {value : β}

theorem lookup_insertEntry (k : α) {es : List (α × β)} (h : es.Pairwise fun a b => a.1 < b.1) :
    (insertEntry key value es).2.lookup k = if k = key then some value else es.lookup k := by
  induction es with
  | nil =>
    rw [insertEntry,lookup_cons]
    by_cases hk : k = key
    · simp [hk]
    · rw [beq_false_of_ne hk,if_neg hk]
  | cons e es ih =>
    obtain ⟨head,v⟩ := e
    obtain ⟨-,hes⟩ := pairwise_cons.mp h
    rw [insertEntry]
    by_cases hlt : key < head
    · rw [if_pos hlt,lookup_cons]
      by_cases hk : k = key
      · simp [hk]
      · rw [beq_false_of_ne hk,if_neg hk]
    · rw [if_neg hlt]
      by_cases heq : key = head
      · rw [if_pos heq,lookup_cons,lookup_cons,← heq]
        by_cases hk : k = key
        · simp [hk]
        · rw [beq_false_of_ne hk,if_neg hk]
      · rw [if_neg heq,lookup_cons,lookup_cons,ih hes]
        by_cases hk : k = key
        · rw [if_pos hk,if_pos hk,hk,beq_false_of_ne heq]
        · rw [if_neg hk,if_neg hk]

theorem mem_of_lookup_eq {es : List (α × β)} (h : es.lookup key = some value) :
    (key,value) ∈ es := by
  induction es with
  | nil => cases h
  | cons e es ih =>
    obtain ⟨head,v⟩ := e
    rw [lookup_cons] at h
    by_cases hk : key = head
    · rw [hk,beq_self_eq_true] at h
      cases h
      rw [hk]
      exact mem_cons_self ..
    · rw [beq_false_of_ne hk] at h
      exact mem_cons_of_mem _ (ih h)

end Lookup

end Zeppelin
