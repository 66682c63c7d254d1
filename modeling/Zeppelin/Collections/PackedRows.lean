import Mathlib.Data.List.Basic

namespace Zeppelin
open List

variable {α : Type}

structure PackedRows (α : Type) where
  endOffsets : List ℕ
  items : List α
  deriving DecidableEq

namespace PackedRows

def empty : PackedRows α := ⟨[],[]⟩

def push (p : PackedRows α) (row : List α) : PackedRows α :=
  ⟨p.endOffsets++[(p.items++row).length],p.items++row⟩

def startOffset (p : PackedRows α) (row : ℕ) : Option ℕ :=
  if row = 0 then some 0 else p.endOffsets[row-1]?

def rowItems (p : PackedRows α) (row : ℕ) : Option (List α) := do
  let stop ← p.endOffsets[row]?
  let start ← p.startOffset row
  if start ≤ stop ∧ stop ≤ p.items.length then some ((p.items.take stop).drop start) else none

def replaceRow (p : PackedRows α) (row : ℕ) (replacement : List α) : Option (PackedRows α) := do
  let stop ← p.endOffsets[row]?
  let start ← p.startOffset row
  if start ≤ stop ∧ stop ≤ p.items.length then do
    let items:=p.items.take start++replacement++p.items.drop stop
    let following ← (p.endOffsets.drop row).mapM fun offset =>
      if stop-start ≤ replacement.length then some (offset+(replacement.length-(stop-start)))
      else if stop-start-replacement.length ≤ offset then
        some (offset-(stop-start-replacement.length))
      else none
    return ⟨p.endOffsets.take row++following,items⟩
  else none

def endsFrom : ℕ → List (List α) → List ℕ
  | _,[] => []
  | start,row::rows => (start+row.length)::endsFrom (start+row.length) rows

def pack (rows : List (List α)) : PackedRows α := ⟨endsFrom 0 rows,rows.flatten⟩

@[simp] theorem endsFrom_length (start : ℕ) (rows : List (List α)) :
    (endsFrom start rows).length = rows.length := by
  induction rows generalizing start with
  | nil => rfl
  | cons row rows ih => rw [endsFrom,length_cons,ih,length_cons]

theorem endsFrom_append (start : ℕ) (rows more : List (List α)) :
    endsFrom start (rows++more) =
      endsFrom start rows++endsFrom (start+rows.flatten.length) more := by
  induction rows generalizing start with
  | nil => simp [endsFrom]
  | cons row rows ih =>
    rw [cons_append,endsFrom,ih,endsFrom,cons_append,flatten_cons,
      length_append,Nat.add_assoc]

@[simp] theorem pack_nil : (pack [] : PackedRows α) = empty := rfl

theorem pack_concat (rows : List (List α)) (row : List α) :
    pack (rows++[row]) = (pack rows).push row := by
  simp [pack,push,endsFrom_append,endsFrom]

theorem endsFrom_last (start : ℕ) (rows : List (List α)) (h : rows ≠ []) :
    (endsFrom start rows)[rows.length-1]? = some (start+rows.flatten.length) := by
  obtain ⟨front,row,rfl⟩ : ∃ front row,rows = front++[row] :=
    ⟨rows.dropLast,rows.getLast h,(dropLast_concat_getLast h).symm⟩
  rw [endsFrom_append,length_append,length_singleton,Nat.add_sub_cancel,
    getElem?_append_right (by simp)]
  simp [endsFrom,Nat.add_assoc]

theorem endsFrom_shift (start d : ℕ) (rows : List (List α)) :
    (endsFrom start rows).map (· + d) = endsFrom (start+d) rows := by
  induction rows generalizing start with
  | nil => rfl
  | cons row rows ih =>
    rw [endsFrom,map_cons,ih,endsFrom,Nat.add_right_comm]

theorem le_of_mem_endsFrom {start e : ℕ} {rows : List (List α)} (h : e ∈ endsFrom start rows) :
    start ≤ e := by
  induction rows generalizing start with
  | nil => cases h
  | cons row rows ih =>
    rcases mem_cons.mp h with rfl | h
    · exact Nat.le_add_right ..
    · exact Nat.le_trans (Nat.le_add_right ..) (ih h)

section Split
variable (before : List (List α)) (row : List α) (after : List (List α))

theorem pack_stop : (pack (before++row::after)).endOffsets[before.length]? =
    some (before.flatten.length+row.length) := by
  rw [pack,endsFrom_append,getElem?_append_right (by simp)]
  simp [endsFrom]

theorem pack_start : (pack (before++row::after)).startOffset before.length =
    some before.flatten.length := by
  unfold startOffset
  split
  · rename_i h
    rw [length_eq_zero_iff.mp h]
    rfl
  · rename_i h
    have hne : before ≠ [] := fun hnil => h (by rw [hnil,length_nil])
    have hlast:=endsFrom_last 0 before hne
    rw [Nat.zero_add] at hlast
    simp only [pack]
    rw [endsFrom_append,getElem?_append_left (by rw [endsFrom_length]; omega),hlast]

theorem pack_range : before.flatten.length ≤ before.flatten.length+row.length ∧
    before.flatten.length+row.length ≤ (pack (before++row::after)).items.length := by
  simp only [pack,flatten_append,flatten_cons,length_append]
  omega

theorem rowItems_pack : (pack (before++row::after)).rowItems before.length = some row := by
  simp only [rowItems,pack_stop,pack_start,Option.bind_eq_bind,Option.bind_some,
    if_pos (pack_range before row after)]
  simp [pack,List.take_append]

theorem mapM_some {β : Type} {f : ℕ → Option β} {g : ℕ → β} {xs : List ℕ}
    (h : ∀ x ∈ xs,f x = some (g x)) : xs.mapM f = some (xs.map g) := by
  induction xs with
  | nil => rfl
  | cons x xs ih =>
    rw [mapM_cons,h x (mem_cons_self ..),
      ih fun y hy => h y (mem_cons_of_mem _ hy)]
    rfl

theorem replaceRow_pack (replacement : List α) :
    (pack (before++row::after)).replaceRow before.length replacement =
      some (pack (before++replacement::after)) := by
  simp only [replaceRow,pack_stop,pack_start,Option.bind_eq_bind,Option.bind_some,
    if_pos (pack_range before row after),Nat.add_sub_cancel_left]
  have hdrop : (pack (before++row::after)).endOffsets.drop before.length =
      endsFrom before.flatten.length (row::after) := by
    rw [pack,endsFrom_append,drop_left' (endsFrom_length ..),Nat.zero_add]
  have htake : (pack (before++row::after)).endOffsets.take before.length =
      endsFrom 0 before := by
    rw [pack,endsFrom_append,take_left' (endsFrom_length ..)]
  have hitems : (pack (before++row::after)).items.take before.flatten.length++replacement++
      (pack (before++row::after)).items.drop (before.flatten.length+row.length) =
      (before++replacement::after).flatten := by
    simp [pack,drop_append]
  have hends : (endsFrom before.flatten.length (row::after)).mapM (fun offset =>
      if row.length ≤ replacement.length then some (offset+(replacement.length-row.length))
      else if row.length-replacement.length ≤ offset then
        some (offset-(row.length-replacement.length))
      else none) = some (endsFrom before.flatten.length (replacement::after)) := by
    by_cases hgrow : row.length ≤ replacement.length
    · rw [mapM_some (g := (· + (replacement.length-row.length)))
        (fun x _ => if_pos hgrow),endsFrom_shift]
      have h1:=endsFrom_shift (before.flatten.length+row.length)
        (replacement.length-row.length) after
      have h2 : before.flatten.length+row.length+(replacement.length-row.length) =
          before.flatten.length+replacement.length := by omega
      rw [h2] at h1
      rw [← endsFrom_shift,endsFrom,endsFrom,map_cons,h1,h2]
    · have hle : ∀ x ∈ endsFrom before.flatten.length (row::after),
          row.length-replacement.length ≤ x := by
        intro x hx
        rcases mem_cons.mp hx with rfl | hx
        · omega
        · have := le_of_mem_endsFrom hx
          omega
      rw [mapM_some (g := (· - (row.length-replacement.length)))
        (fun x hx => by rw [if_neg hgrow,if_pos (hle x hx)])]
      have h2 : before.flatten.length+row.length =
          before.flatten.length+replacement.length+(row.length-replacement.length) := by omega
      rw [endsFrom,endsFrom,h2,← endsFrom_shift,map_cons,map_map]
      simp [Function.comp_def]
  rw [hdrop,hends,htake,hitems]
  simp only [Option.bind_some,pack,endsFrom_append,Nat.zero_add]
  rfl

end Split

theorem rowItems_getElem (rows : List (List α)) (i : ℕ) : (pack rows).rowItems i = rows[i]? := by
  by_cases h : i < rows.length
  · obtain ⟨before,row,after,rfl,rfl⟩ : ∃ before row after,rows = before++row::after ∧
        before.length = i := ⟨rows.take i,rows[i],rows.drop (i+1),by simp,by simp; omega⟩
    rw [rowItems_pack,getElem?_append_right (Nat.le_refl _),Nat.sub_self,getElem?_cons_zero]
  · have hnone : (pack rows).endOffsets[i]? = none := by
      rw [List.getElem?_eq_none_iff,pack,endsFrom_length]
      omega
    rw [rowItems,hnone,getElem?_eq_none (by omega)]
    rfl

theorem replaceRow_set (rows : List (List α)) {i : ℕ} (h : i < rows.length) (replacement : List α) :
    (pack rows).replaceRow i replacement = some (pack (rows.set i replacement)) := by
  obtain ⟨before,row,after,rfl,rfl⟩ : ∃ before row after,rows = before++row::after ∧
      before.length = i := ⟨rows.take i,rows[i],rows.drop (i+1),by simp,by simp; omega⟩
  rw [replaceRow_pack,set_append_right _ _ (Nat.le_refl _),Nat.sub_self,set_cons_zero]

end PackedRows

end Zeppelin
