import Zeppelin.Bytes.LittleEndian

namespace Zeppelin.Bitmap
open List

def bytesFor (rows : ℕ) : ℕ := (rows+7) / 8

def mask (row : ℕ) : BitVec 8 := 1#8 <<< (row % 8)

def setBit (bytes : Bytes) (row : ℕ) : Bytes := bytes.modify (row / 8) (· ||| mask row)

def contains (bytes : Bytes) (row : ℕ) : Bool :=
  bytes[row / 8]?.any fun byte => byte &&& mask row ≠ 0

def ofRows (count : ℕ) (rows : List ℕ) : Bytes :=
  rows.foldl setBit (List.replicate (bytesFor count) 0)

def tailClear (count : ℕ) (bytes : Bytes) : Bool :=
  count % 8 = 0 || bytes.getLast?.all fun last => last &&& ~~~(1#8 <<< (count % 8)-1) = 0

theorem mask_test (byte : BitVec 8) (row : ℕ) :
    byte &&& mask row ≠ 0 ↔ byte.getLsbD (row % 8) = true := by
  have h : ∀ k : Fin 8,∀ b : BitVec 8,b &&& 1#8 <<< k.val ≠ 0 ↔ b.getLsbD k.val = true := by
    decide +kernel
  exact h ⟨row % 8,Nat.mod_lt _ (by norm_num)⟩ byte

theorem mask_mask (row other : ℕ) : mask row &&& mask other ≠ 0 ↔ row % 8 = other % 8 := by
  have h : ∀ j k : Fin 8,1#8 <<< j.val &&& 1#8 <<< k.val ≠ 0 ↔ j = k := by decide +kernel
  rw [mask,mask,h ⟨row % 8,Nat.mod_lt _ (by norm_num)⟩ ⟨other % 8,Nat.mod_lt _ (by norm_num)⟩,
    Fin.mk.injEq]

theorem tail_zero : ∀ used : Fin 8,∀ last : BitVec 8,
    (∀ i : Fin 8,used ≤ i → last.getLsbD i.val = false) →
      last &&& ~~~(1#8 <<< used.val-1) = 0 := by
  decide +kernel

theorem setBit_length (bytes : Bytes) (row : ℕ) : (setBit bytes row).length = bytes.length :=
  length_modify ..

theorem contains_setBit (bytes : Bytes) (row other : ℕ) :
    contains (setBit bytes row) other = true ↔
      contains bytes other = true ∨ (other = row ∧ row / 8 < bytes.length) := by
  unfold contains setBit
  rw [getElem?_modify]
  by_cases hbyte : row / 8 = other / 8
  · simp only [hbyte,if_true]
    by_cases hlt : other / 8 < bytes.length
    · rw [getElem?_eq_getElem hlt]
      simp only [Option.map_eq_map,Option.map_some,Option.any_some,decide_eq_true_eq,hlt,
        and_true,mask_test]
      rw [BitVec.getLsbD_or,Bool.or_eq_true,← mask_test (mask row),mask_mask]
      have hsame : row % 8 = other % 8 ↔ other = row := by omega
      rw [hsame]
    · rw [getElem?_eq_none (Nat.le_of_not_lt hlt)]
      simp [hlt]
  · have hne : ¬ other = row := by
      rintro rfl
      exact hbyte rfl
    simp [hbyte,hne]

theorem foldl_setBit_length (rows : List ℕ) (bytes : Bytes) :
    (rows.foldl setBit bytes).length = bytes.length := by
  induction rows generalizing bytes with
  | nil => rfl
  | cons row rows ih => rw [foldl_cons,ih,setBit_length]

theorem contains_foldl (rows : List ℕ) (bytes : Bytes) (other : ℕ) :
    contains (rows.foldl setBit bytes) other = true ↔
      contains bytes other = true ∨ (other ∈ rows ∧ other / 8 < bytes.length) := by
  induction rows generalizing bytes with
  | nil => simp
  | cons row rows ih =>
    rw [foldl_cons,ih,contains_setBit,setBit_length,mem_cons]
    constructor
    · rintro ((h | ⟨rfl,h⟩) | ⟨h,hlt⟩)
      · exact .inl h
      · exact .inr ⟨.inl rfl,h⟩
      · exact .inr ⟨.inr h,hlt⟩
    · rintro (h | ⟨rfl | h,hlt⟩)
      · exact .inl (.inl h)
      · exact .inl (.inr ⟨rfl,hlt⟩)
      · exact .inr ⟨h,hlt⟩

theorem contains_zeros (n row : ℕ) : contains (List.replicate n 0) row = false := by
  unfold contains
  rw [getElem?_replicate]
  split <;> simp

@[simp] theorem ofRows_length (count : ℕ) (rows : List ℕ) :
    (ofRows count rows).length = bytesFor count := by
  rw [ofRows,foldl_setBit_length,length_replicate]

theorem contains_ofRows {count row : ℕ} {rows : List ℕ} (h : row < count) :
    contains (ofRows count rows) row = true ↔ row ∈ rows := by
  have hlt : row / 8 < bytesFor count := by
    unfold bytesFor
    omega
  rw [ofRows,contains_foldl,contains_zeros,length_replicate]
  simp [hlt]

theorem tailClear_ofRows {count : ℕ} {rows : List ℕ} (h : ∀ row ∈ rows,row < count) :
    tailClear count (ofRows count rows) = true := by
  unfold tailClear
  rw [Bool.or_eq_true,decide_eq_true_eq]
  by_cases hcount : count % 8 = 0
  · exact .inl hcount
  · right
    have hindex : (ofRows count rows).length-1 = count / 8 := by
      rw [ofRows_length,bytesFor]
      omega
    rw [getLast?_eq_getElem?,hindex]
    cases hlast : (ofRows count rows)[count / 8]? with
    | none => rfl
    | some last =>
      rw [Option.all_some,decide_eq_true_eq]
      refine tail_zero ⟨count % 8,Nat.mod_lt _ (by norm_num)⟩ last fun i hi => ?_
      -- Bit `i` of the last byte is a row behind the last one.
      have hrow : contains (ofRows count rows) (count / 8*8+i.val) = false := by
        rw [← Bool.not_eq_true,ofRows,contains_foldl,contains_zeros]
        rintro (hfalse | ⟨hmem,-⟩)
        · cases hfalse
        · have hlt:=h _ hmem
          have hi' : count % 8 ≤ i.val := hi
          omega
      have hdiv : (count / 8*8+i.val) / 8 = count / 8 := by omega
      have hmod : (count / 8*8+i.val) % 8 = i.val := by omega
      unfold contains at hrow
      rw [hdiv,hlast,Option.any_some,decide_eq_false_iff_not,mask_test,hmod] at hrow
      exact Bool.eq_false_of_not_eq_true hrow

end Zeppelin.Bitmap
