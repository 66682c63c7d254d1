import Mathlib.Data.List.DropRight
import Mathlib.Tactic.Ring

namespace Zeppelin
open List

def digitOf (c : Char) : ℕ := c.toNat-48

theorem digitOf_lt {c : Char} (h : c.isDigit = true) : digitOf c < 10 := by
  simp only [Char.isDigit,Bool.and_eq_true,decide_eq_true_eq,ge_iff_le] at h
  have hhigh : c.toNat ≤ 57 := h.2
  rw [digitOf]
  omega

def digitsFrom (value : ℕ) (digits : List Char) : ℕ :=
  digits.foldl (fun value c => 10*value+digitOf c) value

def digitsValue (digits : List Char) : ℕ := digitsFrom 0 digits

@[simp] theorem digitsFrom_nil (value : ℕ) : digitsFrom value [] = value := rfl

@[simp] theorem digitsFrom_cons (value : ℕ) (c : Char) (digits : List Char) :
    digitsFrom value (c::digits) = digitsFrom (10*value+digitOf c) digits := by
  rw [digitsFrom,digitsFrom,foldl_cons]

theorem digitsFrom_append (value : ℕ) (a b : List Char) :
    digitsFrom value (a++b) = digitsFrom (digitsFrom value a) b := foldl_append ..

theorem digitsFrom_eq (value : ℕ) (digits : List Char) :
    digitsFrom value digits = value*10^digits.length+digitsValue digits := by
  induction digits generalizing value with
  | nil => simp [digitsValue]
  | cons c digits ih =>
    rw [digitsValue,digitsFrom_cons,digitsFrom_cons,ih,ih (10*0+digitOf c),
      length_cons,pow_succ]
    ring

theorem le_digitsFrom (value : ℕ) (digits : List Char) : value ≤ digitsFrom value digits := by
  rw [digitsFrom_eq]
  have hpos : 0 < 10^digits.length := Nat.pow_pos (by decide)
  exact (Nat.le_mul_of_pos_right value hpos).trans (Nat.le_add_right ..)

theorem digitsValue_append (a b : List Char) :
    digitsValue (a++b) = digitsValue a*10^b.length+digitsValue b := by
  rw [digitsValue,digitsFrom_append,digitsFrom_eq]
  rfl

variable {digits text : List Char} {p : Char → Bool}

theorem digitsValue_lt (h : ∀ c ∈ digits,c.isDigit = true) :
    digitsValue digits < 10^digits.length := by
  induction digits with
  | nil => exact Nat.one_pos
  | cons c digits ih =>
    have hc:=digitOf_lt (h c (mem_cons_self ..))
    have hrest:=ih fun d hd => h d (mem_cons_of_mem _ hd)
    have happend:=digitsValue_append [c] digits
    rw [singleton_append] at happend
    have hhead : digitsValue [c] = digitOf c := by
      rw [digitsValue,digitsFrom_cons,digitsFrom_nil,Nat.mul_zero,Nat.zero_add]
    rw [happend,hhead,length_cons,pow_succ']
    calc digitOf c*10^digits.length+digitsValue digits
        < digitOf c*10^digits.length+10^digits.length := Nat.add_lt_add_left hrest _
      _ = (digitOf c+1)*10^digits.length := by ring
      _ ≤ 10*10^digits.length := Nat.mul_le_mul_right _ hc

theorem digitsValue_take (h : ∀ c ∈ digits,c.isDigit = true) (n : ℕ) :
    digitsValue (digits.take n) = digitsValue digits / 10^(digits.length-n) := by
  have hlow : digitsValue (digits.drop n) < 10^(digits.length-n) := by
    rw [← length_drop]
    exact digitsValue_lt fun c hc => h c (mem_of_mem_drop hc)
  have hsplit:=digitsValue_append (digits.take n) (digits.drop n)
  rw [take_append_drop,length_drop] at hsplit
  have hpos : 0 < 10^(digits.length-n) := Nat.pow_pos (by decide)
  rw [hsplit,Nat.add_comm,Nat.add_mul_div_right _ _ hpos,Nat.div_eq_of_lt hlow,Nat.zero_add]

def splitOnceBy (p : Char → Bool) : List Char → Option (List Char × List Char)
  | [] => none
  | c::rest =>
    if p c then some ([],rest) else (splitOnceBy p rest).map fun (a,b) => (c::a,b)

theorem splitOnceBy_eq_none : splitOnceBy p text = none ↔ ∀ c ∈ text,p c = false := by
  induction text with
  | nil => simp [splitOnceBy]
  | cons c rest ih =>
    rw [splitOnceBy]
    cases hc : p c with
    | true => simp [hc]
    | false => simp [hc,ih]

theorem splitOnceBy_eq_some {a b : List Char} : splitOnceBy p text = some (a,b) ↔
      ∃ c,text = a++c::b ∧ p c = true ∧ ∀ d ∈ a,p d = false := by
  induction text generalizing a with
  | nil => simp [splitOnceBy]
  | cons c rest ih =>
    rw [splitOnceBy]
    cases hc : p c with
    | true =>
      rw [if_pos rfl,Option.some_inj,Prod.mk.injEq]
      constructor
      · intro ⟨ha,hb⟩
        exact ⟨c,by rw [← ha,← hb]; rfl,hc,by simp [← ha]⟩
      · intro ⟨d,htext,hd,hall⟩
        cases a with
        | nil =>
          rw [nil_append,cons_eq_cons] at htext
          exact ⟨rfl,htext.2⟩
        | cons x a =>
          rw [cons_append,cons_eq_cons] at htext
          have hx:=hall x (mem_cons_self ..)
          rw [← htext.1,hc] at hx
          cases hx
    | false =>
      rw [if_neg Bool.false_ne_true,Option.map_eq_some_iff]
      constructor
      · intro ⟨⟨x,y⟩,hsplit,hxy⟩
        simp only [Prod.mk.injEq] at hxy
        rw [hxy.2] at hsplit
        obtain ⟨d,hrest,hd,hall⟩ := ih.mp hsplit
        refine ⟨d,?_,hd,?_⟩
        · rw [← hxy.1,hrest]
          rfl
        · rw [← hxy.1]
          exact forall_mem_cons.mpr ⟨hc,hall⟩
      · intro ⟨d,htext,hd,hall⟩
        cases a with
        | nil =>
          rw [nil_append,cons_eq_cons] at htext
          rw [htext.1,hd] at hc
          cases hc
        | cons x a =>
          rw [cons_append,cons_eq_cons] at htext
          have hsplit:=ih.mpr ⟨d,htext.2,hd,fun e he => hall e (mem_cons_of_mem _ he)⟩
          exact ⟨(a,b),hsplit,by rw [htext.1]⟩

end Zeppelin
