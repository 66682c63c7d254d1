import Zeppelin.Collections.Decimal
import Zeppelin.Query.Value

/-! property_graph/query/scalar.rs -/

namespace Zeppelin.Query
open List

def isWhitespace (c : Char) : Bool :=
  let n:=c.toNat
  (0x9 ≤ n ∧ n ≤ 0xd) ∨ n = 0x20 ∨ n = 0x85 ∨ n = 0xa0 ∨ n = 0x1680 ∨ (0x2000 ≤ n ∧ n ≤ 0x200a) ∨
    n = 0x2028 ∨ n = 0x2029 ∨ n = 0x202f ∨ n = 0x205f ∨ n = 0x3000

def trim (text : List Char) : List Char :=
  (text.dropWhile isWhitespace).rdropWhile isWhitespace

/-- Whether the text starts with `-`, and what stands behind its sign. -/
def splitSign : List Char → Bool × List Char
  | [] => (false,[])
  | c::rest =>
    if c = '-' then (true,rest)
    else if c = '+' then (false,rest)
    else (false,c::rest)

def signed (negative : Bool) (magnitude : ℕ) : ℤ := if negative then -magnitude else magnitude

/-- `str::parse::<i32>`: an optional sign and at least one digit, inside the range. -/
def parseI32 (text : List Char) : Option ℤ :=
  let (negative,digits) := splitSign text
  let value:=signed negative (digitsValue digits)
  if digits ≠ [] ∧ digits.all Char.isDigit ∧ -2^31 ≤ value ∧ value < 2^31 then some value
  else none

def isExponentMark (c : Char) : Bool := c = 'e' ∨ c = 'E'

def isPoint (c : Char) : Bool := c = '.'

structure DecimalParts where
  negative : Bool
  whole : List Char
  fraction : List Char
  exponent : ℤ
  deriving DecidableEq

def splitExponent (text : List Char) : Option (List Char × ℤ) :=
  match splitOnceBy isExponentMark text with
  | some (mantissa,exponent) => (parseI32 exponent).map fun exponent => (mantissa,exponent)
  | none => some (text,0)

/-- The first half of `decimal_integer`, behind `trim`. -/
def decimalParts (text : List Char) : Option DecimalParts :=
  let (negative,text) := splitSign text
  match splitExponent text with
  | none => none
  | some (mantissa,exponent) =>
    let (whole,fraction) := (splitOnceBy isPoint mantissa).getD (mantissa,[])
    if (whole = [] ∧ fraction = []) ∨ ¬ (whole++fraction).all Char.isDigit then none
    else some ⟨negative,whole,fraction,exponent⟩

def checkedI64 (value : ℤ) : Except QueryError ℤ :=
  if -2^63 ≤ value ∧ value < 2^63 then .ok value else .error .arithmeticOverflow

/-- The digits are taken off, so that `i64::MIN` can be reached. -/
def accumulate : ℤ → List Char → Except QueryError ℤ
  | value,[] => .ok value
  | value,c::digits => do
    let value ← checkedI64 (value*10)
    let value ← checkedI64 (value-digitOf c)
    accumulate value digits

def appendZeros : ℕ → ℤ → Except QueryError ℤ
  | 0,value => .ok value
  | zeros+1,value => do
    let value ← checkedI64 (value*10)
    appendZeros zeros value

def fillToPoint (zeros : ℕ) (value : ℤ) : Except QueryError ℤ :=
  if value ≠ 0 then
    if zeros > 18 then .error .arithmeticOverflow else appendZeros zeros value
  else .ok value

/-- The second half of `decimal_integer`. -/
def decimalValue (parts : DecimalParts) : Except QueryError Int64 :=
  let point : ℤ := parts.whole.length+parts.exponent
  if point ≤ 0 then .ok 0
  else do
    let digits:=(parts.whole++parts.fraction).take point.toNat
    let value ← accumulate 0 digits
    let value ← fillToPoint (point.toNat-digits.length) value
    let value ← checkedI64 (if parts.negative then value else -value)
    .ok (Int64.ofInt value)

def decimalInteger (text : List Char) : Except QueryError (Option Int64) :=
  match decimalParts (trim text) with
  | none => .ok none
  | some parts => some <$> decimalValue parts

def Digits (digits : List Char) : Prop := ∀ c ∈ digits,c.isDigit = true

inductive Sign : List Char → Bool → Prop
  | none : Sign [] false
  | plus : Sign ['+'] false
  | minus : Sign ['-'] true

inductive MantissaText : List Char → List Char → List Char → Prop
  | whole (whole : List Char) : MantissaText whole whole []
  | point (whole fraction : List Char) : MantissaText (whole ++ '.' :: fraction) whole fraction

/-- An optional sign and at least one digit, with a value of 32 bits. -/
structure SignedDigits (text : List Char) (value : ℤ) : Prop where
  reads : ∃ sign digits negative,text = sign++digits ∧ Sign sign negative ∧ digits ≠ [] ∧
    Digits digits ∧ value = signed negative (digitsValue digits)
  low : -2^31 ≤ value
  high : value < 2^31

inductive ExponentText : List Char → ℤ → Prop
  | none : ExponentText [] 0
  | some {mark : Char} {text : List Char} {value : ℤ} (hmark : mark = 'e' ∨ mark = 'E')
      (hvalue : SignedDigits text value) : ExponentText (mark::text) value

structure Numeral (text : List Char) (parts : DecimalParts) : Prop where
  reads : ∃ sign mantissa exponent,text = sign++(mantissa++exponent) ∧
    Sign sign parts.negative ∧ MantissaText mantissa parts.whole parts.fraction ∧
    ExponentText exponent parts.exponent
  digits : Digits (parts.whole++parts.fraction)
  nonempty : parts.whole++parts.fraction ≠ []

def DecimalParts.value (parts : DecimalParts) : ℚ :=
  (if parts.negative then -1 else 1)*digitsValue (parts.whole++parts.fraction)*
    10^(parts.exponent-parts.fraction.length)

theorem ne_of_isDigit {c d : Char} (hc : c.isDigit = true) (hd : d.isDigit = false) : c ≠ d := by
  intro heq
  rw [heq,hd] at hc
  cases hc

variable {digits text mantissa whole fraction : List Char} {parts : DecimalParts}

theorem Digits.not_mark (h : Digits digits) : ∀ c ∈ digits,isExponentMark c = false := by
  intro c hc
  have he:=ne_of_isDigit (h c hc) (d := 'e') (by decide)
  have hE:=ne_of_isDigit (h c hc) (d := 'E') (by decide)
  rw [isExponentMark,decide_eq_false_iff_not]
  exact not_or.mpr ⟨he,hE⟩

theorem Digits.not_point (h : Digits digits) : ∀ c ∈ digits,isPoint c = false := by
  intro c hc
  rw [isPoint,decide_eq_false_iff_not]
  exact ne_of_isDigit (h c hc) (by decide)

variable {rest : List Char} {negative : Bool} {magnitude : ℕ}

theorem splitSign_eq
    (h : splitSign text = (negative,rest)) : ∃ sign,text = sign++rest ∧ Sign sign negative := by
  cases text with
  | nil =>
    rw [splitSign,Prod.mk.injEq] at h
    exact ⟨[],by rw [← h.2]; rfl,h.1 ▸ Sign.none⟩
  | cons c text =>
    rw [splitSign] at h
    split_ifs at h with hminus hplus
    · rw [Prod.mk.injEq] at h
      exact ⟨['-'],by rw [← h.2,hminus]; rfl,h.1 ▸ Sign.minus⟩
    · rw [Prod.mk.injEq] at h
      exact ⟨['+'],by rw [← h.2,hplus]; rfl,h.1 ▸ Sign.plus⟩
    · rw [Prod.mk.injEq] at h
      exact ⟨[],by rw [← h.2]; rfl,h.1 ▸ Sign.none⟩

theorem splitSign_append {sign : List Char} (h : Sign sign negative)
    (hrest : ∀ c more,rest = c::more → c ≠ '-' ∧ c ≠ '+') :
    splitSign (sign++rest) = (negative,rest) := by
  cases h with
  | minus => rfl
  | plus => rfl
  | none =>
    rw [nil_append]
    cases rest with
    | nil => rfl
    | cons c more =>
      obtain ⟨hminus,hplus⟩ := hrest c more rfl
      rw [splitSign,if_neg hminus,if_neg hplus]

theorem Digits.no_sign (h : Digits digits) (hne : digits ≠ []) (rest : List Char) :
    ∀ c more,digits++rest = c::more → c ≠ '-' ∧ c ≠ '+' := by
  intro c more heq
  cases digits with
  | nil => exact absurd rfl hne
  | cons d digits =>
    rw [cons_append,cons_eq_cons] at heq
    have hdigit:=h d (mem_cons_self ..)
    rw [heq.1] at hdigit
    exact ⟨ne_of_isDigit hdigit (by decide),ne_of_isDigit hdigit (by decide)⟩

theorem parseI32_iff {value : ℤ} : parseI32 text = some value ↔ SignedDigits text value := by
  constructor
  · intro h
    cases hsplit : splitSign text with
    | mk negative digits =>
      simp only [parseI32,hsplit,Option.ite_none_right_eq_some,Option.some_inj,
        all_eq_true] at h
      obtain ⟨⟨hne,hdigits,hlow,hhigh⟩,rfl⟩ := h
      obtain ⟨sign,htext,hsign⟩ := splitSign_eq hsplit
      exact ⟨⟨sign,digits,negative,htext,hsign,hne,hdigits,rfl⟩,hlow,hhigh⟩
  · intro ⟨⟨sign,digits,negative,htext,hsign,hne,hdigits,hvalue⟩,hlow,hhigh⟩
    have hstart:=hdigits.no_sign hne []
    rw [append_nil] at hstart
    rw [hvalue] at hlow hhigh
    simp only [parseI32,htext,splitSign_append hsign hstart,Option.ite_none_right_eq_some,
      Option.some_inj,all_eq_true]
    exact ⟨⟨hne,hdigits,hlow,hhigh⟩,hvalue.symm⟩

theorem splitExponent_eq {value : ℤ} (h : splitExponent text = some (mantissa,value)) :
    ∃ exponent,text = mantissa++exponent ∧ ExponentText exponent value := by
  rw [splitExponent] at h
  cases hsplit : splitOnceBy isExponentMark text with
  | none =>
    simp only [hsplit,Option.some_inj,Prod.mk.injEq] at h
    exact ⟨[],by rw [h.1,append_nil],h.2 ▸ ExponentText.none⟩
  | some pair =>
    obtain ⟨before,behind⟩ := pair
    simp only [hsplit,Option.map_eq_some_iff,Prod.mk.injEq] at h
    obtain ⟨read,hread,hbefore,hvalue⟩ := h
    obtain ⟨mark,htext,hmark,-⟩ := splitOnceBy_eq_some.mp hsplit
    rw [isExponentMark,decide_eq_true_eq] at hmark
    rw [hvalue] at hread
    exact ⟨mark::behind,by rw [htext,hbefore],.some hmark (parseI32_iff.mp hread)⟩

theorem splitExponent_append {exponent : List Char} {value : ℤ}
    (hmantissa : ∀ c ∈ mantissa,isExponentMark c = false) (h : ExponentText exponent value) :
    splitExponent (mantissa++exponent) = some (mantissa,value) := by
  cases h with
  | none =>
    rw [append_nil,splitExponent,splitOnceBy_eq_none.mpr hmantissa]
  | @some mark text _ hmark hvalue =>
    have hsplit : splitOnceBy isExponentMark (mantissa++mark::text) = some (mantissa,text) :=
      splitOnceBy_eq_some.mpr ⟨mark,rfl,decide_eq_true hmark,hmantissa⟩
    rw [splitExponent,hsplit]
    simp only [parseI32_iff.mpr hvalue,Option.map_some]

theorem splitPoint_eq (h : (splitOnceBy isPoint mantissa).getD (mantissa,[]) = (whole,fraction)) :
    MantissaText mantissa whole fraction := by
  cases hsplit : splitOnceBy isPoint mantissa with
  | none =>
    rw [hsplit,Option.getD_none,Prod.mk.injEq] at h
    rw [← h.1,← h.2]
    exact .whole mantissa
  | some pair =>
    rw [hsplit,Option.getD_some] at h
    rw [h] at hsplit
    obtain ⟨point,htext,hpoint,-⟩ := splitOnceBy_eq_some.mp hsplit
    rw [isPoint,decide_eq_true_eq] at hpoint
    rw [htext,hpoint]
    exact .point whole fraction

theorem splitPoint_of (h : MantissaText mantissa whole fraction) (hwhole : Digits whole) :
    (splitOnceBy isPoint mantissa).getD (mantissa,[]) = (whole,fraction) := by
  cases h with
  | whole => rw [splitOnceBy_eq_none.mpr hwhole.not_point,Option.getD_none]
  | point =>
    have hsplit : splitOnceBy isPoint (whole ++ '.' :: fraction) = some (whole,fraction) :=
      splitOnceBy_eq_some.mpr ⟨'.',rfl,by decide,hwhole.not_point⟩
    rw [hsplit,Option.getD_some]

theorem MantissaText.not_mark
    (h : MantissaText mantissa whole fraction) (hdigits : Digits (whole++fraction)) :
    ∀ c ∈ mantissa,isExponentMark c = false := by
  intro c hc
  cases h with
  | whole =>
    rw [append_nil] at hdigits
    exact hdigits.not_mark c hc
  | point =>
    rcases mem_append.mp hc with hc | hc
    · exact hdigits.not_mark c (mem_append_left _ hc)
    · rcases mem_cons.mp hc with rfl | hc
      · decide
      · exact hdigits.not_mark c (mem_append_right _ hc)

theorem MantissaText.no_sign
    (h : MantissaText mantissa whole fraction) (hdigits : Digits (whole++fraction))
    (hne : whole++fraction ≠ []) (rest : List Char) :
    ∀ c more,mantissa++rest = c::more → c ≠ '-' ∧ c ≠ '+' := by
  intro c more heq
  cases h with
  | whole =>
    rw [append_nil] at hdigits hne
    exact hdigits.no_sign hne rest c more heq
  | point =>
    by_cases hwhole : whole = []
    · rw [hwhole,nil_append,cons_append,cons_eq_cons] at heq
      rw [← heq.1]
      decide
    · rw [append_assoc] at heq
      have hleft : Digits whole := fun d hd => hdigits d (mem_append_left _ hd)
      exact hleft.no_sign hwhole _ c more heq

theorem decimalParts_iff : decimalParts text = some parts ↔ Numeral text parts := by
  constructor
  · intro h
    cases hsign : splitSign text with
    | mk negative rest =>
      cases hexponent : splitExponent rest with
      | none => simp [decimalParts,hsign,hexponent] at h
      | some pair =>
        obtain ⟨mantissa,value⟩ := pair
        cases hpoint : (splitOnceBy isPoint mantissa).getD (mantissa,[]) with
        | mk whole fraction =>
          simp only [decimalParts,hsign,hexponent,hpoint,Option.ite_none_left_eq_some,
            Option.some_inj,not_or,not_not,all_eq_true] at h
          obtain ⟨⟨hempty,hdigits⟩,rfl⟩ := h
          obtain ⟨sign,htext,hsignText⟩ := splitSign_eq hsign
          obtain ⟨exponent,hrest,hexponentText⟩ := splitExponent_eq hexponent
          rw [hrest] at htext
          have hne : whole++fraction ≠ [] := fun hnil => hempty (append_eq_nil_iff.mp hnil)
          exact ⟨⟨sign,mantissa,exponent,htext,hsignText,splitPoint_eq hpoint,hexponentText⟩,
            hdigits,hne⟩
  · intro ⟨⟨sign,mantissa,exponent,htext,hsign,hmantissa,hexponent⟩,hdigits,hne⟩
    have hsplitSign:=splitSign_append hsign (hmantissa.no_sign hdigits hne exponent)
    have hsplitExponent:=splitExponent_append (hmantissa.not_mark hdigits) hexponent
    have hsplitPoint:=splitPoint_of hmantissa fun c hc => hdigits c (mem_append_left _ hc)
    simp only [decimalParts,htext,hsplitSign,hsplitExponent,hsplitPoint,
      Option.ite_none_left_eq_some,not_or,not_not,all_eq_true,and_true]
    exact ⟨fun hnil => hne (append_eq_nil_iff.mpr hnil),hdigits⟩

/-- The negative accumulator after a step, which fails below `i64::MIN`. -/
def negated (magnitude : ℕ) : Except QueryError ℤ :=
  if magnitude ≤ 2^63 then .ok (-magnitude) else .error .arithmeticOverflow

theorem checkedI64_neg (magnitude : ℕ) : checkedI64 (-(magnitude : ℤ)) = negated magnitude := by
  rw [checkedI64,negated]
  by_cases h : magnitude ≤ 2^63
  · rw [if_pos h,if_pos (by omega)]
  · rw [if_neg h,if_neg (by omega)]

theorem negated_of_lt (h : 2^63 < magnitude) :
    negated magnitude = .error .arithmeticOverflow := if_neg (by omega)

theorem negated_of_le (h : magnitude ≤ 2^63) :
    negated magnitude = .ok (-(magnitude : ℤ)) := if_pos h

theorem accumulate_neg (magnitude : ℕ) (digits : List Char) (h : magnitude ≤ 2^63) :
    accumulate (-magnitude) digits = negated (digitsFrom magnitude digits) := by
  induction digits generalizing magnitude with
  | nil => rw [accumulate,digitsFrom_nil,negated_of_le h]
  | cons c digits ih =>
    have htimes : -(magnitude : ℤ)*10 = -((10*magnitude : ℕ) : ℤ) := by
      push_cast
      ring
    have hgrow:=le_digitsFrom (10*magnitude+digitOf c) digits
    rw [accumulate,digitsFrom_cons,htimes,checkedI64_neg]
    by_cases hten : 10*magnitude ≤ 2^63
    · have hdigit : -((10*magnitude : ℕ) : ℤ)-digitOf c =
          -((10*magnitude+digitOf c : ℕ) : ℤ) := by
        push_cast
        ring
      rw [negated_of_le hten,ok_bind,hdigit,checkedI64_neg]
      by_cases hnext : 10*magnitude+digitOf c ≤ 2^63
      · rw [negated_of_le hnext,ok_bind,ih _ hnext]
      · rw [negated_of_lt (by omega),negated_of_lt (by omega),error_bind]
    · rw [negated_of_lt (by omega),negated_of_lt (by omega),error_bind]

theorem appendZeros_neg (zeros magnitude : ℕ) (h : magnitude ≤ 2^63) :
    appendZeros zeros (-magnitude) = negated (magnitude*10^zeros) := by
  induction zeros generalizing magnitude with
  | zero => rw [appendZeros,pow_zero,Nat.mul_one,negated_of_le h]
  | succ zeros ih =>
    have htimes : -(magnitude : ℤ)*10 = -((magnitude*10 : ℕ) : ℤ) := by
      push_cast
      ring
    have hpow : magnitude*10^(zeros+1) = magnitude*10*10^zeros := by
      rw [pow_succ]
      ring
    rw [appendZeros,htimes,checkedI64_neg,hpow]
    by_cases hten : magnitude*10 ≤ 2^63
    · rw [negated_of_le hten,ok_bind,ih _ hten]
    · have hgrow : magnitude*10 ≤ magnitude*10*10^zeros :=
        Nat.le_mul_of_pos_right _ (Nat.pow_pos (by decide))
      rw [negated_of_lt (by omega),negated_of_lt (by omega),error_bind]

theorem fillToPoint_neg (zeros magnitude : ℕ) (h : magnitude ≤ 2^63) :
    fillToPoint zeros (-magnitude) = negated (magnitude*10^zeros) := by
  rw [fillToPoint]
  by_cases hzero : magnitude = 0
  · rw [hzero,Nat.zero_mul,negated_of_le (by decide),if_neg (by simp)]
  · rw [if_pos (by simpa using hzero)]
    by_cases hmany : zeros > 18
    · have hpow : 10^19 ≤ 10^zeros := Nat.pow_le_pow_right (by decide) hmany
      have hgrow : 10^zeros ≤ magnitude*10^zeros :=
        Nat.le_mul_of_pos_left _ (Nat.pos_of_ne_zero hzero)
      have hlarge : 2^63 < magnitude*10^zeros :=
        lt_of_lt_of_le (by norm_num) (hpow.trans hgrow)
      rw [if_pos hmany,negated_of_lt hlarge]
    · rw [if_neg hmany,appendZeros_neg zeros magnitude h]

def wholeMagnitude (parts : DecimalParts) : ℕ :=
  let digits:=parts.whole++parts.fraction
  let point:=(parts.whole.length+parts.exponent).toNat
  digitsValue (digits.take point)*10^(point-digits.length)

theorem digitsValue_nil : digitsValue [] = 0 := rfl

theorem decimalValue_eq (parts : DecimalParts) :
    decimalValue parts =
      if -2^63 ≤ signed parts.negative (wholeMagnitude parts) ∧
          signed parts.negative (wholeMagnitude parts) < 2^63 then
        .ok (Int64.ofInt (signed parts.negative (wholeMagnitude parts)))
      else .error .arithmeticOverflow := by
  by_cases hpoint : (parts.whole.length : ℤ)+parts.exponent ≤ 0
  · have hzero : wholeMagnitude parts = 0 := by
      rw [wholeMagnitude,Int.toNat_of_nonpos hpoint,take_zero,digitsValue_nil,Nat.zero_mul]
    simp only [decimalValue]
    rw [if_pos hpoint,hzero]
    cases parts.negative <;> rfl
  · simp only [decimalValue]
    rw [if_neg hpoint]
    generalize hp : ((parts.whole.length : ℤ)+parts.exponent).toNat = point
    generalize hd : parts.whole++parts.fraction = digits
    have hmagnitude : wholeMagnitude parts =
        digitsValue (digits.take point)*10^(point-digits.length) := by
      simp only [wholeMagnitude,hp,hd]
    have hzeros : point-(digits.take point).length = point-digits.length := by
      rw [length_take]
      omega
    have hstart:=accumulate_neg 0 (digits.take point) (Nat.zero_le _)
    rw [Nat.cast_zero,neg_zero] at hstart
    have hgrow : digitsValue (digits.take point) ≤ wholeMagnitude parts := by
      rw [hmagnitude]
      exact Nat.le_mul_of_pos_right _ (Nat.pow_pos (by decide))
    rw [hstart,hzeros,← digitsValue]
    by_cases hread : digitsValue (digits.take point) ≤ 2^63
    · rw [negated_of_le hread,ok_bind,fillToPoint_neg _ _ hread,← hmagnitude]
      by_cases hfill : wholeMagnitude parts ≤ 2^63
      · rw [negated_of_le hfill,ok_bind]
        cases hsign : parts.negative with
        | true =>
          rw [if_pos rfl,signed,if_pos rfl,checkedI64_neg,negated_of_le hfill,ok_bind,
            if_pos (by omega)]
        | false =>
          rw [if_neg Bool.false_ne_true,signed,if_neg Bool.false_ne_true,neg_neg,checkedI64]
          split_ifs
          · rfl
          · rfl
      · rw [negated_of_lt (by omega),error_bind,if_neg]
        rw [signed]
        split_ifs <;> omega
    · rw [negated_of_lt (by omega),error_bind,if_neg]
      rw [signed]
      split_ifs <;> omega

theorem floor_magnitude (h : Digits (parts.whole++parts.fraction)) :
    ⌊(digitsValue (parts.whole++parts.fraction) : ℚ)*
      10^(parts.exponent-parts.fraction.length)⌋ = wholeMagnitude parts := by
  have hten : (10 : ℚ) ≠ 0 := by norm_num
  have hlength : (parts.whole++parts.fraction).length =
      parts.whole.length+parts.fraction.length := length_append
  rw [wholeMagnitude]
  generalize parts.whole++parts.fraction = digits at *
  have hvalue:=digitsValue_lt h
  by_cases hpoint : (parts.whole.length : ℤ)+parts.exponent ≤ 0
  · rw [Int.toNat_of_nonpos hpoint,take_zero,digitsValue_nil,Nat.zero_mul,Nat.cast_zero,
      Int.floor_eq_zero_iff]
    refine ⟨mul_nonneg (Nat.cast_nonneg _) (zpow_nonneg (by norm_num) _),?_⟩
    have hcast : (digitsValue digits : ℚ) < 10^(digits.length : ℤ) := by exact_mod_cast hvalue
    calc (digitsValue digits : ℚ)*10^(parts.exponent-parts.fraction.length)
        < 10^(digits.length : ℤ)*10^(parts.exponent-parts.fraction.length) :=
          mul_lt_mul_of_pos_right hcast (zpow_pos (by norm_num) _)
      _ = 10^((digits.length : ℤ)+(parts.exponent-parts.fraction.length)) :=
          (zpow_add₀ hten _ _).symm
      _ ≤ 10^(0 : ℤ) := zpow_le_zpow_right₀ (by norm_num) (by omega)
      _ = 1 := zpow_zero _
  · obtain ⟨point,hp⟩ := Int.eq_ofNat_of_zero_le (not_le.mp hpoint).le
    rw [hp,Int.toNat_natCast]
    by_cases hinside : point ≤ digits.length
    · have hexponent : parts.exponent-parts.fraction.length =
          -((digits.length-point : ℕ) : ℤ) := by omega
      rw [hexponent,zpow_neg,zpow_natCast,Nat.sub_eq_zero_of_le hinside,pow_zero,Nat.mul_one,
        digitsValue_take h,← div_eq_mul_inv]
      have hfloor:=Rat.floor_natCast_div_natCast (digitsValue digits) (10^(digits.length-point))
      push_cast at hfloor ⊢
      exact hfloor
    · have hexponent : parts.exponent-parts.fraction.length =
          ((point-digits.length : ℕ) : ℤ) := by omega
      rw [hexponent,zpow_natCast,take_of_length_le (by omega)]
      exact_mod_cast Int.floor_natCast (R := ℚ) _

theorem truncate_neg (value : ℚ) : truncate (-value) = -truncate value := by
  rw [truncate,truncate]
  rcases lt_trichotomy value 0 with h | h | h
  · rw [if_pos (by linarith),if_neg (by linarith),Int.floor_neg]
  · rw [h]
    simp
  · rw [if_neg (by linarith),if_pos h.le,Int.ceil_neg]

theorem truncate_value (h : Digits (parts.whole++parts.fraction)) :
    truncate parts.value = signed parts.negative (wholeMagnitude parts) := by
  have hfloor:=floor_magnitude h
  have hnonneg : (0 : ℚ) ≤ digitsValue (parts.whole++parts.fraction)*
      10^(parts.exponent-parts.fraction.length) :=
    mul_nonneg (Nat.cast_nonneg _) (zpow_nonneg (by norm_num) _)
  rw [DecimalParts.value,signed]
  cases parts.negative with
  | true =>
    rw [if_pos rfl,if_pos rfl,mul_assoc,neg_one_mul,truncate_neg,truncate,if_pos hnonneg,
      hfloor]
  | false =>
    rw [if_neg Bool.false_ne_true,if_neg Bool.false_ne_true,one_mul,truncate,if_pos hnonneg,
      hfloor]

/-- No integer for exactly the texts that are no numeral; any other text gives its value cut
towards zero, or an overflow when that leaves 64 bits. -/
theorem decimalInteger_exact (text : List Char) :
    (decimalInteger text = .ok none ↔ ¬ ∃ parts,Numeral (trim text) parts) ∧
    ∀ parts,Numeral (trim text) parts →
      decimalInteger text =
        if -2^63 ≤ truncate parts.value ∧ truncate parts.value < 2^63 then
          .ok (some (Int64.ofInt (truncate parts.value)))
        else .error .arithmeticOverflow := by
  have hread : ∀ parts,Numeral (trim text) parts →
      decimalInteger text =
        if -2^63 ≤ truncate parts.value ∧ truncate parts.value < 2^63 then
          .ok (some (Int64.ofInt (truncate parts.value)))
        else .error .arithmeticOverflow := by
    intro parts hparts
    rw [decimalInteger,decimalParts_iff.mpr hparts]
    simp only [decimalValue_eq,truncate_value hparts.digits]
    split_ifs
    · rfl
    · rfl
  refine ⟨?_,hread⟩
  constructor
  · intro hnone ⟨parts,hparts⟩
    rw [hread parts hparts] at hnone
    split_ifs at hnone
    cases hnone
  · intro hno
    cases hparts : decimalParts (trim text) with
    | none => rw [decimalInteger,hparts]
    | some parts => exact absurd ⟨parts,decimalParts_iff.mp hparts⟩ hno

theorem decimalInteger_exact_at_fraction :
    decimalInteger [' ','-','1','.','5','7','e','1'] = .ok (some (Int64.ofInt (-15))) := by
  have hparts : Numeral (trim [' ','-','1','.','5','7','e','1'])
      ⟨true,['1'],['5','7'],1⟩ := decimalParts_iff.mp (by decide +kernel)
  have hvalue : truncate (DecimalParts.value ⟨true,['1'],['5','7'],1⟩) = -15 := by
    rw [truncate_value hparts.digits]
    decide +kernel
  rw [(decimalInteger_exact _).2 _ hparts,hvalue,if_pos (by decide)]

end Zeppelin.Query
