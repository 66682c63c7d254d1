import Zeppelin.Query.Value

namespace Zeppelin.Query
open List

theorem compare_congr {α β : Type} [LinearOrder α] [LinearOrder β] {a b : α} {c d : β}
    (hlt : a < b ↔ c < d) (hgt : b < a ↔ d < c) : compare a b = compare c d := by
  rcases lt_trichotomy a b with h | h | h
  · rw [compare_lt_iff_lt.mpr h,compare_lt_iff_lt.mpr (hlt.mp h)]
  · have : c = d := le_antisymm (not_lt.mp (hgt.not.mp h.not_gt)) (not_lt.mp (hlt.not.mp h.not_lt))
    rw [compare_eq_iff_eq.mpr h,compare_eq_iff_eq.mpr this]
  · rw [compare_gt_iff_gt.mpr h,compare_gt_iff_gt.mpr (hgt.mp h)]

theorem compare_natCast (a b : ℕ) : compare (a : ℚ) (b : ℚ) = compare a b :=
  compare_congr Nat.cast_lt Nat.cast_lt

theorem compare_neg (a b : ℚ) : compare (-a) (-b) = compare b a :=
  compare_congr neg_lt_neg_iff neg_lt_neg_iff

theorem compare_swap (a b : ℚ) : (compare a b).swap = compare b a := by
  rcases lt_trichotomy a b with h | h | h
  · rw [compare_lt_iff_lt.mpr h,compare_gt_iff_gt.mpr h]
    rfl
  · rw [h,compare_eq_iff_eq.mpr rfl]
    rfl
  · rw [compare_gt_iff_gt.mpr h,compare_lt_iff_lt.mpr h]
    rfl

theorem compare_mul_div (magnitude significand : ℕ) {d : ℕ} (hd : 0 < d) :
    (compare magnitude (significand / d)).then (if significand % d ≠ 0 then .lt else .eq) =
      compare (magnitude*d) significand := by
  have hsplit:=Nat.div_add_mod significand d
  have hrem:=Nat.mod_lt significand hd
  rw [Nat.mul_comm d] at hsplit
  rcases Nat.lt_trichotomy magnitude (significand / d) with h | h | h
  · rw [compare_lt_iff_lt.mpr h]
    symm
    apply compare_lt_iff_lt.mpr
    have hle:=Nat.mul_le_mul_right d (Nat.succ_le_of_lt h)
    rw [Nat.succ_mul] at hle
    omega
  · rw [compare_eq_iff_eq.mpr h,Ordering.eq_then,h]
    split_ifs with hzero
    · exact (compare_lt_iff_lt.mpr (by omega)).symm
    · exact (compare_eq_iff_eq.mpr (by omega)).symm
  · rw [compare_gt_iff_gt.mpr h]
    symm
    apply compare_gt_iff_gt.mpr
    have hle:=Nat.mul_le_mul_right d (Nat.succ_le_of_lt h)
    rw [Nat.succ_mul] at hle
    show significand < magnitude*d
    omega

theorem floatFraction_lt (bits : UInt64) : floatFraction bits < 2^52 :=
  Nat.mod_lt _ (by decide)

theorem significand_lt (bits : UInt64) : significand bits < 2^53 := by
  have := floatFraction_lt bits
  rw [significand]
  omega

theorem two_zpow_pos (exponent : ℤ) : (0 : ℚ) < 2^exponent := zpow_pos (by decide) exponent

variable {bits : UInt64} {value : ℤ}

theorem floatMagnitude_normal (h : floatExponent bits ≠ 0) :
    floatMagnitude bits = significand bits*2^((floatExponent bits : ℤ)-1075) :=
  if_neg h

theorem floatMagnitude_nonneg (bits : UInt64) : 0 ≤ floatMagnitude bits := by
  rw [floatMagnitude]
  split_ifs
  · exact mul_nonneg (Nat.cast_nonneg _) (two_zpow_pos _).le
  · exact mul_nonneg (Nat.cast_nonneg _) (two_zpow_pos _).le

theorem floatMagnitude_lt_one (h : floatExponent bits < 1023) : floatMagnitude bits < 1 := by
  have hfraction : (floatFraction bits : ℚ) < 2^(52 : ℤ) := by
    exact_mod_cast floatFraction_lt bits
  by_cases hexp : floatExponent bits = 0
  · rw [floatMagnitude,if_pos hexp]
    calc (floatFraction bits : ℚ)*2^(-1074 : ℤ)
        < 2^(52 : ℤ)*2^(-1074 : ℤ) := mul_lt_mul_of_pos_right hfraction (two_zpow_pos _)
      _ = 2^((52 : ℤ) + -1074) := (zpow_add₀ two_ne_zero _ _).symm
      _ ≤ 2^(0 : ℤ) := zpow_le_zpow_right₀ one_le_two (by decide)
      _ = 1 := zpow_zero _
  · have hsig : (significand bits : ℚ) < 2^(53 : ℤ) := by exact_mod_cast significand_lt bits
    rw [floatMagnitude_normal hexp]
    calc (significand bits : ℚ)*2^((floatExponent bits : ℤ)-1075)
        < 2^(53 : ℤ)*2^((floatExponent bits : ℤ)-1075) :=
          mul_lt_mul_of_pos_right hsig (two_zpow_pos _)
      _ = 2^((53 : ℤ)+((floatExponent bits : ℤ)-1075)) := (zpow_add₀ two_ne_zero _ _).symm
      _ ≤ 2^(0 : ℤ) := zpow_le_zpow_right₀ one_le_two (by omega)
      _ = 1 := zpow_zero _

theorem le_significand (bits : UInt64) : 2^52 ≤ significand bits := Nat.le_add_left ..

theorem le_floatMagnitude (h : 1087 ≤ floatExponent bits) : 2^(64 : ℤ) ≤ floatMagnitude bits := by
  have hsig : (2^(52 : ℤ) : ℚ) ≤ significand bits := by exact_mod_cast le_significand bits
  rw [floatMagnitude_normal (by omega)]
  calc (2^(64 : ℤ) : ℚ) ≤ 2^((52 : ℤ)+((floatExponent bits : ℤ)-1075)) :=
      zpow_le_zpow_right₀ one_le_two (by omega)
    _ = 2^(52 : ℤ)*2^((floatExponent bits : ℤ)-1075) := zpow_add₀ two_ne_zero _ _
    _ ≤ significand bits*2^((floatExponent bits : ℤ)-1075) :=
      mul_le_mul_of_nonneg_right hsig (two_zpow_pos _).le

theorem magnitudeOrder_eq {magnitude : ℕ} (hmagnitude : magnitude < 2^64)
    (hpositive : floatMagnitude bits ≠ 0) :
    magnitudeOrder magnitude bits = compare (magnitude : ℚ) (floatMagnitude bits) := by
  have hcast : (magnitude : ℚ) < 2^(64 : ℤ) := by exact_mod_cast hmagnitude
  rw [magnitudeOrder]
  simp only
  by_cases hsmall : (floatExponent bits : ℤ)-1023 < 0
  · rw [if_pos hsmall]
    by_cases hzero : magnitude = 0
    · rw [if_pos hzero,hzero]
      symm
      apply compare_lt_iff_lt.mpr
      exact_mod_cast lt_of_le_of_ne (floatMagnitude_nonneg bits) hpositive.symm
    · rw [if_neg hzero]
      symm
      apply compare_gt_iff_gt.mpr
      calc floatMagnitude bits < 1 := floatMagnitude_lt_one (by omega)
        _ ≤ (magnitude : ℚ) := by exact_mod_cast Nat.pos_of_ne_zero hzero
  rw [if_neg hsmall]
  by_cases hlarge : (floatExponent bits : ℤ)-1023 > 63
  · rw [if_pos hlarge]
    symm
    apply compare_lt_iff_lt.mpr
    exact hcast.trans_le (le_floatMagnitude (by omega))
  rw [if_neg hlarge,floatMagnitude_normal (by omega)]
  by_cases hwhole : (floatExponent bits : ℤ)-1023 ≥ 52
  · rw [if_pos hwhole]
    have hshift : (floatExponent bits : ℤ)-1075 =
        (((floatExponent bits : ℤ)-1023-52).toNat : ℤ) := by omega
    rw [hshift,zpow_natCast,← compare_natCast,Nat.cast_mul,Nat.cast_pow,Nat.cast_two]
  · rw [if_neg hwhole]
    have hshift : (floatExponent bits : ℤ)-1075 =
        -((52-((floatExponent bits : ℤ)-1023)).toNat : ℤ) := by omega
    rw [hshift,zpow_neg,zpow_natCast]
    generalize (52-((floatExponent bits : ℤ)-1023)).toNat = shift
    rw [compare_mul_div _ _ (Nat.pow_pos two_pos),← compare_natCast]
    have hpow : (0 : ℚ) < 2^shift := pow_pos two_pos _
    rw [Nat.cast_mul,Nat.cast_pow,Nat.cast_two,← div_eq_mul_inv]
    exact compare_congr (lt_div_iff₀ hpow).symm (div_lt_iff₀ hpow).symm

theorem natAbs_toInt_lt (value : Int64) : value.toInt.natAbs < 2^64 := by
  have hlow:=Int64.le_toInt value
  have hhigh:=Int64.toInt_lt value
  omega

theorem floatMagnitude_infinite (h : isInfinite bits = true) :
    2^(64 : ℤ) ≤ floatMagnitude bits := by
  apply le_floatMagnitude
  have hexp:=(of_decide_eq_true h).1
  omega

theorem intCast_eq_natAbs (h : 0 ≤ value) : (value : ℚ) = value.natAbs := by
  have hcast : ((value.natAbs : ℤ) : ℚ) = (value : ℚ) :=
    congrArg Int.cast (Int.natAbs_of_nonneg h)
  rw [Int.cast_natCast] at hcast
  exact hcast.symm

theorem intCast_eq_neg_natAbs (h : value ≤ 0) : (value : ℚ) = -value.natAbs := by
  have hcast : ((value.natAbs : ℤ) : ℚ) = ((-value : ℤ) : ℚ) :=
    congrArg Int.cast (Int.ofNat_natAbs_of_nonpos h)
  rw [Int.cast_neg,Int.cast_natCast] at hcast
  rw [hcast,neg_neg]

theorem integerFloat_eq (integer : Int64) (float : UInt64) :
    integerFloat integer float =
      if isNan float then none else some (compare (integer.toInt : ℚ) (floatValue float)) := by
  have habs:=natAbs_toInt_lt integer
  have hcast : (integer.toInt.natAbs : ℚ) < 2^(64 : ℤ) := by exact_mod_cast habs
  have hnonneg:=floatMagnitude_nonneg float
  have hnatNonneg : (0 : ℚ) ≤ integer.toInt.natAbs := Nat.cast_nonneg _
  rw [integerFloat]
  by_cases hnan : isNan float = true
  · rw [if_pos hnan,if_pos hnan]
  rw [if_neg hnan,if_neg hnan]
  by_cases hzero : floatMagnitude float = 0
  · rw [if_pos hzero,floatValue,hzero,neg_zero,ite_self]
    congr 1
    exact compare_congr (by exact_mod_cast Iff.rfl) (by exact_mod_cast Iff.rfl)
  have hpositive : 0 < floatMagnitude float := lt_of_le_of_ne hnonneg (Ne.symm hzero)
  rw [if_neg hzero]
  by_cases hneg : isSignNegative float = true
  · have hvalue : floatValue float = -floatMagnitude float := if_pos hneg
    rw [hvalue]
    by_cases hinf : isInfinite float = true
    · rw [if_pos hinf,if_pos hneg]
      congr 1
      symm
      apply compare_gt_iff_gt.mpr
      have hlarge:=floatMagnitude_infinite hinf
      rcases le_total 0 integer.toInt with h | h
      · rw [intCast_eq_natAbs h]
        show -floatMagnitude float < (integer.toInt.natAbs : ℚ)
        linarith
      · rw [intCast_eq_neg_natAbs h]
        show -floatMagnitude float < -(integer.toInt.natAbs : ℚ)
        linarith
    rw [if_neg hinf]
    by_cases hint : integer.toInt < 0
    · rw [if_neg (by simp [hneg,hint])]
      simp only [if_pos hneg]
      congr 1
      rw [magnitudeOrder_eq habs hzero,intCast_eq_neg_natAbs hint.le,compare_neg,compare_swap]
    · rw [if_pos (by simp [hneg,hint]),if_pos hneg]
      congr 1
      symm
      apply compare_gt_iff_gt.mpr
      rw [intCast_eq_natAbs (not_lt.mp hint)]
      show -floatMagnitude float < (integer.toInt.natAbs : ℚ)
      linarith
  · have hvalue : floatValue float = floatMagnitude float := if_neg hneg
    rw [hvalue]
    by_cases hinf : isInfinite float = true
    · rw [if_pos hinf,if_neg hneg]
      congr 1
      symm
      apply compare_lt_iff_lt.mpr
      have hlarge:=floatMagnitude_infinite hinf
      rcases le_total 0 integer.toInt with h | h
      · rw [intCast_eq_natAbs h]
        linarith
      · rw [intCast_eq_neg_natAbs h]
        linarith
    rw [if_neg hinf]
    by_cases hint : integer.toInt < 0
    · rw [if_pos (by simp [hneg,hint]),if_neg hneg]
      congr 1
      symm
      apply compare_lt_iff_lt.mpr
      rw [intCast_eq_neg_natAbs hint.le]
      linarith
    · rw [if_neg (by simp [hneg,hint])]
      simp only [if_neg hneg]
      congr 1
      rw [magnitudeOrder_eq habs hzero,intCast_eq_natAbs (not_lt.mp hint)]

def compareExact (a b : ℚ) : Ordering := compare a b

theorem compareExact_eq {a b : ℚ} : compareExact a b = .eq ↔ a = b := compare_eq_iff_eq

instance : Std.LawfulEqCmp compareExact where
  compare_self := compareExact_eq.mpr rfl
  eq_of_compare := compareExact_eq.mp

instance : Std.TransCmp compareExact where
  eq_swap := (compare_swap _ _).symm
  isLE_trans := by
    intro a b c hab hbc
    have hle : ∀ {x y : ℚ},(compareExact x y).isLE = true ↔ x ≤ y := by
      intro x y
      rw [Ordering.isLE_iff_ne_gt,compareExact,← compare_le_iff_le]
    exact hle.mpr ((hle.mp hab).trans (hle.mp hbc))

def floatCode (bits : UInt64) : List ℚ := if isNan bits then [1] else [0,floatValue bits]

mutual

def QueryValue.code : QueryValue → List ℚ
  | .null => [7]
  | .nodeRef id => [1,id]
  | .relRef id => [2,id]
  | .bool value => [5,if value then 1 else 0]
  | .string bytes => 4::(bytes.map fun byte => (byte.toNat : ℚ)+1)++[0]
  | .i64 value => [6,0,value.toInt]
  | .f64 bits => 6::floatCode bits
  | .map entries => 0::codeList entries
  | .list values => 3::codeList values

def codeList : List QueryValue → List ℚ
  | [] => [0]
  | value::values => 1::(value.code++codeList values)

end

abbrev compareCodes : List ℚ → List ℚ → Ordering := List.compareLex compareExact

theorem compareCodes_cons (a b : ℚ) (x y : List ℚ) :
    compareCodes (a::x) (b::y) = (compareExact a b).then (compareCodes x y) :=
  List.compareLex_cons_cons

theorem compareExact_natCast (a b : ℕ) : compareExact a b = compare a b := compare_natCast a b

theorem compareCodes_same (a : ℚ) (x y : List ℚ) :
    compareCodes (a::x) (a::y) = compareCodes x y := by
  rw [compareCodes_cons,compareExact_eq.mpr rfl,Ordering.eq_then]

theorem code_eq_rank_cons (value : QueryValue) :
    ∃ rest,value.code = (value.rank : ℚ)::rest := by
  cases value <;> exact ⟨_,by simp [QueryValue.code,QueryValue.rank]; rfl⟩

theorem order_of_rank_ne {a b : QueryValue} (h : a.rank ≠ b.rank) :
    a.order b = compare a.rank b.rank := by
  cases a <;> cases b <;> first
    | exact absurd rfl h
    | rw [QueryValue.order] <;> nofun

theorem code_compare_of_rank_ne {a b : QueryValue} (h : a.rank ≠ b.rank) (x y : List ℚ) :
    compareCodes (a.code++x) (b.code++y) = (a.order b).then (compareCodes x y) := by
  obtain ⟨restA,hA⟩ := code_eq_rank_cons a
  obtain ⟨restB,hB⟩ := code_eq_rank_cons b
  have hne : compare a.rank b.rank ≠ .eq := fun heq => h (compare_eq_iff_eq.mp heq)
  rw [hA,hB,cons_append,cons_append,compareCodes_cons,compareExact_natCast,
    order_of_rank_ne h]
  cases hcompare : compare a.rank b.rank with
  | lt => rfl
  | gt => rfl
  | eq => exact absurd hcompare hne

theorem string_compare (a b : List UInt8) (x y : List ℚ) :
    compareCodes ((a.map fun byte => (byte.toNat : ℚ)+1)++[0]++x)
        ((b.map fun byte => (byte.toNat : ℚ)+1)++[0]++y) =
      (compareBytes a b).then (compareCodes x y) := by
  induction a generalizing b with
  | nil =>
    cases b with
    | nil => exact compareCodes_same 0 x y
    | cons c b =>
      have hlt : compareExact 0 ((c.toNat : ℚ)+1) = .lt :=
        compare_lt_iff_lt.mpr (by positivity)
      simp only [map_nil,map_cons,nil_append,cons_append]
      rw [compareCodes_cons,hlt]
      rfl
  | cons c a ih =>
    cases b with
    | nil =>
      have hgt : compareExact ((c.toNat : ℚ)+1) 0 = .gt :=
        compare_gt_iff_gt.mpr (by show (0 : ℚ) < _; positivity)
      simp only [map_nil,map_cons,nil_append,cons_append]
      rw [compareCodes_cons,hgt]
      rfl
    | cons d b =>
      have hbyte : compareExact ((c.toNat : ℚ)+1) ((d.toNat : ℚ)+1) =
          compare c.toNat d.toNat := by
        apply compare_congr
        · rw [add_lt_add_iff_right,Nat.cast_lt]
        · rw [add_lt_add_iff_right,Nat.cast_lt]
      simp only [map_cons,cons_append]
      rw [compareCodes_cons,hbyte,compareBytes,List.compareLex_cons_cons,Ordering.then_assoc]
      congr 1
      exact ih b

theorem floatOrder_eq (a b : UInt64) (x y : List ℚ) :
    compareCodes (floatCode a++x) (floatCode b++y) =
      (floatOrder a b).then (compareCodes x y) := by
  rw [floatCode,floatCode,floatOrder,partialCmp]
  cases ha : isNan a with
  | true =>
    cases hb : isNan b with
    | true => exact compareCodes_same 1 x y
    | false => rfl
  | false =>
    cases hb : isNan b with
    | true => rfl
    | false =>
      simp only [Bool.false_eq_true,if_false,or_self,cons_append,nil_append]
      rw [compareCodes_same,compareCodes_cons]
      rfl

theorem int_compare (a b : Int64) (x y : List ℚ) :
    compareCodes ((a.toInt : ℚ)::x) ((b.toInt : ℚ)::y) =
      (compare a.toInt b.toInt).then (compareCodes x y) := by
  rw [compareCodes_cons]
  congr 1
  exact compare_congr Int.cast_lt Int.cast_lt

theorem int_float_compare (a : Int64) (b : UInt64) (x y : List ℚ) :
    compareCodes (0::(a.toInt : ℚ)::x) (floatCode b++y) =
      ((integerFloat a b).getD .lt).then (compareCodes x y) := by
  rw [floatCode,integerFloat_eq]
  cases isNan b with
  | true => rfl
  | false =>
    simp only [Bool.false_eq_true,if_false,Option.getD_some,cons_append,nil_append]
    rw [compareCodes_same,compareCodes_cons]
    rfl

theorem float_int_compare (a : UInt64) (b : Int64) (x y : List ℚ) :
    compareCodes (floatCode a++x) (0::(b.toInt : ℚ)::y) =
      (((integerFloat b a).map Ordering.swap).getD .gt).then (compareCodes x y) := by
  rw [floatCode,integerFloat_eq]
  cases isNan a with
  | true => rfl
  | false =>
    simp only [Bool.false_eq_true,if_false,Option.map_some,Option.getD_some,compare_swap,
      cons_append,nil_append]
    rw [compareCodes_same,compareCodes_cons]
    rfl

mutual

theorem code_compare : ∀ (a b : QueryValue) (x y : List ℚ),
    compareCodes (a.code++x) (b.code++y) = (a.order b).then (compareCodes x y)
  | a,b,x,y => by
    by_cases hrank : a.rank = b.rank
    · cases a <;> cases b <;> first
        | (simp [QueryValue.rank] at hrank; done)
        | clear hrank
      case null.null => exact compareCodes_same 7 x y
      case bool.bool a b => cases a <;> cases b <;> rfl
      case i64.i64 a b =>
        simp only [QueryValue.code,QueryValue.order,cons_append,nil_append,
          compareCodes_same]
        exact int_compare a b x y
      case i64.f64 a b =>
        simp only [QueryValue.code,QueryValue.order,cons_append,nil_append,
          compareCodes_same]
        exact int_float_compare a b x y
      case f64.i64 a b =>
        simp only [QueryValue.code,QueryValue.order,cons_append,nil_append,
          compareCodes_same]
        exact float_int_compare a b x y
      case f64.f64 a b =>
        simp only [QueryValue.code,QueryValue.order,cons_append,compareCodes_same]
        exact floatOrder_eq a b x y
      case string.string a b =>
        simp only [QueryValue.code,QueryValue.order,cons_append,compareCodes_same]
        exact string_compare a b x y
      case list.list a b =>
        simp only [QueryValue.code,QueryValue.order,cons_append,compareCodes_same]
        exact codeList_compare a b x y
      case map.map a b =>
        simp only [QueryValue.code,QueryValue.order,cons_append,compareCodes_same]
        exact codeList_compare a b x y
      case nodeRef.nodeRef a b =>
        simp only [QueryValue.code,QueryValue.order,cons_append,nil_append,
          compareCodes_same]
        rw [compareCodes_cons,compareExact_natCast]
      case relRef.relRef a b =>
        simp only [QueryValue.code,QueryValue.order,cons_append,nil_append,
          compareCodes_same]
        rw [compareCodes_cons,compareExact_natCast]
    · exact code_compare_of_rank_ne hrank x y

theorem codeList_compare : ∀ (as bs : List QueryValue) (x y : List ℚ),
    compareCodes (codeList as++x) (codeList bs++y) = (orderList as bs).then (compareCodes x y)
  | [],[],x,y => by
    rw [codeList,orderList]
    exact compareCodes_same 0 x y
  | [],b::bs,x,y => by
    rw [codeList,codeList,orderList]
    rfl
  | a::as,[],x,y => by
    rw [codeList,codeList,orderList]
    rfl
  | a::as,b::bs,x,y => by
    rw [codeList,codeList,orderList,cons_append,cons_append,compareCodes_same,
      append_assoc,append_assoc,code_compare a b,codeList_compare as bs,
      Ordering.then_assoc]

end

theorem order_eq_compareCodes (a b : QueryValue) : a.order b = compareCodes a.code b.code := by
  have h:=code_compare a b [] []
  rw [append_nil,append_nil] at h
  rw [h]
  exact Ordering.then_eq.symm

instance : Std.TransCmp QueryValue.order where
  eq_swap := by
    intro a b
    rw [order_eq_compareCodes,order_eq_compareCodes]
    exact Std.OrientedCmp.eq_swap
  isLE_trans := by
    intro a b c
    simp only [order_eq_compareCodes]
    exact Std.TransCmp.isLE_trans

theorem order_swap (a b : QueryValue) : a.order b = (b.order a).swap := Std.OrientedCmp.eq_swap

theorem order_isLE_trans {a b c : QueryValue} (hab : (a.order b).isLE = true)
    (hbc : (b.order c).isLE = true) : (a.order c).isLE = true := Std.TransCmp.isLE_trans hab hbc

theorem equivalent_iff_code {a b : QueryValue} : a.equivalent b = true ↔ a.code = b.code := by
  rw [QueryValue.equivalent,beq_iff_eq,order_eq_compareCodes]
  exact Std.LawfulEqCmp.compare_eq_iff_eq

theorem equivalent_refl (a : QueryValue) : a.equivalent a = true := equivalent_iff_code.mpr rfl

end Zeppelin.Query
