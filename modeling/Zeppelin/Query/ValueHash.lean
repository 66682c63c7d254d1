import Zeppelin.Query.ValueOrder

namespace Zeppelin.Query
open List

/-- The magnitude as a whole number and a power of two; subnormal floats share the lowest
exponent with the first normal ones. -/
def mantissa (bits : UInt64) : ℕ :=
  if floatExponent bits = 0 then floatFraction bits else significand bits

def scaleExponent (bits : UInt64) : ℕ := max (floatExponent bits) 1

theorem floatMagnitude_eq (bits : UInt64) :
    floatMagnitude bits = mantissa bits*2^((scaleExponent bits : ℤ)-1075) := by
  rw [floatMagnitude,mantissa,scaleExponent]
  split_ifs with h
  · rw [h]
    rfl
  · rw [Nat.max_eq_left (Nat.pos_of_ne_zero h)]

theorem mantissa_lt (bits : UInt64) : mantissa bits < 2^53 := by
  have hfraction:=floatFraction_lt bits
  have hsig:=significand_lt bits
  rw [mantissa]
  split_ifs
  · omega
  · exact hsig

variable {bits a b : UInt64} {integer : Int64}

theorem le_mantissa (h : 1 < scaleExponent bits) : 2^52 ≤ mantissa bits := by
  rw [scaleExponent] at h
  rw [mantissa,if_neg (by omega)]
  exact le_significand bits

theorem scaleExponent_le (h : floatMagnitude a = floatMagnitude b) :
    scaleExponent a ≤ scaleExponent b := by
  by_contra hlt
  rw [not_le] at hlt
  have hone : 1 ≤ scaleExponent b := le_max_right ..
  have hlow : (2^(52 : ℤ) : ℚ) ≤ mantissa a := by exact_mod_cast le_mantissa (hone.trans_lt hlt)
  have hhigh : (mantissa b : ℚ) < 2^(53 : ℤ) := by exact_mod_cast mantissa_lt b
  rw [floatMagnitude_eq,floatMagnitude_eq] at h
  have hcontra : (mantissa b : ℚ)*2^((scaleExponent b : ℤ)-1075) <
      mantissa a*2^((scaleExponent a : ℤ)-1075) :=
    calc (mantissa b : ℚ)*2^((scaleExponent b : ℤ)-1075)
        < 2^(53 : ℤ)*2^((scaleExponent b : ℤ)-1075) :=
          mul_lt_mul_of_pos_right hhigh (two_zpow_pos _)
      _ = 2^((53 : ℤ)+((scaleExponent b : ℤ)-1075)) := (zpow_add₀ two_ne_zero _ _).symm
      _ ≤ 2^((52 : ℤ)+((scaleExponent a : ℤ)-1075)) :=
          zpow_le_zpow_right₀ one_le_two (by omega)
      _ = 2^(52 : ℤ)*2^((scaleExponent a : ℤ)-1075) := zpow_add₀ two_ne_zero _ _
      _ ≤ mantissa a*2^((scaleExponent a : ℤ)-1075) :=
          mul_le_mul_of_nonneg_right hlow (two_zpow_pos _).le
  exact absurd h.symm hcontra.ne

theorem mantissa_eq (h : floatMagnitude a = floatMagnitude b) :
    scaleExponent a = scaleExponent b ∧ mantissa a = mantissa b := by
  have hscale:=le_antisymm (scaleExponent_le h) (scaleExponent_le h.symm)
  refine ⟨hscale,?_⟩
  rw [floatMagnitude_eq,floatMagnitude_eq,hscale] at h
  exact_mod_cast mul_right_cancel₀ (two_zpow_pos _).ne' h

theorem fields_eq (h : floatMagnitude a = floatMagnitude b) :
    floatExponent a = floatExponent b ∧ floatFraction a = floatFraction b := by
  obtain ⟨hscale,hmantissa⟩ := mantissa_eq h
  have hfa:=floatFraction_lt a
  have hfb:=floatFraction_lt b
  rw [scaleExponent,scaleExponent] at hscale
  rw [mantissa,mantissa,significand,significand] at hmantissa
  split_ifs at hmantissa <;> omega

theorem toNat_eq_fields (bits : UInt64) :
    bits.toNat = (if isSignNegative bits then 2^63 else 0)+floatExponent bits*2^52+
      floatFraction bits := by
  have hlt:=bits.toNat_lt
  rw [isSignNegative,floatExponent,floatFraction]
  split_ifs with h
  · have := of_decide_eq_true h
    omega
  · have hsmall : ¬ 2^63 ≤ bits.toNat := fun hle => h (decide_eq_true hle)
    omega

theorem sign_eq (h : floatValue a = floatValue b) (hne : floatValue a ≠ 0) :
    isSignNegative a = isSignNegative b ∧ floatMagnitude a = floatMagnitude b := by
  have ha:=floatMagnitude_nonneg a
  have hb:=floatMagnitude_nonneg b
  rw [floatValue] at hne h
  rw [floatValue] at h
  split_ifs at h hne with hsa hsb hsb
  · exact ⟨by rw [hsa,hsb],neg_injective h⟩
  · exact absurd (by linarith) hne
  · exact absurd (by linarith) hne
  · exact ⟨by simp [hsa,hsb],h⟩

theorem bits_eq_of_value (h : floatValue a = floatValue b) (hne : floatValue a ≠ 0) : a = b := by
  obtain ⟨hsign,hmagnitude⟩ := sign_eq h hne
  obtain ⟨hexponent,hfraction⟩ := fields_eq hmagnitude
  apply UInt64.toNat_inj.mp
  rw [toNat_eq_fields a,toNat_eq_fields b,hsign,hexponent,hfraction]

theorem integerFloat_eq_some : integerFloat integer bits = some .eq ↔
      isNan bits = false ∧ (integer.toInt : ℚ) = floatValue bits := by
  rw [integerFloat_eq]
  cases isNan bits with
  | true => simp
  | false => simp

theorem truncate_intCast (value : ℤ) : truncate value = value := by
  rw [truncate,Int.floor_intCast,Int.ceil_intCast,ite_self]

theorem floatToInt_of_integral
    (h : integerFloat integer bits = some .eq) : floatToInt bits = integer := by
  obtain ⟨hnan,hvalue⟩ := integerFloat_eq_some.mp h
  have hlow:=Int64.le_toInt integer
  have hhigh:=Int64.toInt_lt integer
  rw [floatToInt,hnan,← hvalue,truncate_intCast,min_eq_right (by omega),max_eq_right (by omega)]
  simp

theorem hashFloat_of_integral
    (h : integerFloat integer bits = some .eq) : hashFloat bits = hashInteger integer := by
  rw [hashFloat,floatToInt_of_integral h,if_pos h]

theorem hashFloat_nan (h : isNan bits = true) :
    hashFloat bits = 1::leBytes 8 0x7ff8000000000000 := by
  rw [hashFloat,integerFloat_eq,h]
  simp

theorem floatOrder_eq_iff (h : floatOrder a b = .eq) :
    isNan a = isNan b ∧ (isNan a = false → floatValue a = floatValue b) := by
  rw [floatOrder,partialCmp] at h
  cases ha : isNan a with
  | true =>
    cases hb : isNan b with
    | true => exact ⟨rfl,fun hfalse => by cases hfalse⟩
    | false =>
      rw [ha,hb] at h
      cases h
  | false =>
    cases hb : isNan b with
    | true =>
      rw [ha,hb] at h
      cases h
    | false =>
      rw [ha,hb] at h
      exact ⟨rfl,fun _ => compare_eq_iff_eq.mp (by simpa using h)⟩

theorem hashFloat_congr (h : floatOrder a b = .eq) : hashFloat a = hashFloat b := by
  obtain ⟨hnan,hvalue⟩ := floatOrder_eq_iff h
  cases ha : isNan a with
  | true => rw [hashFloat_nan ha,hashFloat_nan (hnan ▸ ha)]
  | false =>
    have heq:=hvalue ha
    by_cases hint : integerFloat (floatToInt a) a = some .eq
    · have hother : integerFloat (floatToInt a) b = some .eq := by
        obtain ⟨-,hexact⟩ := integerFloat_eq_some.mp hint
        exact integerFloat_eq_some.mpr ⟨hnan ▸ ha,hexact.trans heq⟩
      rw [hashFloat_of_integral hint,hashFloat_of_integral hother]
    · have hne : floatValue a ≠ 0 := by
        intro hzero
        have hintegral : integerFloat 0 a = some .eq :=
          integerFloat_eq_some.mpr ⟨ha,by rw [hzero]; simp⟩
        rw [floatToInt_of_integral hintegral] at hint
        exact hint hintegral
      rw [bits_eq_of_value heq hne]

theorem compareBytes_eq {a b : List UInt8} (h : compareBytes a b = .eq) : a = b := by
  induction a generalizing b with
  | nil =>
    cases b with
    | nil => rfl
    | cons y b => cases h
  | cons x a ih =>
    cases b with
    | nil => cases h
    | cons y b =>
      rw [compareBytes,List.compareLex_cons_cons,Ordering.then_eq_eq] at h
      rw [UInt8.toNat_inj.mp (compare_eq_iff_eq.mp h.1),ih h.2]

mutual

theorem hashInto_congr : ∀ (a b : QueryValue),a.order b = .eq → a.hashInto = b.hashInto
  | a,b,h => by
    by_cases hrank : a.rank = b.rank
    · cases a <;> cases b <;> first
        | (simp [QueryValue.rank] at hrank; done)
        | clear hrank
      case null.null => rfl
      case bool.bool a b => rw [compare_eq_iff_eq.mp h]
      case i64.i64 a b => rw [Int64.toInt_inj.mp (compare_eq_iff_eq.mp h)]
      case i64.f64 a b =>
        rw [QueryValue.order] at h
        have hsome : integerFloat a b = some .eq := by
          cases hfloat : integerFloat a b with
          | none => rw [hfloat] at h; cases h
          | some order => rw [hfloat] at h; rw [show order = .eq from h]
        rw [QueryValue.hashInto,QueryValue.hashInto,hashFloat_of_integral hsome]
      case f64.i64 a b =>
        rw [QueryValue.order] at h
        have hsome : integerFloat b a = some .eq := by
          cases hfloat : integerFloat b a with
          | none => rw [hfloat] at h; cases h
          | some order =>
            rw [hfloat] at h
            cases order with
            | eq => rfl
            | lt => cases h
            | gt => cases h
        rw [QueryValue.hashInto,QueryValue.hashInto,hashFloat_of_integral hsome]
      case f64.f64 a b =>
        rw [QueryValue.order] at h
        rw [QueryValue.hashInto,QueryValue.hashInto,hashFloat_congr h]
      case string.string a b =>
        rw [QueryValue.order] at h
        rw [compareBytes_eq h]
      case list.list a b =>
        rw [QueryValue.order] at h
        obtain ⟨hlength,hhash⟩ := hashList_congr a b h
        rw [QueryValue.hashInto,QueryValue.hashInto,hlength,hhash]
      case map.map a b =>
        rw [QueryValue.order] at h
        obtain ⟨hlength,hhash⟩ := hashList_congr a b h
        rw [QueryValue.hashInto,QueryValue.hashInto,hlength,hhash]
      case nodeRef.nodeRef a b => rw [compare_eq_iff_eq.mp h]
      case relRef.relRef a b => rw [compare_eq_iff_eq.mp h]
    · rw [order_of_rank_ne hrank] at h
      exact absurd (compare_eq_iff_eq.mp h) hrank

theorem hashList_congr : ∀ (as bs : List QueryValue),orderList as bs = .eq →
    as.length = bs.length ∧ hashList as = hashList bs
  | [],[],_ => ⟨rfl,rfl⟩
  | [],_::_,h => by
    rw [orderList] at h
    cases h
  | _::_,[],h => by
    rw [orderList] at h
    cases h
  | a::as,b::bs,h => by
    rw [orderList,Ordering.then_eq_eq] at h
    obtain ⟨hlength,hhash⟩ := hashList_congr as bs h.2
    rw [length_cons,length_cons,hlength,hashList,hashList,hashInto_congr a b h.1,
      hhash]
    exact ⟨rfl,rfl⟩

end

theorem length_leBytes (width value : ℕ) : (leBytes width value).length = width := by
  induction width generalizing value with
  | zero => rfl
  | succ width ih => rw [leBytes,length_cons,ih]

theorem leBytes_inj {width a b : ℕ} (ha : a < 256^width) (hb : b < 256^width)
    (h : leBytes width a = leBytes width b) : a = b := by
  induction width generalizing a b with
  | zero =>
    rw [pow_zero] at ha hb
    omega
  | succ width ih =>
    rw [leBytes,leBytes,cons_eq_cons] at h
    have hlow : a % 256 = b % 256 := by
      have hbyte:=congrArg UInt8.toNat h.1
      simp only [UInt8.toNat_ofNat'] at hbyte
      omega
    rw [pow_succ'] at ha hb
    have hhigh : a / 256 = b / 256 :=
      ih (Nat.div_lt_of_lt_mul ha) (Nat.div_lt_of_lt_mul hb) h.2
    omega

theorem leBytes_append_inj {width a b : ℕ} {x y : List UInt8} (ha : a < 256^width)
    (hb : b < 256^width) (h : leBytes width a++x = leBytes width b++y) : a = b ∧ x = y := by
  obtain ⟨hbytes,hrest⟩ := append_inj h (by rw [length_leBytes,length_leBytes])
  exact ⟨leBytes_inj ha hb hbytes,hrest⟩

theorem length_hashInteger (value : Int64) : (hashInteger value).length = 9 := by
  rw [hashInteger,length_cons,length_leBytes]

theorem length_hashFloat (bits : UInt64) : (hashFloat bits).length = 9 := by
  rw [hashFloat]
  split_ifs
  · exact length_hashInteger _
  · rw [length_cons,length_leBytes]
  · rw [length_cons,length_leBytes]

theorem hashInteger_inj {a b : Int64} (h : hashInteger a = hashInteger b) : a = b := by
  rw [hashInteger,hashInteger,cons_eq_cons] at h
  have hbits:=leBytes_inj a.toUInt64.toNat_lt b.toUInt64.toNat_lt h.2
  exact congrArg Int64.ofUInt64 (UInt64.toNat_inj.mp hbits)

theorem hashFloat_cases (bits : UInt64) :
    (∃ integer,integerFloat integer bits = some .eq ∧ hashFloat bits = hashInteger integer) ∨
      hashFloat bits = 1::leBytes 8 (if isNan bits then 0x7ff8000000000000 else bits.toNat) := by
  by_cases hint : integerFloat (floatToInt bits) bits = some .eq
  · exact Or.inl ⟨_,hint,hashFloat_of_integral hint⟩
  · exact Or.inr (by rw [hashFloat,if_neg hint])

theorem integerFloat_of_hash {integer : Int64} {bits : UInt64}
    (h : hashInteger integer = hashFloat bits) : integerFloat integer bits = some .eq := by
  rcases hashFloat_cases bits with ⟨other,hother,hhash⟩ | hhash
  · rw [hhash] at h
    rw [hashInteger_inj h]
    exact hother
  · rw [hhash,hashInteger,cons_eq_cons] at h
    exact absurd h.1 (by decide)

theorem isNan_quiet : isNan 0x7ff8000000000000 = true := by decide

theorem floatOrder_nan {a b : UInt64} (ha : isNan a = true) :
    floatOrder a b = if isNan b then .eq else .gt := by
  rw [floatOrder,partialCmp,if_pos (Or.inl ha),ha]
  cases isNan b <;> rfl

theorem floatOrder_refl (a : UInt64) : floatOrder a a = .eq := by
  cases ha : isNan a with
  | true => rw [floatOrder_nan ha,ha,if_pos rfl]
  | false =>
    rw [floatOrder,partialCmp,ha]
    simp

theorem floatOrder_of_pattern {a b : UInt64}
    (h : (if isNan a then 0x7ff8000000000000 else a.toNat) =
      if isNan b then 0x7ff8000000000000 else b.toNat) : floatOrder a b = .eq := by
  have hquiet : ∀ c : UInt64,0x7ff8000000000000 = c.toNat → isNan c = true := by
    intro c hc
    have heq : c = 0x7ff8000000000000 := UInt64.toNat_inj.mp hc.symm
    rw [heq]
    exact isNan_quiet
  cases ha : isNan a with
  | true =>
    rw [floatOrder_nan ha]
    cases hb : isNan b with
    | true => rfl
    | false =>
      rw [ha,hb] at h
      rw [hquiet b h] at hb
      cases hb
  | false =>
    cases hb : isNan b with
    | true =>
      rw [ha,hb] at h
      rw [hquiet a h.symm] at ha
      cases ha
    | false =>
      rw [ha,hb] at h
      rw [UInt64.toNat_inj.mp h]
      exact floatOrder_refl b

theorem floatPattern_lt (bits : UInt64) :
    (if isNan bits then 0x7ff8000000000000 else bits.toNat) < 256^8 := by
  have hlt:=bits.toNat_lt
  split_ifs <;> omega

theorem floatOrder_of_hash {a b : UInt64} (h : hashFloat a = hashFloat b) :
    floatOrder a b = .eq := by
  rcases hashFloat_cases a with ⟨integer,hinteger,hhash⟩ | hhash
  · have hother:=integerFloat_of_hash (hhash.symm.trans h)
    obtain ⟨hnan,hvalue⟩ := integerFloat_eq_some.mp hinteger
    obtain ⟨hnan',hvalue'⟩ := integerFloat_eq_some.mp hother
    rw [floatOrder,partialCmp,hnan,hnan',← hvalue,← hvalue']
    simp
  · rcases hashFloat_cases b with ⟨integer,hinteger,hhash'⟩ | hhash'
    · have hother:=integerFloat_of_hash (hhash'.symm.trans h.symm)
      rw [hashFloat_of_integral hother,hashInteger,cons_eq_cons] at hhash
      exact absurd hhash.1 (by decide)
    · rw [hhash,hhash',cons_eq_cons] at h
      exact floatOrder_of_pattern (leBytes_inj (floatPattern_lt a) (floatPattern_lt b) h.2)

mutual

/-- The sizes that the types of the source hold: ids of 128 bits and lengths of 64 bits. -/
def QueryValue.Sized : QueryValue → Prop
  | .nodeRef id | .relRef id => id < 2^128
  | .string bytes => bytes.length < 2^64
  | .list values | .map values => values.length < 2^64 ∧ SizedList values
  | _ => True

def SizedList : List QueryValue → Prop
  | [] => True
  | value::values => value.Sized ∧ SizedList values

end

theorem hashInto_rank (value : QueryValue) :
    ∃ rest,value.hashInto = UInt8.ofNat value.rank::rest := by
  cases value <;> exact ⟨_,by rw [QueryValue.hashInto]; rfl⟩

theorem rank_lt (value : QueryValue) : value.rank < 256 := by
  cases value <;> exact of_decide_eq_true rfl

theorem rank_eq_of_hash {a b : QueryValue} {x y : List UInt8}
    (h : a.hashInto++x = b.hashInto++y) : a.rank = b.rank := by
  obtain ⟨restA,hA⟩ := hashInto_rank a
  obtain ⟨restB,hB⟩ := hashInto_rank b
  rw [hA,hB,cons_append,cons_append,cons_eq_cons] at h
  have hbyte:=congrArg UInt8.toNat h.1
  simp only [UInt8.toNat_ofNat'] at hbyte
  have ha:=rank_lt a
  have hb:=rank_lt b
  omega

mutual

theorem order_of_hashInto : ∀ (a b : QueryValue) (x y : List UInt8),a.Sized → b.Sized →
    a.hashInto++x = b.hashInto++y → a.order b = .eq ∧ x = y
  | a,b,x,y,ha,hb,h => by
    have hrank:=rank_eq_of_hash h
    cases a <;> cases b <;> first
      | (simp [QueryValue.rank] at hrank; done)
      | clear hrank
    case null.null => exact ⟨rfl,append_cancel_left h⟩
    case bool.bool a b =>
      rw [QueryValue.hashInto,QueryValue.hashInto] at h
      simp only [cons_append,nil_append,cons_eq_cons,true_and] at h
      rw [QueryValue.order,compare_eq_iff_eq]
      cases a <;> cases b <;> simp_all
    case i64.i64 a b =>
      rw [QueryValue.hashInto,QueryValue.hashInto,cons_append,cons_append,
        cons_eq_cons] at h
      obtain ⟨hbytes,hrest⟩ := append_inj h.2 (by
        rw [length_hashInteger,length_hashInteger])
      rw [QueryValue.order,hashInteger_inj hbytes,compare_eq_iff_eq]
      exact ⟨rfl,hrest⟩
    case i64.f64 a b =>
      rw [QueryValue.hashInto,QueryValue.hashInto,cons_append,cons_append,
        cons_eq_cons] at h
      obtain ⟨hbytes,hrest⟩ := append_inj h.2 (by
        rw [length_hashInteger,length_hashFloat])
      rw [QueryValue.order,integerFloat_of_hash hbytes]
      exact ⟨rfl,hrest⟩
    case f64.i64 a b =>
      rw [QueryValue.hashInto,QueryValue.hashInto,cons_append,cons_append,
        cons_eq_cons] at h
      obtain ⟨hbytes,hrest⟩ := append_inj h.2 (by
        rw [length_hashInteger,length_hashFloat])
      rw [QueryValue.order,integerFloat_of_hash hbytes.symm]
      exact ⟨rfl,hrest⟩
    case f64.f64 a b =>
      rw [QueryValue.hashInto,QueryValue.hashInto,cons_append,cons_append,
        cons_eq_cons] at h
      obtain ⟨hbytes,hrest⟩ := append_inj h.2 (by
        rw [length_hashFloat,length_hashFloat])
      rw [QueryValue.order]
      exact ⟨floatOrder_of_hash hbytes,hrest⟩
    case string.string a b =>
      rw [QueryValue.Sized] at ha hb
      rw [QueryValue.hashInto,QueryValue.hashInto,cons_append,cons_append,
        cons_eq_cons,append_assoc,append_assoc] at h
      obtain ⟨hlength,hbytes⟩ := leBytes_append_inj ha hb h.2
      obtain ⟨heq,hrest⟩ := append_inj hbytes hlength
      rw [heq]
      exact ⟨beq_iff_eq.mp (equivalent_refl (.string b)),hrest⟩
    case list.list a b =>
      rw [QueryValue.Sized] at ha hb
      rw [QueryValue.hashInto,QueryValue.hashInto,cons_append,cons_append,
        cons_eq_cons,append_assoc,append_assoc] at h
      obtain ⟨hlength,hbytes⟩ := leBytes_append_inj ha.1 hb.1 h.2
      rw [QueryValue.order]
      exact orderList_of_hashList a b x y hlength ha.2 hb.2 hbytes
    case map.map a b =>
      rw [QueryValue.Sized] at ha hb
      rw [QueryValue.hashInto,QueryValue.hashInto] at h
      simp only [cons_append,cons_eq_cons,true_and,append_assoc] at h
      obtain ⟨hlength,hbytes⟩ := leBytes_append_inj ha.1 hb.1 h
      rw [QueryValue.order]
      exact orderList_of_hashList a b x y hlength ha.2 hb.2 hbytes
    case nodeRef.nodeRef a b =>
      rw [QueryValue.Sized] at ha hb
      rw [QueryValue.hashInto,QueryValue.hashInto,cons_append,cons_append,
        cons_eq_cons] at h
      obtain ⟨hid,hrest⟩ := leBytes_append_inj ha hb h.2
      rw [QueryValue.order,hid,compare_eq_iff_eq]
      exact ⟨rfl,hrest⟩
    case relRef.relRef a b =>
      rw [QueryValue.Sized] at ha hb
      rw [QueryValue.hashInto,QueryValue.hashInto,cons_append,cons_append,
        cons_eq_cons] at h
      obtain ⟨hid,hrest⟩ := leBytes_append_inj ha hb h.2
      rw [QueryValue.order,hid,compare_eq_iff_eq]
      exact ⟨rfl,hrest⟩

theorem orderList_of_hashList : ∀ (as bs : List QueryValue) (x y : List UInt8),
    as.length = bs.length → SizedList as → SizedList bs →
    hashList as++x = hashList bs++y → orderList as bs = .eq ∧ x = y
  | [],[],x,y,_,_,_,h => by
    rw [hashList,nil_append,nil_append] at h
    rw [orderList]
    exact ⟨rfl,h⟩
  | [],_::_,_,_,hlength,_,_,_ => by cases hlength
  | _::_,[],_,_,hlength,_,_,_ => by cases hlength
  | a::as,b::bs,x,y,hlength,ha,hb,h => by
    rw [SizedList] at ha hb
    rw [hashList,hashList,append_assoc,append_assoc] at h
    obtain ⟨hhead,hrest⟩ := order_of_hashInto a b _ _ ha.1 hb.1 h
    obtain ⟨htail,hend⟩ :=
      orderList_of_hashList as bs x y (Nat.succ.inj hlength) ha.2 hb.2 hrest
    rw [orderList,hhead,htail]
    exact ⟨rfl,hend⟩

end

theorem hashInto_eq_iff {a b : QueryValue} (ha : a.Sized) (hb : b.Sized) :
    a.equivalent b = true ↔ a.hashInto = b.hashInto := by
  constructor
  · intro h
    exact hashInto_congr a b (beq_iff_eq.mp h)
  · intro h
    have hstream : a.hashInto++[] = b.hashInto++[] := congrArg (· ++ []) h
    exact beq_iff_eq.mpr (order_of_hashInto a b [] [] ha hb hstream).1

theorem order_total (a b : QueryValue) : (a.order b).isLE = true ∨ (b.order a).isLE = true := by
  have hswap:=order_swap b a
  cases h : a.order b with
  | lt => exact Or.inl rfl
  | eq => exact Or.inl rfl
  | gt =>
    rw [h] at hswap
    rw [hswap]
    exact Or.inr rfl

theorem order_integer_nan (integer : Int64) {bits : UInt64} (h : isNan bits = true) :
    (QueryValue.i64 integer).order (.f64 bits) = .lt := by
  rw [QueryValue.order,integerFloat_eq,if_pos h]
  rfl

theorem order_float_nan (float : UInt64) {bits : UInt64} (h : isNan bits = true) :
    (QueryValue.f64 float).order (.f64 bits) = if isNan float then .eq else .lt := by
  rw [QueryValue.order]
  cases hfloat : isNan float with
  | true => rw [floatOrder_nan hfloat,if_pos h,if_pos rfl]
  | false =>
    rw [floatOrder,partialCmp,if_pos (Or.inr h),hfloat,h]
    rfl

theorem order_float_float {a b : UInt64} (ha : isNan a = false) (hb : isNan b = false) :
    (QueryValue.f64 a).order (.f64 b) = compare (floatValue a) (floatValue b) := by
  rw [QueryValue.order,floatOrder,partialCmp,ha,hb]
  simp

theorem order_integer_float (integer : Int64) {bits : UInt64} (h : isNan bits = false) :
    (QueryValue.i64 integer).order (.f64 bits) =
      compare (integer.toInt : ℚ) (floatValue bits) := by
  rw [QueryValue.order,integerFloat_eq,h]
  rfl

/-- The order is a total preorder that compares numbers exactly and puts NaN above them; its
classes are the classes of equal hash streams. -/
theorem order_hash_agree :
    (∀ a : QueryValue,a.order a = .eq) ∧
    (∀ a b c : QueryValue,(a.order b).isLE = true → (b.order c).isLE = true →
      (a.order c).isLE = true) ∧
    (∀ a b : QueryValue,((a.order b).isLE = true ∨ (b.order a).isLE = true) ∧
      a.order b = (b.order a).swap) ∧
    (∀ integer bits,integerFloat integer bits =
      if isNan bits then none else some (compare (integer.toInt : ℚ) (floatValue bits))) ∧
    (∀ integer bits,(QueryValue.i64 integer).order (.f64 bits) =
      if isNan bits then .lt else compare (integer.toInt : ℚ) (floatValue bits)) ∧
    (∀ a b,(QueryValue.f64 a).order (.f64 b) =
      if isNan b then (if isNan a then .eq else .lt)
      else if isNan a then .gt else compare (floatValue a) (floatValue b)) ∧
    ∀ a b : QueryValue,a.Sized → b.Sized →
      (a.equivalent b = true ↔ a.hashInto = b.hashInto) := by
  refine ⟨fun a => beq_iff_eq.mp (equivalent_refl a),fun a b c => order_isLE_trans,
    fun a b => ⟨order_total a b,order_swap a b⟩,integerFloat_eq,?_,?_,
    fun a b => hashInto_eq_iff⟩
  · intro integer bits
    cases h : isNan bits with
    | true => exact order_integer_nan integer h
    | false => exact order_integer_float integer h
  · intro a b
    cases hb : isNan b with
    | true => exact order_float_nan a hb
    | false =>
      cases ha : isNan a with
      | true =>
        rw [QueryValue.order,floatOrder_nan ha,hb]
        rfl
      | false => exact order_float_float ha hb

/-- An integer and the float of its value, one of them deep inside a map. -/
theorem order_hash_agree_at_map :
    (QueryValue.map [.string [1],.list [.i64 3]]).hashInto =
      (QueryValue.map [.string [1],.list [.f64 0x4008000000000000]]).hashInto := by
  refine (order_hash_agree.2.2.2.2.2.2 _ _ ?_ ?_).mp (by decide +kernel)
  · simp [QueryValue.Sized,SizedList]
  · simp [QueryValue.Sized,SizedList]

end Zeppelin.Query
