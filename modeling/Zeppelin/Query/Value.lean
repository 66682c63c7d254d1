import Mathlib.Data.Rat.Floor
import Zeppelin.Machine.Except

/-! property_graph/query/value.rs, grouping.rs -/

namespace Zeppelin.Query

inductive QueryError where
  | type
  | arithmeticOverflow
  | arithmeticDomain
  | listLimit
  deriving DecidableEq

inductive QueryValue where
  | null
  | bool (value : Bool)
  | i64 (value : Int64)
  | f64 (bits : UInt64)
  | string (bytes : List UInt8)
  | list (values : List QueryValue)
  | map (entries : List QueryValue)
  | nodeRef (id : ℕ)
  | relRef (id : ℕ)

inductive Truth where
  | false
  | unknown
  | true
  deriving DecidableEq

def Truth.retained : Truth → Bool
  | .true => Bool.true
  | _ => Bool.false

def QueryValue.truth : QueryValue → Except QueryError Truth
  | .null => .ok .unknown
  | .bool Bool.true => .ok .true
  | .bool Bool.false => .ok .false
  | _ => .error .type

def QueryValue.isNull : QueryValue → Bool
  | .null => Bool.true
  | _ => Bool.false

def floatExponent (bits : UInt64) : ℕ := bits.toNat / 2^52 % 2^11

def floatFraction (bits : UInt64) : ℕ := bits.toNat % 2^52

def significand (bits : UInt64) : ℕ := floatFraction bits+2^52

def isSignNegative (bits : UInt64) : Bool := 2^63 ≤ bits.toNat

def isNan (bits : UInt64) : Bool := floatExponent bits = 2047 ∧ floatFraction bits ≠ 0

def isInfinite (bits : UInt64) : Bool := floatExponent bits = 2047 ∧ floatFraction bits = 0

/-- The exact magnitude; infinity stands above all finite ones. -/
def floatMagnitude (bits : UInt64) : ℚ :=
  if floatExponent bits = 0 then floatFraction bits*2^(-1074 : ℤ)
  else significand bits*2^((floatExponent bits : ℤ)-1075)

def floatValue (bits : UInt64) : ℚ :=
  if isSignNegative bits then -floatMagnitude bits else floatMagnitude bits

def partialCmp (a b : UInt64) : Option Ordering :=
  if isNan a ∨ isNan b then none else some (compare (floatValue a) (floatValue b))

def truncate (value : ℚ) : ℤ := if 0 ≤ value then ⌊value⌋ else ⌈value⌉

/-- `f64 as i64`: cut towards zero, and kept inside the range. -/
def floatToInt (bits : UInt64) : Int64 :=
  if isNan bits then 0
  else Int64.ofInt (max (-2^63) (min (2^63-1) (truncate (floatValue bits))))

def magnitudeOrder (magnitude : ℕ) (bits : UInt64) : Ordering :=
  let exponent : ℤ := (floatExponent bits : ℤ)-1023
  if exponent < 0 then (if magnitude = 0 then .lt else .gt)
  else if exponent > 63 then .lt
  else if exponent ≥ 52 then compare magnitude (significand bits*2^(exponent-52).toNat)
  else
    let shift:=(52-exponent).toNat
    (compare magnitude (significand bits / 2^shift)).then
      (if significand bits % 2^shift ≠ 0 then .lt else .eq)

def integerFloat (integer : Int64) (float : UInt64) : Option Ordering :=
  if isNan float then none
  else if floatMagnitude float = 0 then some (compare integer.toInt 0)
  else if isInfinite float then some (if isSignNegative float then .gt else .lt)
  else if isSignNegative float ≠ decide (integer.toInt < 0) then
    some (if isSignNegative float then .gt else .lt)
  else
    let order:=magnitudeOrder integer.toInt.natAbs float
    some (if isSignNegative float then order.swap else order)

def QueryValue.rank : QueryValue → ℕ
  | .map _ => 0
  | .nodeRef _ => 1
  | .relRef _ => 2
  | .list _ => 3
  | .string _ => 4
  | .bool _ => 5
  | .i64 _ | .f64 _ => 6
  | .null => 7

def compareBytes (a b : List UInt8) : Ordering :=
  List.compareLex (fun x y => compare x.toNat y.toNat) a b

def floatOrder (a b : UInt64) : Ordering :=
  match partialCmp a b with
  | some order => order
  | none => compare (isNan a) (isNan b)

mutual

def QueryValue.order : QueryValue → QueryValue → Ordering
  | .null,.null => .eq
  | .nodeRef a,.nodeRef b => compare a b
  | .relRef a,.relRef b => compare a b
  | .bool a,.bool b => compare a b
  | .string a,.string b => compareBytes a b
  | .i64 a,.i64 b => compare a.toInt b.toInt
  | .i64 a,.f64 b => (integerFloat a b).getD .lt
  | .f64 a,.i64 b => ((integerFloat b a).map Ordering.swap).getD .gt
  | .f64 a,.f64 b => floatOrder a b
  | .map a,.map b => orderList a b
  | .list a,.list b => orderList a b
  | a,b => compare a.rank b.rank

def orderList : List QueryValue → List QueryValue → Ordering
  | [],[] => .eq
  | [],_::_ => .lt
  | _::_,[] => .gt
  | a::as,b::bs => (a.order b).then (orderList as bs)

end

def QueryValue.equivalent (a b : QueryValue) : Bool := a.order b == .eq

def leBytes : ℕ → ℕ → List UInt8
  | 0,_ => []
  | width+1,value => UInt8.ofNat (value % 256)::leBytes width (value / 256)

def hashInteger (value : Int64) : List UInt8 := 0::leBytes 8 value.toUInt64.toNat

def hashFloat (bits : UInt64) : List UInt8 :=
  if integerFloat (floatToInt bits) bits = some .eq then hashInteger (floatToInt bits)
  else 1::leBytes 8 (if isNan bits then 0x7ff8000000000000 else bits.toNat)

mutual

def QueryValue.hashInto : QueryValue → List UInt8
  | .null => [7]
  | .nodeRef id => 1::leBytes 16 id
  | .relRef id => 2::leBytes 16 id
  | .bool value => [5,if value then 1 else 0]
  | .string bytes => 4::(leBytes 8 bytes.length++bytes)
  | .i64 value => 6::hashInteger value
  | .f64 bits => 6::hashFloat bits
  | .map entries => 0::3::(leBytes 8 entries.length++hashList entries)
  | .list values => 3::(leBytes 8 values.length++hashList values)

def hashList : List QueryValue → List UInt8
  | [] => []
  | value::values => value.hashInto++hashList values

end

end Zeppelin.Query
