import Mathlib.Data.List.Sort
import Mathlib.Data.Finset.Card
import Zeppelin.Meta.Columns

/-! meta/predicate.rs -/

namespace Zeppelin.Meta
open Ingest

structure RangeBound where
  value : PredicateValue
  inclusive : Bool
  deriving DecidableEq

structure RangePredicate where
  column : ColumnId
  lower : Option RangeBound
  upper : Option RangeBound
  deriving DecidableEq

inductive Predicate where
  | eq (column : ColumnId) (value : PredicateValue)
  | isIn (column : ColumnId) (values : List PredicateValue)
  | range (range : RangePredicate)
  | exists_ (column : ColumnId)
  | isNull (column : ColumnId)
  | and (children : List Predicate)
  | or (children : List Predicate)
  | not (child : Predicate)

inductive EvalError where
  | rowCountMismatch (columns alive : U32)
  | unknownColumn (column : ColumnId)
  | typeMismatch (column : ColumnId) (expected actual : ColumnType)
  | rangeRequiresNumericColumn (column : ColumnId)
  deriving DecidableEq

def f64IsNan (bits : U64) : Bool :=
  bits.toNat / 2^52 % 2^11 = 2047 ∧ bits.toNat % 2^52 ≠ 0

def f64Key (bits : U64) : ℤ :=
  if bits.toNat < 2^63 then bits.toNat else -((bits.toNat-2^63 : ℕ) : ℤ)

def f64Eq (a b : U64) : Bool := !f64IsNan a && !f64IsNan b && f64Key a = f64Key b

def f64Le (a b : U64) : Bool := !f64IsNan a && !f64IsNan b && f64Key a ≤ f64Key b

def f64Lt (a b : U64) : Bool := !f64IsNan a && !f64IsNan b && f64Key a < f64Key b

/-- The loop over an array: rows beyond the 32-bit row space are not reached. -/
def scanRows {α : Type} (keep : U32 → α → Bool) : ℕ → List α → DocBitmap → DocBitmap
  | _,[],result => result
  | position,value::values,result =>
    match toU32 position with
    | none => result
    | some row =>
      scanRows keep (position+1) values (if keep row value then insert row result else result)

/-- The rows in scope whose value is there and passes the test. -/
def scanColumn {α : Type} (values : List α) (present scope : DocBitmap) (test : α → Bool) :
    DocBitmap :=
  scanRows (fun row value => row ∈ scope && row ∈ present && test value) 0 values ∅

def getColumn (columns : ColumnStore) (id : ColumnId) : Except EvalError Column :=
  match columns.column id with
  | none => .error (.unknownColumn id)
  | some column => .ok column

def ensureType (id : ColumnId) (column : Column) (query : PredicateValue) :
    Except EvalError Unit :=
  if compatibleWith query column.columnType then .ok ()
  else .error (.typeMismatch id column.columnType (valueType query))

def evalDictionaryEq (column : DictionaryColumn) (query : String) (scope : DocBitmap) : DocBitmap :=
  match findCode column.dictionary query with
  | none => ∅
  | some queryCode =>
    scanColumn column.codes.toList column.present scope fun code => code == queryCode

def evalRawStringEq (column : RawStringColumn) (query : String) (scope : DocBitmap) : DocBitmap :=
  scanColumn (List.range column.values.len) column.present scope fun position =>
    column.values.get position == some query

def evalEq (id : ColumnId) (query : PredicateValue) (columns : ColumnStore) (scope : DocBitmap) :
    Except EvalError DocBitmap := do
  let column ← getColumn columns id
  ensureType id column query
  return match column,query with
  | .id128 column,.id128 query => scanColumn column.values column.present scope (· == query)
  | .u64 column,.u64 query => scanColumn column.values column.present scope (· == query)
  | .i64 column,.i64 query => scanColumn column.values column.present scope (· == query)
  | .f64 column,.f64 query => scanColumn column.values column.present scope (f64Eq · query)
  | .bool column,.bool query =>
    scanColumn column.values column.present scope (· == BuilderColumn.boolByte query)
  | .dictionaryString column,.string query => evalDictionaryEq column query scope
  | .rawString column,.string query => evalRawStringEq column query scope
  | _,_ => ∅

def ensureTypes (id : ColumnId) (column : Column) : List PredicateValue → Except EvalError Unit
  | [] => .ok ()
  | query::queries => do
    ensureType id column query
    ensureTypes id column queries

def evalEach (id : ColumnId) (columns : ColumnStore) (scope : DocBitmap) :
    List PredicateValue → DocBitmap → Except EvalError DocBitmap
  | [],result => .ok result
  | query::queries,result => do
    let matched ← evalEq id query columns scope
    evalEach id columns scope queries (result ∪ matched)

def stringMembers (queries : List PredicateValue) : List String :=
  queries.filterMap fun query => match query with
    | .string value => some value
    | _ => none

def evalIn (id : ColumnId) (queries : List PredicateValue) (columns : ColumnStore)
    (scope : DocBitmap) : Except EvalError DocBitmap := do
  let column ← getColumn columns id
  ensureTypes id column queries
  match column with
  | .rawString column =>
    if queries = [] then return ∅
    else return scanColumn (List.range column.values.len) column.present scope fun position =>
      (column.values.get position).any fun value => (stringMembers queries).contains value
  | _ => evalEach id columns scope queries ∅

/-- `u64_bound`, `i64_bound` and `f64_bound`: the endpoint, if it has the type. -/
def typedBound (column : ColumnId) (expected : ColumnType)
    (endpoint : PredicateValue → Option U64) :
    Option RangeBound → Except EvalError (Option (U64 × Bool))
  | none => .ok none
  | some bound =>
    match endpoint bound.value with
    | some value => .ok (some (value,bound.inclusive))
    | none => .error (.typeMismatch column expected (valueType bound.value))

def u64Endpoint : PredicateValue → Option U64
  | .u64 value => some value
  | _ => none

def i64Endpoint : PredicateValue → Option U64
  | .i64 value => some value
  | _ => none

def f64Endpoint : PredicateValue → Option U64
  | .f64 bits => some bits
  | _ => none

def lowerMatches (le lt : U64 → U64 → Bool) (value : U64) : Option (U64 × Bool) → Bool
  | none => true
  | some (endpoint,inclusive) => if inclusive then le endpoint value else lt endpoint value

def upperMatches (le lt : U64 → U64 → Bool) (value : U64) : Option (U64 × Bool) → Bool
  | none => true
  | some (endpoint,inclusive) => if inclusive then le value endpoint else lt value endpoint

def evalOrderedRange (le lt : U64 → U64 → Bool) (column : NumericColumn U64) (scope : DocBitmap)
    (lower upper : Option (U64 × Bool)) : DocBitmap :=
  scanColumn column.values column.present scope fun value =>
    lowerMatches le lt value lower && upperMatches le lt value upper

def evalF64Range (column : NumericColumn U64) (scope : DocBitmap)
    (lower upper : Option (U64 × Bool)) : DocBitmap :=
  if (lower.any fun bound => f64IsNan bound.1) || (upper.any fun bound => f64IsNan bound.1) then ∅
  else scanColumn column.values column.present scope fun value =>
    !f64IsNan value && lowerMatches f64Le f64Lt value lower && upperMatches f64Le f64Lt value upper

def evalRange (range : RangePredicate) (columns : ColumnStore) (scope : DocBitmap) :
    Except EvalError DocBitmap := do
  match ← getColumn columns range.column with
  | .u64 column => do
    let lower ← typedBound range.column .u64 u64Endpoint range.lower
    let upper ← typedBound range.column .u64 u64Endpoint range.upper
    return evalOrderedRange BitVec.ule BitVec.ult column scope lower upper
  | .i64 column => do
    let lower ← typedBound range.column .i64 i64Endpoint range.lower
    let upper ← typedBound range.column .i64 i64Endpoint range.upper
    return evalOrderedRange BitVec.sle BitVec.slt column scope lower upper
  | .f64 column => do
    let lower ← typedBound range.column .f64 f64Endpoint range.lower
    let upper ← typedBound range.column .f64 f64Endpoint range.upper
    return evalF64Range column scope lower upper
  | _ => throw (.rangeRequiresNumericColumn range.column)

def divCeil (a b : ℕ) : ℕ := (a+b-1) / b

/-- Additions and products stop at `u64::MAX`. -/
def saturate (n : ℕ) : ℕ := min n (2^64-1)

mutual

def estimateCardinality (columns : ColumnStore) : Predicate → DocBitmap → ℕ
  | .eq _ _ => fun scope => divCeil scope.card 16
  | .isIn _ values => fun scope =>
    min (divCeil (saturate (scope.card*saturate values.length)) 16) scope.card
  | .range _ => fun scope => scope.card / 2
  | .exists_ id => fun scope =>
    match columns.column id with
    | none => scope.card
    | some column => (column.present ∩ scope).card
  | .isNull id => fun scope =>
    match columns.column id with
    | none => scope.card
    | some column => (scope \ column.present).card
  | .and children => fun scope => ((estimateEach columns children scope).min?).getD scope.card
  | .or children => fun scope =>
    min ((estimateEach columns children scope).foldl (fun sum n => saturate (sum+n)) 0) scope.card
  | .not _ => fun scope => scope.card / 2

def estimateEach (columns : ColumnStore) : List Predicate → DocBitmap → List ℕ
  | [] => fun _ => []
  | child::children => fun scope =>
    estimateCardinality columns child scope::estimateEach columns children scope

end

abbrev RankedChild := ℕ × (DocBitmap → Except EvalError DocBitmap)

def evalOrdered : List RankedChild → DocBitmap → Except EvalError DocBitmap
  | [],result => .ok result
  | child::children,result =>
    if result = ∅ then .ok result
    else do
      let result ← child.2 result
      evalOrdered children result

/-- `eval_and`: a stable sort by estimate, then the children in order. -/
def evalAnd (children : List RankedChild) (scope : DocBitmap) : Except EvalError DocBitmap :=
  evalOrdered (children.insertionSort fun a b => a.1 ≤ b.1) scope

mutual

def evaluateInScope (columns : ColumnStore) :
    Predicate → DocBitmap → Except EvalError DocBitmap
  | .eq column value => fun scope => evalEq column value columns scope
  | .isIn column values => fun scope => evalIn column values columns scope
  | .range range => fun scope => evalRange range columns scope
  | .exists_ column => fun scope => do
    let column ← getColumn columns column
    return column.present ∩ scope
  | .isNull column => fun scope => do
    let column ← getColumn columns column
    return scope \ column.present
  | .and children => fun scope => evalAnd (rankChildren columns children scope) scope
  | .or children => fun scope => evalOr columns children scope ∅
  | .not child => fun scope => do
    let result ← evaluateInScope columns child scope
    return scope \ result

def rankChildren (columns : ColumnStore) : List Predicate → DocBitmap → List RankedChild
  | [] => fun _ => []
  | child::children => fun scope =>
    (estimateCardinality columns child scope,evaluateInScope columns child)::
      rankChildren columns children scope

def evalOr (columns : ColumnStore) :
    List Predicate → DocBitmap → DocBitmap → Except EvalError DocBitmap
  | [] => fun _ result => .ok result
  | child::children => fun scope result =>
    if scope \ result = ∅ then .ok result
    else do
      let matched ← evaluateInScope columns child (scope \ result)
      evalOr columns children scope (result ∪ matched)

end

def evaluate (predicate : Predicate) (columns : ColumnStore) (alive : AliveSet) :
    Except EvalError DocBitmap :=
  if columns.rowCount ≠ alive.rowCount then
    .error (.rowCountMismatch columns.rowCount alive.rowCount)
  else evaluateInScope columns predicate alive.alive

end Zeppelin.Meta
