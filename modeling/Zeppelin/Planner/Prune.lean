import Zeppelin.Meta.Predicate

/-! planner/prune.rs -/

namespace Zeppelin.Planner
open Ingest Meta

inductive PlanError where
  | unknownColumn (column : ColumnId)
  | typeMismatch (column : ColumnId) (expected actual : ColumnType)
  | rangeRequiresNumericColumn (column : ColumnId)
  | rowCountMismatch (columns alive : U32)
  deriving DecidableEq

def requireColumn (column : ColumnId) (schema : Schema) : Except PlanError ColumnDefinition :=
  match schema.column column with
  | none => .error (.unknownColumn column)
  | some definition => .ok definition

def validateValue (column : ColumnId) (value : PredicateValue) (schema : Schema) :
    Except PlanError Unit := do
  let definition ← requireColumn column schema
  if definition.columnType = valueType value ∨
      definition.columnType = .dictionaryString ∧ valueType value = .rawString then return ()
  else throw (.typeMismatch column definition.columnType (valueType value))

def validateValues (column : ColumnId) (schema : Schema) :
    List PredicateValue → Except PlanError Unit
  | [] => .ok ()
  | value::values => do
    validateValue column value schema
    validateValues column schema values

def validateBound (column : ColumnId) (schema : Schema) : Option RangeBound → Except PlanError Unit
  | none => .ok ()
  | some bound => validateValue column bound.value schema

mutual

def validatePredicate (schema : Schema) : Predicate → Except PlanError Unit
  | .eq column value => validateValue column value schema
  | .isIn column values => do
    let _ ← requireColumn column schema
    validateValues column schema values
  | .range range => do
    let definition ← requireColumn range.column schema
    if definition.columnType = .u64 ∨ definition.columnType = .i64 ∨
        definition.columnType = .f64 then do
      validateBound range.column schema range.lower
      validateBound range.column schema range.upper
    else throw (.rangeRequiresNumericColumn range.column)
  | .exists_ column | .isNull column => do
    let _ ← requireColumn column schema
    return ()
  | .and children | .or children => validateEach schema children
  | .not child => validatePredicate schema child

def validateEach (schema : Schema) : List Predicate → Except PlanError Unit
  | [] => .ok ()
  | child::children => do
    validatePredicate schema child
    validateEach schema children

end

inductive ClusteringKeyRange where
  | unstamped
  | empty
  | bounded (minTs maxTs : U64)
  deriving DecidableEq

/-- `i64::min` and `i64::max`. -/
def minTimestamp (a b : U64) : U64 := if a.sle b then a else b

def maxTimestamp (a b : U64) : U64 := if a.sle b then b else a

def widenBounds (bounds : Option (U64 × U64)) (timestamp : U64) : Option (U64 × U64) :=
  match bounds with
  | none => some (timestamp,timestamp)
  | some (minimum,maximum) => some (minTimestamp minimum timestamp,maxTimestamp maximum timestamp)

/-- The timestamps of the live rows, in row order. A row without one is an error
of the source. -/
def collectBounds (timestamp : U32 → Option U64) :
    List U32 → Option (U64 × U64) → Option (Option (U64 × U64))
  | [],bounds => some bounds
  | row::rows,bounds => do
    let ts ← timestamp row
    collectBounds timestamp rows (widenBounds bounds ts)

def stampedRange : Option (U64 × U64) → ClusteringKeyRange
  | some (minTs,maxTs) => .bounded minTs maxTs
  | none => .empty

def iterAlive (alive : AliveSet) : List U32 :=
  ((List.range alive.rowCount.toNat).map fun row => BitVec.ofNat 32 row).filter fun row =>
    row ∈ alive.alive

/-- `clustering_key_range` of a seal; `none` is `ActiveRowOverflow`. -/
def clusteringKeyRange (timestamps : List U64) (alive : AliveSet) : Option ClusteringKeyRange :=
  (collectBounds (fun row => timestamps[row.toNat]?) (iterAlive alive) none).map stampedRange

def clusteringRange (columns : ColumnStore) (alive : AliveSet) : Option ClusteringKeyRange :=
  (collectBounds columns.timestamp (iterAlive alive) none).map stampedRange

def timestampWithin (minTs maxTs : U64) : PredicateValue → Bool
  | .i64 value => minTs.sle value && value.sle maxTs
  | _ => false

def lowerOverlaps (maxTs : U64) : Option RangeBound → Bool
  | none => true
  | some bound =>
    match bound.value with
    | .i64 value => if bound.inclusive then value.sle maxTs else value.slt maxTs
    | _ => false

def upperOverlaps (minTs : U64) : Option RangeBound → Bool
  | none => true
  | some bound =>
    match bound.value with
    | .i64 value => if bound.inclusive then minTs.sle value else minTs.slt value
    | _ => false

mutual

def predicateMayMatchTimestamp (minTs maxTs : U64) : Predicate → Bool
  | .eq column value => if column = timestampColumn then timestampWithin minTs maxTs value else true
  | .isIn column values =>
    if column = timestampColumn then values.any (timestampWithin minTs maxTs) else true
  | .range range =>
    if range.column = timestampColumn then
      lowerOverlaps maxTs range.lower && upperOverlaps minTs range.upper
    else true
  | .exists_ _ => true
  | .isNull column => if column = timestampColumn then false else true
  | .and children => allMayMatch minTs maxTs children
  | .or children => anyMayMatch minTs maxTs children
  | .not _ => true

def allMayMatch (minTs maxTs : U64) : List Predicate → Bool
  | [] => true
  | child::children =>
    predicateMayMatchTimestamp minTs maxTs child && allMayMatch minTs maxTs children

def anyMayMatch (minTs maxTs : U64) : List Predicate → Bool
  | [] => false
  | child::children =>
    predicateMayMatchTimestamp minTs maxTs child || anyMayMatch minTs maxTs children

end

def segmentMayMatch (range : ClusteringKeyRange) (predicate : Predicate) : Bool :=
  match range with
  | .unstamped => true
  | .empty => false
  | .bounded minTs maxTs => predicateMayMatchTimestamp minTs maxTs predicate

end Zeppelin.Planner
