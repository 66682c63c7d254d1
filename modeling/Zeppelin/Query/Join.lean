import Zeppelin.Query.Barrier
import Zeppelin.Query.BoundedExpand
import Zeppelin.Query.Predicate

/-! property_graph/query/pattern.rs -/

namespace Zeppelin.Query
open Machine

structure Child where
  schema : List ℕ
  rows : List ChildRow
  covers : ∀ row ∈ rows,row.cells.length = schema.length

structure Join where
  left : Child
  right : Child
  predicate : Option (List BackedValue → Except RuntimeError QueryValue)
  capacity : StorageCapacity
  digest : List UInt8 → UInt64

inductive BuildSide where
  | left
  | right
  deriving DecidableEq

def mixHash (hash digest : UInt64) : UInt64 :=
  (((hash <<< 13) ||| (hash >>> 51)) ^^^ digest)*0x9e3779b185ebca87

def hashSeed : UInt64 := 0x9e3779b97f4a7c15

def slotValue (schema : List ℕ) (cells : List BackedValue) (slot : ℕ) :
    Except RuntimeError BackedValue := do
  let column ← orBatch (column schema slot)
  orBatch cells[column]?

/-- `current_row_hash` and `retained_row_hash` -/
def rowHash (digest : List UInt8 → UInt64) (schema : List ℕ) (cells : List BackedValue) :
    List ℕ → UInt64 → Except RuntimeError UInt64
  | [],hash => .ok hash
  | slot::shared,hash => do
    let value ← slotValue schema cells slot
    rowHash digest schema cells shared (mixHash hash (digest value.value.hashInto))

/-- `current_rows_join` and `current_retained_rows_join` -/
def rowsJoin (schema : List ℕ) (cells : List BackedValue) (otherSchema : List ℕ)
    (otherCells : List BackedValue) : List ℕ → Except RuntimeError Bool
  | [] => .ok true
  | slot::shared => do
    let value ← slotValue schema cells slot
    let other ← slotValue otherSchema otherCells slot
    if (value.value.predicateEqual other.value).retained then
      rowsJoin schema cells otherSchema otherCells shared
    else return false

def usesCompatible (left right : List RelationshipUse) : Bool :=
  !left.any fun l => right.any fun r =>
    l.pattern = r.pattern && l.relationship = r.relationship && l.origin ≠ r.origin

structure RetainedRows where
  rows : RowBatch (List BackedValue)
  spans : QueryArena UseSpan
  uses : QueryArena RelationshipUse

def RetainedRows.new (capacity : StorageCapacity) : RetainedRows where
  rows := .empty capacity.rows capacity.limit
  spans := .new UseSpan capacity.rows
  uses := .new RelationshipUse (capacity.rows*16)

def RetainedRows.span (retained : RetainedRows) (row : ℕ) :
    Except RuntimeError (List RelationshipUse) := do
  let span ← orBatch retained.spans.values[row]?
  orBatch (slice retained.uses.values span.start span.len)

def drainOccurrence : List ChildRow → RetainedRows → Except RuntimeError RetainedRows
  | [],retained => .ok retained
  | child::children,retained => do
    let rows ← retained.rows.push needList child.cells
    let uses ← child.uses.foldlM QueryArena.push retained.uses
    let spans ← retained.spans.push ⟨retained.uses.values.length,child.uses.length⟩
    drainOccurrence children ⟨rows,spans,uses⟩

/-- No row is none here, and `usize::MAX` in the source. -/
structure HashIndex where
  heads : List (Option ℕ)
  links : List (Option ℕ)
  hashes : List UInt64

def HashIndex.bucket (index : HashIndex) (hash : UInt64) : ℕ := hash.toNat % index.heads.length

def indexRow (digest : List UInt8 → UInt64) (schema shared : List ℕ) (retained : RetainedRows)
    (capacity : ℕ) (index : HashIndex) (row : ℕ) : Except RuntimeError HashIndex := do
  let cells ← orBatch retained.rows.rows[row]?
  let hash ← rowHash digest schema cells shared hashSeed
  let head ← orBatch index.heads[index.bucket hash]?
  let links ← pushTo capacity index.links head
  let hashes ← pushTo capacity index.hashes hash
  return ⟨index.heads.set (index.bucket hash) (some (hashes.length-1)),links,hashes⟩

def buildHashIndex (digest : List UInt8 → UInt64) (schema shared : List ℕ)
    (retained : RetainedRows) (capacity bucketCount : ℕ) : Except RuntimeError HashIndex :=
  (List.range retained.rows.rows.length).foldlM
    (indexRow digest schema shared retained capacity)
    ⟨List.replicate bucketCount none,[],[]⟩

structure Built where
  retained : RetainedRows
  index : HashIndex

namespace Join

variable (join : Join)

/-- `shared_slots` -/
def shared : List ℕ := join.left.schema.filter (· ∈ join.right.schema)

/-- `merge_scope` -/
def schema : List ℕ :=
  join.left.schema++join.right.schema.filter (· ∉ join.left.schema)

def predicateRetained (cells : List BackedValue) : Except RuntimeError Bool :=
  match join.predicate with
  | none => .ok true
  | some predicate => do
    let value ← predicate cells
    let truth ← value.truth.mapError .value
    return truth.retained

/-- A combined row is put out, or cleared again where the predicate does not keep it. -/
def offer (cell : ℕ → Except RuntimeError BackedValue) (uses : List RelationshipUse) :
    Except RuntimeError (Option Output) := do
  let cells ← join.schema.mapM cell
  let output ← emitRow join.capacity cells uses
  let retained ← join.predicateRetained output.1
  return if retained then some output else none

/-- A column of `combine_current_rows` -/
def currentCell (left right : ChildRow) (slot : ℕ) : Except RuntimeError BackedValue :=
  match column join.left.schema slot with
  | some source => orBatch left.cells[source]?
  | none => slotValue join.right.schema right.cells slot

def currentPair (left right : ChildRow) : Except RuntimeError (Option Output) := do
  let joins ← rowsJoin join.left.schema left.cells join.right.schema right.cells join.shared
  if joins && usesCompatible left.uses right.uses then
    join.offer (join.currentCell left right) (left.uses++right.uses)
  else return none

def build : BuildSide → Child
  | .left => join.left
  | .right => join.right

def probe : BuildSide → Child
  | .left => join.right
  | .right => join.left

/-- A column of `combine_hash_rows`: which side it is taken from does not depend on the side that
was built. -/
def hashCell (side : BuildSide) (probe build : ChildRow) (slot : ℕ) :
    Except RuntimeError BackedValue :=
  let logical:=if (column join.left.schema slot).isSome then BuildSide.left else .right
  if logical = side then slotValue (join.build side).schema build.cells slot
  else slotValue (join.probe side).schema probe.cells slot

def retainedPair (side : BuildSide) (retained : RetainedRows) (probe : ChildRow) (row : ℕ) :
    Except RuntimeError (Option Output) := do
  let cells ← orBatch retained.rows.rows[row]?
  let joins ← rowsJoin (join.probe side).schema probe.cells (join.build side).schema cells
    join.shared
  if joins then do
    let uses ← retained.span row
    if usesCompatible probe.uses uses then
      join.offer (join.hashCell side probe ⟨cells,uses⟩) (probe.uses++uses)
    else return none
  else return none

structure Nested where
  lefts : List ChildRow
  current : Option ChildRow
  rights : List ChildRow
  leftActive : Bool

def nestedStart : Nested := ⟨join.left.rows,none,[],false⟩

def nestedRound (state : Nested) : Except RuntimeError (Turn Nested Output) :=
  if state.leftActive then
    match state.rights,state.current with
    | [],_ => .ok (.next { state with leftActive := false })
    | _::_,none => .error .batch
    | right::rights,some left =>
      Turn.offer { state with rights := rights } <$> join.currentPair left right
  else
    match state.lefts with
    | [] => .ok .done
    | left::lefts => .ok (.next ⟨lefts,some left,join.right.rows,true⟩)

structure Hashed where
  built : Option Built
  probes : List ChildRow
  current : Option ChildRow
  probeActive : Bool
  nextCandidate : Option ℕ

def hashStart (side : BuildSide) : Hashed := ⟨none,(join.probe side).rows,none,false,none⟩

def buildTable (side : BuildSide) : Except RuntimeError Built := do
  let retained ← drainOccurrence (join.build side).rows (.new join.capacity)
  let index ← buildHashIndex join.digest (join.build side).schema join.shared retained
    join.capacity.rows join.capacity.rows.nextPowerOfTwo
  return ⟨retained,index⟩

def probeHash (side : BuildSide) (probe : ChildRow) : Except RuntimeError UInt64 :=
  rowHash join.digest (join.probe side).schema probe.cells join.shared hashSeed

def candidate (side : BuildSide) (built : Built) (probe : ChildRow) (row : ℕ) :
    Except RuntimeError (Option Output) := do
  let hash ← join.probeHash side probe
  if built.index.hashes[row]? = some hash then join.retainedPair side built.retained probe row
  else return none

def hashRound (side : BuildSide) (state : Hashed) : Except RuntimeError (Turn Hashed Output) :=
  match state.built with
  | none => do
    let built ← join.buildTable side
    return .next { state with built := some built }
  | some built =>
    if state.probeActive then
      match state.nextCandidate,state.current with
      | none,_ => .ok (.next { state with probeActive := false })
      | some _,none => .error .batch
      | some row,some probe => do
        let link ← orBatch built.index.links[row]?
        let found ← join.candidate side built probe row
        return Turn.offer { state with nextCandidate := link } found
    else
      match state.probes with
      | [] => .ok .done
      | probe::probes => do
        let hash ← join.probeHash side probe
        let head ← orBatch built.index.heads[built.index.bucket hash]?
        return .next ⟨some built,probes,some probe,true,head⟩

end Join

end Zeppelin.Query
