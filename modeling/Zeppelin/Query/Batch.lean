import Zeppelin.Machine.Stateful
import Zeppelin.Query.CopySpec

/-! property_graph/query/runtime/batch.rs, resources.rs -/

namespace Zeppelin.Query.Batch
open Machine

/-- A value as it is pushed. A map, too, may stand over a packed list. -/
inductive PushedValue where
  | null
  | bool (value : Bool)
  | i64 (value : Int64)
  | f64 (bits : UInt64)
  | string (bytes : List UInt8)
  | nodeRef (id : ℕ)
  | relRef (id : ℕ)
  | list (map : Bool) (values : List PushedValue)
  | nodes (map : Bool) (ids : List ℕ)
  | relationships (map : Bool) (ids : List ℕ)

def listOrMap (map : Bool) (values : List QueryValue) : QueryValue :=
  if map then .map values else .list values

mutual

def PushedValue.value : PushedValue → QueryValue
  | .null => .null
  | .bool value => .bool value
  | .i64 value => .i64 value
  | .f64 bits => .f64 bits
  | .string bytes => .string bytes
  | .nodeRef id => .nodeRef id
  | .relRef id => .relRef id
  | .list map values => listOrMap map (pushedList values)
  | .nodes map ids => listOrMap map (ids.map .nodeRef)
  | .relationships map ids => listOrMap map (ids.map .relRef)

def pushedList : List PushedValue → List QueryValue
  | [] => []
  | value::values => value.value::pushedList values

end

inductive Request where
  | checkpoint
  | step
  | validate (value : PushedValue)
  | copied (count : ℕ)
  | reserve (capacity : ℕ)
  | rowsOut

abbrev Context (κ : Type) := Request → κ → Except RuntimeError Unit × κ

structure QueryArena (α : Type) where
  values : List α
  capacity : ℕ

def QueryArena.extendCopy {α : Type} (arena : QueryArena α) (values : List α) :
    Except RuntimeError (QueryArena α) :=
  if arena.values.length+values.length > arena.capacity then .error .memory
  else .ok { arena with values := arena.values++values }

def QueryArena.push {α : Type} (arena : QueryArena α) (value : α) :
    Except RuntimeError (QueryArena α) :=
  if arena.values.length = arena.capacity then .error .memory
  else .ok { arena with values := arena.values++[value] }

def QueryArena.truncate {α : Type} (arena : QueryArena α) (length : ℕ) : QueryArena α :=
  { arena with values := arena.values.take length }

inductive Kind where
  | bytes
  | children
  | nodes
  | relationships
  deriving DecidableEq

def Kind.arena : Kind → Arena
  | .bytes => .stringBytes
  | .children => .listCells
  | .nodes => .nodeIds
  | .relationships => .relationshipIds

def Kind.Element : Kind → Type
  | .bytes => UInt8
  | .children => Cell
  | .nodes | .relationships => ℕ

structure Arenas where
  limit : Usage
  payload : ℕ
  store : (kind : Kind) → QueryArena kind.Element

def Arenas.used (arenas : Arenas) (kind : Kind) : ℕ := (arenas.store kind).values.length

def Arenas.put (arenas : Arenas) (kind : Kind) (arena : QueryArena kind.Element) : Arenas :=
  { arenas with store := Function.update arenas.store kind arena }

def Arenas.contents (arenas : Arenas) : VariableArena where
  limit := arenas.limit
  payload := arenas.payload
  bytes := (arenas.store .bytes).values
  children := (arenas.store .children).values
  nodes := (arenas.store .nodes).values
  relationships := (arenas.store .relationships).values

def chunks {α : Type} (size : ℕ) : ℕ → List α → List (List α)
  | 0,_ => []
  | fuel+1,list =>
    if list = [] then [] else list.take size::chunks size fuel (list.drop size)

def chunksOf {α : Type} (size : ℕ) (list : List α) : List (List α) := chunks size list.length list

section Copy

variable {κ : Type} (context : Context κ)

abbrev Copying (κ α : Type) := Stateful RuntimeError (Arenas × κ) α

def ask (request : Request) : Copying κ Unit := ⟨fun s =>
  ((context request s.2).1,(s.1,(context request s.2).2))⟩

def refill {α : Type} : List (List α) → QueryArena α → Copying κ (QueryArena α)
  | [],replacement => pure replacement
  | chunk::rest,replacement => do
    ask context .checkpoint
    ask context (.copied chunk.length)
    match replacement.extendCopy chunk with
    | .ok replacement => refill rest replacement
    | .error e => Stateful.fail e

/-- An arena is replaced by a larger one where its capacity does not do. -/
def growTo (kind : Kind) (needed : ℕ) (arenas : Arenas) : Copying κ Unit :=
  if needed ≤ (arenas.store kind).capacity then pure ()
  else do
    let capacity:=min (max needed ((arenas.store kind).capacity*2)) (arenas.limit kind.arena)
    ask context (.reserve capacity)
    let replacement ← refill context (chunksOf 1024 (arenas.store kind).values) ⟨[],capacity⟩
    Stateful.update fun s => (s.1.put kind replacement,s.2)

def grow (kind : Kind) (additional : ℕ) : Copying κ Unit := do
  let arenas ← Stateful.read Prod.fst
  Stateful.require (arenas.used kind+additional ≤ arenas.limit kind.arena) .batchCapacity
  growTo context kind (arenas.used kind+additional) arenas

def copied (bytes : ℕ) : Copying κ Unit := do
  let arenas ← Stateful.read Prod.fst
  Stateful.require (arenas.payload+bytes ≤ arenas.limit .payloadBytes) .batchCapacity
  ask context (.copied bytes)
  Stateful.update fun s => ({ s.1 with payload := arenas.payload+bytes },s.2)

def extendCopy (kind : Kind) (values : List kind.Element) : Copying κ Unit :=
  Stateful.attempt fun s => do
    let arena ← (s.1.store kind).extendCopy values
    return (s.1.put kind arena,s.2)

def push (kind : Kind) (value : kind.Element) : Copying κ Unit :=
  Stateful.attempt fun s => do
    let arena ← (s.1.store kind).push value
    return (s.1.put kind arena,s.2)

def setChild (place : ℕ) (cell : Cell) : Copying κ Unit :=
  Stateful.attempt fun s =>
    if place < s.1.used .children then
      .ok (s.1.put .children { s.1.store .children with
        values := (s.1.store .children).values.set place cell },s.2)
    else .error .batch

def begin (value : PushedValue) : Copying κ Unit := do
  ask context .step
  ask context (.validate value)

def scalar (value : PushedValue) (cell : Cell) (bytes : ℕ) : Copying κ Cell := do
  begin context value
  copied context bytes
  return cell

def addBytes (chunk : List UInt8) : Copying κ Unit := do
  ask context .checkpoint
  copied context chunk.length
  extendCopy .bytes chunk

def copyString (text : List UInt8) : Copying κ Cell := do
  let arenas ← Stateful.read Prod.fst
  Stateful.require (arenas.payload+text.length ≤ arenas.limit .payloadBytes) .batchCapacity
  grow context .bytes text.length
  let start ← Stateful.read fun s => s.1.used .bytes
  Stateful.each (addBytes context) (chunksOf 65536 text)
  return .string start text.length

def addId (kind : Kind) (id : kind.Element) : Copying κ Unit := do
  ask context .step
  copied context 16
  push kind id

def copyIds (kind : Kind) (ids : List kind.Element) : Copying κ ℕ := do
  grow context kind ids.length
  let start ← Stateful.read fun s => s.1.used kind
  Stateful.each (addId context kind) ids
  return start

def addPlace (cell : Cell) : Copying κ Unit := do
  ask context .step
  push .children cell

def reserveChildren (count : ℕ) : Copying κ ℕ := do
  grow context .children count
  let start ← Stateful.read fun s => s.1.used .children
  Stateful.each (addPlace context) (List.replicate count Cell.null)
  return start

mutual

def copyValue : PushedValue → ℕ → Copying κ Cell
  | .null,_ => scalar context .null .null 0
  | .bool value,_ => scalar context (.bool value) (.bool value) 1
  | .i64 value,_ => scalar context (.i64 value) (.i64 value) 8
  | .f64 bits,_ => scalar context (.f64 bits) (.f64 bits) 8
  | .nodeRef id,_ => scalar context (.nodeRef id) (.node id) 16
  | .relRef id,_ => scalar context (.relRef id) (.relationship id) 16
  | .string text,_ => do
    begin context (.string text)
    copyString context text
  -- a packed list loses the flag of a map
  | .nodes map ids,depth => do
    begin context (.nodes map ids)
    Stateful.require (depth < maxListDepth) .batch
    let start ← copyIds context .nodes ids
    return .nodes start ids.length
  | .relationships map ids,depth => do
    begin context (.relationships map ids)
    Stateful.require (depth < maxListDepth) .batch
    let start ← copyIds context .relationships ids
    return .relationships start ids.length
  | .list map values,depth => do
    begin context (.list map values)
    Stateful.require (depth < maxListDepth) .batch
    let start ← reserveChildren context values.length
    copyChildren values (depth+1) start
    return .list map start values.length

def copyChildren : List PushedValue → ℕ → ℕ → Copying κ Unit
  | [],_,_ => pure ()
  | value::values,depth,place => do
    let cell ← copyValue value depth
    setChild place cell
    copyChildren values depth (place+1)

end

end Copy

structure RowOffset where
  start : ℕ
  payloadBytes : ℕ

structure RowBatch where
  columns : ℕ
  maxRows : ℕ
  arenas : Arenas
  cells : QueryArena Cell
  offsets : QueryArena RowOffset

/-- `RowBatch::storage`, with the room that its arenas begin with. -/
def RowBatch.storage (columns maxRows : ℕ) (limit : Usage) (provision : Kind → ℕ) : RowBatch where
  columns := columns
  maxRows := maxRows
  arenas := ⟨limit,0,fun kind => ⟨[],provision kind⟩⟩
  cells := ⟨[],columns*maxRows⟩
  offsets := ⟨[],maxRows⟩

def RowBatch.rows (batch : RowBatch) : ℕ := batch.offsets.values.length

def RowBatch.value (batch : RowBatch) (row column : ℕ) : Option BackedValue :=
  if batch.columns ≤ column then none
  else do
    let offset ← batch.offsets.values[row]?
    let cell ← batch.cells.values[offset.start+column]?
    batch.arenas.contents.value maxListDepth cell

section Push

variable {κ : Type} (context : Context κ)

abbrev Pushing (κ α : Type) := Stateful RuntimeError (RowBatch × κ) α

def copying {α : Type} (x : Copying κ α) : Pushing κ α := ⟨fun s =>
  ((x.run (s.1.arenas,s.2)).1,
    ({ s.1 with arenas := (x.run (s.1.arenas,s.2)).2.1 },(x.run (s.1.arenas,s.2)).2.2))⟩

def pushCell (value : ℕ → Except RuntimeError PushedValue) (column : ℕ) : Pushing κ Unit :=
  match value column with
  | .error e => Stateful.fail e
  | .ok value => do
    let cell ← copying (copyValue context value 0)
    Stateful.attempt fun s => do
      let cells ← s.1.cells.push cell
      return ({ s.1 with cells := cells },s.2)

def pushRow (value : ℕ → Except RuntimeError PushedValue) : Pushing κ Unit := do
  let before ← Stateful.read Prod.fst
  Stateful.each (pushCell context value) (List.range before.columns)
  copying (ask context .checkpoint)
  copying (ask context .rowsOut)
  Stateful.attempt fun s => do
    let offsets ← s.1.offsets.push
      ⟨before.cells.values.length,s.1.arenas.payload-before.arenas.payload⟩
    return ({ s.1 with offsets := offsets },s.2)

def RowBatch.rollBack (before batch : RowBatch) : RowBatch :=
  { batch with
    cells := batch.cells.truncate before.cells.values.length
    arenas := { batch.arenas with
      payload := before.arenas.payload
      store := fun kind => (batch.arenas.store kind).truncate (before.arenas.used kind) } }

def pushFrom (value : ℕ → Except RuntimeError PushedValue) : Pushing κ Unit := do
  copying (ask context .checkpoint)
  let before ← Stateful.read Prod.fst
  Stateful.require (before.rows < before.maxRows) .batchCapacity
  ⟨fun s =>
    match (pushRow context value).run s with
    | (.ok (),t) => (.ok (),t)
    | (.error e,t) => (.error e,(before.rollBack t.1,t.2))⟩

end Push

end Zeppelin.Query.Batch
