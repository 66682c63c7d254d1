import Zeppelin.Collections.Paging
import Zeppelin.Collections.SortedIndex
import Zeppelin.GraphStore.Adjacency

/-! adjacency/read.rs -/

namespace Zeppelin.GraphStore.Adjacency
open Collections

inductive ReadError where
  | range (error : RangeError)
  | missing
  | invalid (reason : String)
  deriving DecidableEq

abbrev Read := Except ReadError

structure RelationshipRange where
  lower : ℕ
  upper : UpperBound
  nonzero : 1 ≤ lower

structure AdjacencyQuery where
  node : ℕ
  direction : Direction
  relationshipType : Option ℕ
  relationships : RelationshipRange

structure AdjacencyRow where
  relationshipType : ℕ
  edge : Edge
  deriving DecidableEq

/-- Where the next pull of an expansion starts: at a relationship of a range, or behind it. -/
inductive ExpansionResume where
  | inclusive (descriptor : RangeKey) (relationship : ℕ)
  | after (descriptor : RangeKey)
  deriving DecidableEq

structure NativeGraphReader where
  roots : Roots
  cutoff : ℕ
  relationships : ℕ → Option RelationshipRow
  nodes : ℕ → Option Bool

def beyond (rel : ℕ) : UpperBound → Bool
  | .exclusive upper => upper ≤ rel
  | .infinity => false

def checkRange (range : RelationshipRange) : Read Unit :=
  match range.upper with
  | .exclusive upper => failIf (upper < range.lower) (.invalid "relationship read interval")
  | .infinity => .ok ()

def AdjacencyQuery.probe (query : AdjacencyQuery) : RangeKey where
  node := query.node
  relType := query.relationshipType.getD 1
  direction := query.direction
  lower := if query.relationshipType.isSome then query.relationships.lower else 1
  upper := .infinity

def AdjacencyQuery.startKey (query : AdjacencyQuery) (dir : Directory) : RangeKey :=
  match lookupPredecessor dir query.probe with
  | none => query.probe
  | some d =>
    if d.key.node = query.node ∧ some d.key.relType = query.relationshipType ∧
        ¬ beyond query.relationships.lower d.key.upper then d.key
    else query.probe

def AdjacencyQuery.matching (query : AdjacencyQuery) (key : RangeKey) : Bool :=
  key.node = query.node ∧ query.relationshipType.all fun wanted => key.relType = wanted

namespace NativeGraphReader
variable (g : NativeGraphReader)

def validatedEdges (d : RangeDescriptor) : Read (List Edge) :=
  Except.mapError ReadError.range (validateRange g.cutoff d)

def rawRelationship (rel : ℕ) : Read RelationshipRow :=
  match g.relationships rel with
  | none => .error .missing
  | some row => .ok row

def endpointLive (node : ℕ) : Read Bool :=
  match g.nodes node with
  | none => .error .missing
  | some live => .ok live

def visible (row : RelationshipRow) : Read Bool := do
  let source ← g.endpointLive row.source
  let target ← g.endpointLive row.target
  return source && target

def authoritative (query : AdjacencyQuery) (key : RangeKey) (edge : Edge) :
    Read RelationshipRow := do
  let row ← g.rawRelationship edge.rel
  failIf (row.ends query.direction ≠ (query.node,edge.neighbor) ∨ row.relType ≠ key.relType)
    (.invalid "adjacency differs from authoritative relationship")
  return row

section Visit
variable {σ : Type} (visit : AdjacencyRow → σ → Read (σ × Bool))

def visitEdges (query : AdjacencyQuery) (key : RangeKey) : List Edge → σ → Read (σ × Bool)
  | [],s => .ok (s,true)
  | edge::edges,s =>
    if edge.rel < query.relationships.lower then visitEdges query key edges s
    else if beyond edge.rel query.relationships.upper then .ok (s,true)
    else do
      let row ← g.authoritative query key edge
      let shown ← g.visible row
      if shown then do
        let (s,more) ← visit ⟨key.relType,edge⟩ s
        if more then visitEdges query key edges s else return (s,false)
      else visitEdges query key edges s

def visitRanges (query : AdjacencyQuery) : List RangeDescriptor → σ → Read σ
  | [],s => .ok s
  | d::ds,s =>
    if ¬ query.matching d.key then .ok s
    else do
      let edges ← g.validatedEdges d
      let (s,more) ← g.visitEdges visit query d.key edges s
      if more then visitRanges query ds s else return s

def visitAdjacency (query : AdjacencyQuery) (s : σ) : Read σ := do
  checkRange query.relationships
  let dir:=g.roots.directory query.direction
  let start:=if query.relationshipType.isSome then query.startKey dir else query.probe
  g.visitRanges visit query (seek dir start) s

end Visit

def keepRow (row : AdjacencyRow) (rows : List AdjacencyRow) : Read (List AdjacencyRow × Bool) :=
  .ok (rows++[row],true)

/-- The output of a pull, and the liveness of the bound node once it is known. -/
structure Batch where
  rows : List RelationshipRow
  boundLive : Option Bool

def boundLive (known : Option Bool) (bound : ℕ) : Read Bool :=
  match known with
  | some live => .ok live
  | none => g.endpointLive bound

def neighborLive (query : AdjacencyQuery) (bound : Bool) (neighbor : ℕ) : Read Bool :=
  if neighbor = query.node then .ok bound else g.endpointLive neighbor

def nextResume (key : RangeKey) : List Edge → ExpansionResume
  | [] => .after key
  | edge::_ => .inclusive key edge.rel

/-- The edges of a range; a position is given where the output becomes full. -/
def expandEdges (query : AdjacencyQuery) (key : RangeKey) (capacity : ℕ) :
    List Edge → Batch → Read (Batch × Option ExpansionResume)
  | [],batch => .ok (batch,none)
  | edge::edges,batch =>
    if beyond edge.rel query.relationships.upper then .ok (batch,none)
    else do
      let row ← g.authoritative query key edge
      let bound ← g.boundLive batch.boundLive query.node
      let neighbor ← g.neighborLive query bound edge.neighbor
      if ¬ bound ∨ ¬ neighbor then
        expandEdges query key capacity edges ⟨batch.rows,some bound⟩
      else
        if batch.rows.length+1 = capacity then
          return (⟨batch.rows++[row],some bound⟩,some (nextResume key edges))
        else expandEdges query key capacity edges ⟨batch.rows++[row],some bound⟩

/-- One range from a lower bound on, then the ranges behind it with `rest`. -/
def expandRange (query : AdjacencyQuery) (capacity lower : ℕ) (d : RangeDescriptor) (batch : Batch)
    (rest : Batch → Read (Batch × Option ExpansionResume)) :
    Read (Batch × Option ExpansionResume) := do
  let edges ← g.validatedEdges d
  let first:=slicePartitionPoint (fun edge => edge.rel < lower) edges
  let (batch,next) ← g.expandEdges query d.key capacity (edges.drop first) batch
  match next with
  | some resume => return (batch,some resume)
  | none => rest batch

/-- The ranges; a resume position that is not used up has to be at the next range. -/
def expandRanges (query : AdjacencyQuery) (capacity : ℕ) :
    List RangeDescriptor → Option ExpansionResume → Batch → Read (Batch × Option ExpansionResume)
  | [],resume,batch =>
    if resume.isSome then .error (.invalid "expansion resume descriptor missing")
    else .ok (batch,none)
  | d::ds,resume,batch =>
    if ¬ query.matching d.key then
      if resume.isSome then .error (.invalid "expansion resume descriptor missing")
      else .ok (batch,none)
    else
      match resume with
      | some (.inclusive descriptor relationship) =>
        if d.key ≠ descriptor then .error (.invalid "expansion resume descriptor missing")
        else g.expandRange query capacity relationship d batch (expandRanges query capacity ds none)
      | some (.after descriptor) =>
        if d.key ≠ descriptor then .error (.invalid "expansion resume descriptor missing")
        else expandRanges query capacity ds none batch
      | none => g.expandRange query capacity query.relationships.lower d batch
          (expandRanges query capacity ds none)

def expansionStart (query : AdjacencyQuery) : Option ExpansionResume → RangeKey
  | some (.inclusive descriptor _) => descriptor
  | some (.after descriptor) => descriptor
  | none =>
    if 1 < query.relationships.lower ∧ query.relationshipType.isSome then
      query.startKey (g.roots.directory query.direction)
    else query.probe

def expandFrom (query : AdjacencyQuery) (resume : Option ExpansionResume)
    (known : Option Bool) (capacity : ℕ) : Read (Batch × Option ExpansionResume) := do
  checkRange query.relationships
  failIf (capacity = 0) (.invalid "zero expansion capacity")
  g.expandRanges query capacity
    (seek (g.roots.directory query.direction) (g.expansionStart query resume)) resume ⟨[],known⟩

abbrev Pull := Option ExpansionResume × Option Bool

def pullFrom (query : AdjacencyQuery) (position : Pull) (capacity : ℕ) :
    Read (List RelationshipRow × Option Pull) := do
  let (batch,next) ← g.expandFrom query position.1 position.2 capacity
  return (batch.rows,next.map fun resume => (some resume,batch.boundLive))

end NativeGraphReader

def RelationshipRow.adjacency (row : RelationshipRow) (direction : Direction) : AdjacencyRow :=
  ⟨row.relType,⟨row.rel,(row.ends direction).2⟩⟩

end Zeppelin.GraphStore.Adjacency
