import Mathlib.Algebra.GroupWithZero.Nat
import Mathlib.Data.List.Sort
import Mathlib.Data.Prod.Lex
import Zeppelin.Machine.Except

/-! property_graph/storage/adjacency: Identities are their numbers, of which only
the order is used. -/

namespace Zeppelin.GraphStore.Adjacency

def maxBaseEntries : ℕ := 4096
def maxDeltaRuns : ℕ := 8
def maxPendingEntries : ℕ := 2048
def maxMergedEntries : ℕ := maxBaseEntries+maxPendingEntries

inductive Direction where
  | out
  | incoming
  deriving DecidableEq

inductive UpperBound where
  | exclusive (rel : ℕ)
  | infinity
  deriving DecidableEq

structure RangeKey where
  node : ℕ
  relType : ℕ
  direction : Direction
  lower : ℕ
  upper : UpperBound
  deriving DecidableEq

structure Edge where
  rel : ℕ
  neighbor : ℕ
  deriving DecidableEq

inductive Action where
  | insert
  | delete
  deriving DecidableEq

structure DeltaEntry where
  edge : Edge
  action : Action
  deriving DecidableEq

inductive FormatIssue where
  | tag
  | range
  | order
  | group
  | sequence
  | sequenceConflict
  | neighbor
  deriving DecidableEq

inductive LimitIssue where
  | baseEntries
  | deltaRuns
  | pendingEntries
  | output
  deriving DecidableEq

/-- `Error`, without the caller's own failures. -/
inductive InnerError where
  | format (issue : FormatIssue)
  | limit (issue : LimitIssue)
  deriving DecidableEq

/-- The texts of `TreeError::Invalid`. -/
inductive RangeError where
  | innerFormat
  | innerLimit
  | descriptorDeltaCount
  | descriptorInterval
  | descriptorCounts
  | baseCountMismatch
  | emptyRun
  | pendingCountMismatch
  | emptyRange
  | editDirection
  | predecessorOverlap
  | successorOverlap
  | deleteAbsent
  | changePresence
  | emptyNewInterval
  | survivorsDiffer
  | gapRouting
  | rangeDidNotAdvance
  | duplicateEdit
  | rangeDisappeared
  | sweptTopology
  | relationshipTopology
  | sweptDelete
  | duplicateChange
  deriving DecidableEq

def mapInner : InnerError → RangeError
  | .format _ => .innerFormat
  | .limit _ => .innerLimit

inductive Admission where
  | noChange
  | append
  | consolidateFirst
  deriving DecidableEq

def appendAdmission (existingRuns pendingEntries incomingEntries : ℕ) :
    Except LimitIssue Admission :=
  if existingRuns > maxDeltaRuns then .error .deltaRuns
  else if pendingEntries > maxPendingEntries ∨ incomingEntries > maxPendingEntries then
    .error .pendingEntries
  else if incomingEntries = 0 then .ok .noChange
  else if existingRuns = maxDeltaRuns ∨ pendingEntries+incomingEntries > maxPendingEntries then
    .ok .consolidateFirst
  else .ok .append

def UpperBound.above (upper : UpperBound) (rel : ℕ) : Bool :=
  match upper with
  | .exclusive bound => rel < bound
  | .infinity => true

def validRange (key : RangeKey) : Except InnerError Unit :=
  if key.upper.above key.lower then .ok () else .error (.format .range)

def validEdge (key : RangeKey) (edge : Edge) (previous : Option ℕ) : Except InnerError Unit :=
  if previous.any fun rel => ¬ rel < edge.rel then .error (.format .order)
  else if edge.rel < key.lower then .error (.format .range)
  else if ¬ key.upper.above edge.rel then .error (.format .range)
  else .ok ()

def checkEntries (key : RangeKey) : Option ℕ → List DeltaEntry → Except InnerError Unit
  | _,[] => .ok ()
  | previous,entry::entries => do
    validEdge key entry.edge previous
    checkEntries key (some entry.edge.rel) entries

structure Run where
  key : RangeKey
  sequence : ℕ
  delta : Bool
  entries : List DeltaEntry
  deriving DecidableEq

def limitCount (delta : Bool) (count : ℕ) : Except InnerError Unit :=
  if delta ∧ count > maxPendingEntries then .error (.limit .pendingEntries)
  else if ¬ delta ∧ count > maxBaseEntries then .error (.limit .baseEntries)
  else .ok ()

def encode (key : RangeKey) (sequence : ℕ) (entries : List DeltaEntry) (delta : Bool) :
    Except InnerError Run := do
  validRange key
  limitCount delta entries.length
  checkEntries key none entries
  return ⟨key,sequence,delta,entries⟩

def encodeBase (key : RangeKey) (watermark : ℕ) (edges : List Edge) : Except InnerError Run :=
  encode key watermark (edges.map fun edge => ⟨edge,.insert⟩) false

def encodeDelta (key : RangeKey) (sequence : ℕ) (entries : List DeltaEntry) :
    Except InnerError Run :=
  if sequence = 0 then .error (.format .sequence) else encode key sequence entries true

def decode (key : RangeKey) (delta : Bool) (run : Run) : Except InnerError Unit := do
  failIf (run.delta ≠ delta) (.format .tag)
  validRange run.key
  failIf (run.key ≠ key) (.format .group)
  limitCount delta run.entries.length
  checkEntries key none run.entries

structure Cursor where
  sequence : ℕ
  left : List DeltaEntry
  deriving DecidableEq

def minRel : List Cursor → Option ℕ
  | [] => none
  | cursor::cursors =>
    match cursor.left with
    | [] => minRel cursors
    | head::_ =>
      match minRel cursors with
      | none => some head.edge.rel
      | some rel => some (min head.edge.rel rel)

/-- Two observations of one relationship agree on its neighbor, and on the action when
they have one sequence. -/
def agree (latest : Option (DeltaEntry × ℕ)) (head : DeltaEntry) (sequence : ℕ) :
    Except InnerError Unit :=
  match latest with
  | none => .ok ()
  | some (old,oldSequence) =>
    if old.edge.neighbor ≠ head.edge.neighbor then .error (.format .neighbor)
    else if oldSequence = sequence ∧ old.action ≠ head.action then
      .error (.format .sequenceConflict)
    else .ok ()

/-- Moves every cursor that is at `rel`; the last of them has the latest observation. -/
def takeLatest (rel : ℕ) : Option (DeltaEntry × ℕ) → List Cursor →
    Except InnerError (Option (DeltaEntry × ℕ) × List Cursor)
  | latest,[] => .ok (latest,[])
  | latest,cursor::cursors =>
    match cursor.left with
    | [] => do
      let (last,moved) ← takeLatest rel latest cursors
      return (last,cursor::moved)
    | head::tail =>
      if head.edge.rel ≠ rel then do
        let (last,moved) ← takeLatest rel latest cursors
        return (last,cursor::moved)
      else do
        agree latest head cursor.sequence
        let (last,moved) ← takeLatest rel (some (head,cursor.sequence)) cursors
        return (last,⟨cursor.sequence,tail⟩::moved)

def emitted : Option (DeltaEntry × ℕ) → List Edge
  | some (winner,_) => if winner.action = .insert then [winner.edge] else []
  | none => []

/-- The fuel is the number of entries, of which every round takes one at least. -/
def walkFrom : ℕ → List Cursor → Except InnerError (List Edge)
  | 0,_ => .ok []
  | fuel+1,cursors =>
    match minRel cursors with
    | none => .ok []
    | some rel => do
      let (latest,moved) ← takeLatest rel none cursors
      let rest ← walkFrom fuel moved
      return emitted latest++rest

def entryCount (cursors : List Cursor) : ℕ := (cursors.map fun c => c.left.length).sum

def walk (runs : List Run) : Except InnerError (List Edge) :=
  let cursors:=runs.map fun run => ⟨run.sequence,run.entries⟩
  walkFrom (entryCount cursors) cursors

def checkRuns (key : RangeKey) (watermark cutoff : ℕ) : ℕ → ℕ → List Run → Except InnerError Unit
  | _,_,[] => .ok ()
  | previous,pending,run::runs => do
    decode key true run
    failIf (run.sequence ≤ watermark ∨ cutoff < run.sequence ∨ run.sequence < previous)
      (.format .sequence)
    failIf (pending+run.entries.length > maxPendingEntries) (.limit .pendingEntries)
    checkRuns key watermark cutoff run.sequence (pending+run.entries.length) runs

def merge (key : RangeKey) (watermark cutoff : ℕ) (base : Run) (deltas : List Run) :
    Except InnerError (List Edge) := do
  validRange key
  failIf (cutoff < watermark) (.format .sequence)
  failIf (deltas.length > maxDeltaRuns) (.limit .deltaRuns)
  decode key false base
  failIf (base.sequence ≠ watermark) (.format .sequence)
  checkRuns key watermark cutoff watermark 0 deltas
  let edges ← walk (base::deltas)
  failIf (edges.length > maxMergedEntries) (.limit .output)
  return edges

structure RangeDescriptor where
  key : RangeKey
  watermark : ℕ
  baseCount : ℕ
  base : Run
  deltas : List Run
  pending : ℕ
  deriving DecidableEq

def RangeDescriptor.new (key : RangeKey) (watermark baseCount : ℕ) (base : Run)
    (deltas : List Run) (pending : ℕ) : Except RangeError RangeDescriptor :=
  if deltas.length > maxDeltaRuns then .error .descriptorDeltaCount
  else if ¬ key.upper.above key.lower then .error .descriptorInterval
  else if pending > maxPendingEntries ∨ baseCount > maxBaseEntries ∨
      ¬ (deltas.length = 0 ↔ pending = 0) ∨ pending < deltas.length ∨
      (deltas.length = 0 ∧ baseCount = 0) then .error .descriptorCounts
  else .ok ⟨key,watermark,baseCount,base,deltas,pending⟩

def sumEntries (runs : List Run) : ℕ := (runs.map fun run => run.entries.length).sum

def validateDescriptor (cutoff : ℕ) (d : RangeDescriptor) : Except RangeError (List Edge) := do
  let edges ← Except.mapError mapInner (merge d.key d.watermark cutoff d.base d.deltas)
  failIf (d.base.entries.length ≠ d.baseCount) .baseCountMismatch
  failIf (d.deltas.any fun run => run.entries.isEmpty) .emptyRun
  failIf (sumEntries d.deltas ≠ d.pending) .pendingCountMismatch
  return edges

/-- `validate_range`, `checked_entry`: a stored range holds an edge. -/
def validateRange (cutoff : ℕ) (d : RangeDescriptor) : Except RangeError (List Edge) := do
  let edges ← validateDescriptor cutoff d
  failIf (edges.isEmpty) .emptyRange
  return edges

abbrev Directory := List RangeDescriptor

def KeyLt (a b : RangeKey) : Prop :=
  a.node < b.node ∨ (a.node = b.node ∧
    (a.relType < b.relType ∨ (a.relType = b.relType ∧ a.lower < b.lower)))

instance (a b : RangeKey) : Decidable (KeyLt a b) := by
  unfold KeyLt
  infer_instance

def SameGroup (a b : RangeKey) : Prop :=
  a.node = b.node ∧ a.relType = b.relType ∧ a.direction = b.direction

instance (a b : RangeKey) : Decidable (SameGroup a b) := by
  unfold SameGroup
  infer_instance

def lookupPredecessor (dir : Directory) (probe : RangeKey) : Option RangeDescriptor :=
  (dir.filter fun d => ¬ KeyLt probe d.key).getLast?

/-- `DirectoryCursor::seek`: what the cursor has left. -/
def seek (dir : Directory) (probe : RangeKey) : List RangeDescriptor :=
  dir.filter fun d => ¬ KeyLt d.key probe

def endsBefore (upper : UpperBound) (lower : ℕ) : Bool :=
  match upper with
  | .exclusive bound => bound ≤ lower
  | .infinity => false

def checkNeighbor (cutoff : ℕ) (key : RangeKey) (overlaps : RangeKey → Bool) (e : RangeError) :
    Option RangeDescriptor → Except RangeError Unit
  | none => .ok ()
  | some neighbor => do
    let _ ← validateRange cutoff neighbor
    failIf (SameGroup neighbor.key key ∧ overlaps neighbor.key) e

/-- The entry behind the key, whether the key itself is there or not. -/
def following (dir : Directory) (key : RangeKey) : Option RangeDescriptor :=
  match seek dir key with
  | [] => none
  | next::rest => if ¬ KeyLt key next.key then rest.head? else some next

/-- The least identity is one, so a range that starts there has no predecessor. -/
def checkPredecessor (cutoff : ℕ) (dir : Directory) (key : RangeKey) : Except RangeError Unit :=
  if 1 < key.lower then
    checkNeighbor cutoff key (fun previous => ¬ endsBefore previous.upper key.lower)
      .predecessorOverlap (lookupPredecessor dir { key with lower := key.lower-1 })
  else .ok ()

/-- Neighbors are read at `cutoff`, the new descriptor at `sequence`. -/
def validatePut (direction : Direction) (cutoff sequence : ℕ) (dir : Directory)
    (d : RangeDescriptor) : Except RangeError Unit := do
  failIf (direction ≠ d.key.direction) .editDirection
  let _ ← validateRange sequence d
  checkPredecessor cutoff dir d.key
  checkNeighbor cutoff d.key (fun next => ¬ endsBefore d.key.upper next.lower)
    .successorOverlap (following dir d.key)

structure Edit where
  key : RangeKey
  value : Option RangeDescriptor
  deriving DecidableEq

/-- Only a removal followed by its replacement may name a key twice. -/
def replaceEdits : List Edit → Except RangeError (List Edit)
  | [] => .ok []
  | [edit] => .ok [edit]
  | edit::next::edits =>
    if ¬ KeyLt edit.key next.key then
      if edit.value.isSome ∨ next.value.isNone then .error .duplicateEdit
      else replaceEdits (next::edits)
    else do
      let rest ← replaceEdits (next::edits)
      return edit::rest

def applyEdit (edit : Edit) : Directory → Directory
  | [] => edit.value.toList
  | cell::cells =>
    if KeyLt edit.key cell.key then edit.value.toList++cell::cells
    else if KeyLt cell.key edit.key then cell::applyEdit edit cells
    else edit.value.toList++cells

/-- `DirectoryBatch::flush`: the edits in key order, equal keys in the order of their push. -/
def flush (edits : List Edit) (dir : Directory) : Except RangeError Directory := do
  let ops ← replaceEdits (edits.insertionSort fun a b => ¬ KeyLt b.key a.key)
  return ops.foldl (fun dir op => applyEdit op dir) dir

/-! adjacency/prepare.rs, adjacency/prepare/ranges.rs -/

structure Change where
  node : ℕ
  relType : ℕ
  direction : Direction
  delta : DeltaEntry
  deriving DecidableEq

def Direction.code : Direction → ℕ
  | .out => 1
  | .incoming => 2

def Change.rel (change : Change) : ℕ := change.delta.edge.rel

def Change.sortKey (change : Change) : ℕ ×ₗ ℕ ×ₗ ℕ ×ₗ ℕ :=
  toLex (change.direction.code,toLex (change.node,toLex (change.relType,change.rel)))

def Change.group (change : Change) : Direction × ℕ × ℕ :=
  (change.direction,change.node,change.relType)

def RangeKey.group (key : RangeKey) : Direction × ℕ × ℕ := (key.direction,key.node,key.relType)

def Change.key (change : Change) : RangeKey :=
  ⟨change.node,change.relType,change.direction,change.rel,.infinity⟩

structure Roots where
  out : Directory
  incoming : Directory
  deriving DecidableEq

def Roots.directory (roots : Roots) : Direction → Directory
  | .out => roots.out
  | .incoming => roots.incoming

/-- The interval that a change falls into, with the range stored there and its edges. -/
structure Selected where
  key : RangeKey
  old : Option RangeDescriptor
  edges : List Edge
  deriving DecidableEq

def selectGap (dir : Directory) (first : Change) : Except RangeError Selected :=
  match (seek dir first.key).head? with
  | none => .ok ⟨first.key,none,[]⟩
  | some next =>
    if next.key.group ≠ first.group then .ok ⟨first.key,none,[]⟩
    else if next.key.lower ≤ first.rel then .error .gapRouting
    else .ok ⟨{ first.key with upper := .exclusive next.key.lower },none,[]⟩

def select (cutoff : ℕ) (dir : Directory) (first : Change) : Except RangeError Selected :=
  match lookupPredecessor dir first.key with
  | none => selectGap dir first
  | some candidate =>
    if candidate.key.group = first.group ∧ candidate.key.upper.above first.rel then do
      let edges ← validateRange cutoff candidate
      return ⟨candidate.key,some candidate,edges⟩
    else selectGap dir first

/-- `Combined`: an insert is absent from the old edges, a delete names one of them. Each round
takes an edge or an entry, so their number is enough fuel. -/
def combineFrom : ℕ → List Edge → List DeltaEntry → Except RangeError (List Edge)
  | _,old,[] => .ok old
  | 0,_,_::_ => .error .changePresence
  | fuel+1,[],change::incoming =>
    if change.action ≠ .insert then .error .deleteAbsent
    else do
      let rest ← combineFrom fuel [] incoming
      return change.edge::rest
  | fuel+1,edge::old,change::incoming =>
    if change.edge.rel < edge.rel then
      if change.action ≠ .insert then .error .deleteAbsent
      else do
        let rest ← combineFrom fuel (edge::old) incoming
        return change.edge::rest
    else if edge.rel < change.edge.rel then do
      let rest ← combineFrom fuel old (change::incoming)
      return edge::rest
    else if edge.neighbor ≠ change.edge.neighbor ∨ change.action ≠ .delete then
      .error .changePresence
    else combineFrom fuel old incoming

def combine (old : List Edge) (incoming : List DeltaEntry) : Except RangeError (List Edge) :=
  combineFrom (old.length+incoming.length) old incoming

def fits (old : Option RangeDescriptor) (incoming : ℕ) : Bool :=
  incoming ≤ maxPendingEntries ∧
    appendAdmission (old.elim 0 fun d => d.deltas.length) (old.elim 0 fun d => d.pending) incoming
      = .ok .append

def startBase (base : ℕ) (key : RangeKey) : Option RangeDescriptor → Except RangeError Run
  | some old => .ok old.base
  | none => Except.mapError mapInner (encodeBase key base [])

def appendRun (base : ℕ) (selected : Selected) (entries : List DeltaEntry) :
    Except RangeError Edit := do
  let run ← startBase base selected.key selected.old
  let delta ← Except.mapError mapInner (encodeDelta selected.key (base+1) entries)
  let descriptor ← RangeDescriptor.new selected.key
    (selected.old.elim base fun d => d.watermark) (selected.old.elim 0 fun d => d.baseCount)
    run ((selected.old.elim [] fun d => d.deltas)++[delta])
    ((selected.old.elim 0 fun d => d.pending)+entries.length)
  return ⟨selected.key,some descriptor⟩

def emit (sequence : ℕ) (key : RangeKey) (edges : List Edge) : Except RangeError Edit := do
  let base ← Except.mapError mapInner (encodeBase key sequence edges)
  let descriptor ← RangeDescriptor.new key sequence edges.length base [] 0
  return ⟨key,some descriptor⟩

def emitBases (sequence : ℕ) (key : RangeKey) :
    ℕ → List Edge → List Edge → Except RangeError (List Edit)
  | lower,buffer,[] =>
    if buffer.isEmpty then .error .survivorsDiffer
    else do
      let last ← emit sequence { key with lower := lower } buffer
      return [last]
  | lower,buffer,edge::edges =>
    if buffer.length = maxBaseEntries then do
      let full ← emit sequence { key with lower := lower,upper := .exclusive edge.rel } buffer
      let rest ← emitBases sequence key edge.rel [edge] edges
      return full::rest
    else emitBases sequence key lower (buffer++[edge]) edges

def removal (old : RangeDescriptor) : Edit := ⟨old.key,none⟩

def update (base : ℕ) (selected : Selected) (incoming : List DeltaEntry) :
    Except RangeError (List Edit) := do
  let survivors ← combine selected.edges incoming
  if survivors.isEmpty then
    match selected.old with
    | none => throw .emptyNewInterval
    | some old => return [removal old]
  else if fits selected.old incoming.length then do
    let edit ← appendRun base selected incoming
    return [edit]
  else do
    let bases ← emitBases (base+1) selected.key selected.key.lower [] survivors
    return selected.old.toList.map removal++bases

/-- The changes of the group of `first` below the end of its interval. -/
def Change.inRange (first : Change) (upper : UpperBound) (change : Change) : Bool :=
  change.group = first.group ∧ upper.above change.rel

/-- The two loops of `apply`: the changes of a group, and of these the ones of an interval.
Each round takes a change, so their number is enough fuel. -/
def collectEdits (base : ℕ) (roots : Roots) : ℕ → List Change → Except RangeError (List Edit)
  | _,[] => .ok []
  | 0,_::_ => .error .rangeDidNotAdvance
  | fuel+1,first::changes => do
    let selected ← select base (roots.directory first.direction) first
    let incoming:=(first::changes).takeWhile (first.inRange selected.key.upper)
    failIf (incoming.isEmpty) .rangeDidNotAdvance
    let edits ← update base selected (incoming.map Change.delta)
    let rest ← collectEdits base roots fuel
      ((first::changes).dropWhile (first.inRange selected.key.upper))
    return edits++rest

def editsOf (direction : Direction) (edits : List Edit) : List Edit :=
  edits.filter fun edit => edit.key.direction = direction

/-- `check_prepared_range` for every new descriptor, in the new directories. -/
def checkPrepared (sequence : ℕ) (roots : Roots) : List RangeDescriptor → Except RangeError Unit
  | [] => .ok ()
  | d::ds => do
    validatePut d.key.direction sequence sequence (roots.directory d.key.direction) d
    checkPrepared sequence roots ds

def apply (base : ℕ) (roots : Roots) (changes : List Change) : Except RangeError Roots := do
  let edits ← collectEdits base roots changes.length changes
  let out ← flush (editsOf .out edits) roots.out
  let incoming ← flush (editsOf .incoming edits) roots.incoming
  checkPrepared (base+1) ⟨out,incoming⟩ (edits.filterMap Edit.value)
  return ⟨out,incoming⟩

structure RelationshipRow where
  rel : ℕ
  source : ℕ
  target : ℕ
  relType : ℕ
  deriving DecidableEq

/-- What is read for one relationship of a batch: its row before and after, whether both
ends of the new row are live, whether the batch has a value for it, and whether the deletion
of a swept relationship is accepted. -/
structure RelationshipDelta where
  old : Option RelationshipRow
  new : Option RelationshipRow
  visible : Bool
  canonical : Bool
  sweptDelete : Bool
  deriving DecidableEq

def relationshipChange (delta : RelationshipDelta) :
    Except RangeError (Option (RelationshipRow × Action)) :=
  match delta.old,delta.new with
  | some old,some new => if old = new then .ok none else .error .relationshipTopology
  | none,some new =>
    if delta.visible then .ok (some (new,.insert)) else .error .relationshipTopology
  | some old,none => .ok (some (old,.delete))
  | none,none =>
    if delta.canonical then .error .relationshipTopology
    else if delta.sweptDelete then .ok none
    else .error .sweptDelete

def RelationshipRow.directed (row : RelationshipRow) (action : Action) : List Change :=
  [⟨row.source,row.relType,.out,⟨⟨row.rel,row.target⟩,action⟩⟩,
    ⟨row.target,row.relType,.incoming,⟨⟨row.rel,row.source⟩,action⟩⟩]

def collectChanges : List RelationshipDelta → Except RangeError (List Change)
  | [] => .ok []
  | delta::deltas => do
    let change ← relationshipChange delta
    let rest ← collectChanges deltas
    return (change.toList.flatMap fun (row,action) => row.directed action)++rest

def hasDuplicate : List Change → Bool
  | a::b::changes => a.sortKey = b.sortKey ∨ hasDuplicate (b::changes)
  | _ => false

def sortChanges (changes : List Change) : List Change :=
  changes.insertionSort fun a b => a.sortKey ≤ b.sortKey

/-- The adjacency part of `prepare_native_graph`. -/
def prepareAdjacency (base : ℕ) (roots : Roots) (deltas : List RelationshipDelta) :
    Except RangeError Roots := do
  let changes ← collectChanges deltas
  failIf (hasDuplicate (sortChanges changes)) .duplicateChange
  if (sortChanges changes).isEmpty then return roots
  else apply base roots (sortChanges changes)

def RelationshipRow.ends (row : RelationshipRow) : Direction → ℕ × ℕ
  | .out => (row.source,row.target)
  | .incoming => (row.target,row.source)

def sweptRow (swept : List RelationshipRow) (edge : Edge) : Option RelationshipRow :=
  swept.find? fun row => row.rel = edge.rel

def keepEdges (key : RangeKey) (swept : List RelationshipRow) :
    List Edge → Except RangeError (List Edge)
  | [] => .ok []
  | edge::edges =>
    match sweptRow swept edge with
    | none => do
      let rest ← keepEdges key swept edges
      return edge::rest
    | some row =>
      if row.ends key.direction ≠ (key.node,edge.neighbor) ∨ key.relType ≠ row.relType then
        .error .sweptTopology
      else keepEdges key swept edges

def findRange (dir : Directory) (key : RangeKey) : Except RangeError RangeDescriptor :=
  match (seek dir key).head? with
  | none => .error .rangeDisappeared
  | some d => if KeyLt key d.key then .error .rangeDisappeared else .ok d

def rewriteRange (base : ℕ) (direction : Direction) (dir : Directory) (key : RangeKey)
    (swept : List RelationshipRow) : Except RangeError (Option RangeDescriptor) := do
  let d ← findRange dir key
  let edges ← validateRange base d
  let kept ← keepEdges d.key swept edges
  if kept.isEmpty then return none
  else do
    let run ← Except.mapError mapInner (encodeBase d.key (base+1) kept)
    let replacement ← RangeDescriptor.new d.key (base+1) kept.length run [] 0
    validatePut direction base (base+1) dir replacement
    return some replacement

end Zeppelin.GraphStore.Adjacency
