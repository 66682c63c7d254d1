import Zeppelin.GraphWal.Codec

/-! property_graph/wal/change.rs, maintenance.rs -/

namespace Zeppelin.GraphWal
open PropertyGraph

structure HighWaters where
  node : U128
  relationship : U128
  symbols : List U64
  creationSerial : U64
  four : symbols.length = 4
  deriving DecidableEq

theorem zero_symbols : (List.replicate 4 (0 : U64)).length = 4 := List.length_replicate

structure WalGraphRoots where
  slots : List (Option RequiredRef)
  eight : slots.length = 8
  deriving DecidableEq

theorem no_roots : (List.replicate 8 (none : Option RequiredRef)).length = 8 :=
  List.length_replicate

structure CommitState where
  store : StoreInstanceId
  generation : GraphGeneration
  sequence : U64
  graph : WalGraphRoots
  catalog : RequiredRef
  vector : Option RequiredRef
  text : Option RequiredRef
  reclaim : Option RequiredRef
  highWaters : HighWaters
  preparedInventories : List RequiredRef
  deriving DecidableEq

def validateRef (v : RequiredRef) (state : CommitState) (kind : BlockKind) : Except WalError Unit := do
  descriptor v.object
  if v.object.store ≠ state.store then .error .store
  else if state.generation < v.object.generation ∨
      state.highWaters.creationSerial < v.object.serial then .error .highWater
  else if v.block.kind ≠ kind ∨ v.block.version ≠ 1 then .error .participant
  else .ok ()

structure Membership where
  textBefore : Bool
  textAfter : Bool
  vectorBefore : Bool
  vectorAfter : Bool
  deriving DecidableEq

structure Mutation where
  provenanceVersion : U16
  provenance : OperationFields
  live : Bool
  canonical : Option RequiredRef
  membership : Membership
  deriving DecidableEq

def kindTag : EntityKind → U8
  | .node => 1
  | .relationship => 2

def entityWord : EntityId → U128
  | .node id => id
  | .relationship id => id

def entityBytes (v : EntityId) : Bytes := toLe 1 (kindTag v.kind)++toLe 16 (entityWord v)

def readKind (v : U8) : Except WalError EntityKind :=
  if v = 1 then .ok .node else if v = 2 then .ok .relationship else .error .malformed

def readEntity (bytes : Bytes) : Except WalError (EntityId × Bytes) := do
  let (tag,rest) ← u8 bytes
  let kind ← readKind tag
  let (id,rest) ← u128 rest
  match kind with
  | .node => return (.node id,rest)
  | .relationship => if id = 0 then .error .malformed else return (.relationship id,rest)

def blob (v : Bytes) : Bytes := toLe 8 (BitVec.ofNat 64 v.length)++v

/-- The source checks UTF-8 in chunks that end at a code point. -/
def text (bytes : Bytes) : Except WalError (String × Bytes) := do
  let (n,rest) ← u64 bytes
  if maxGraphInputBytes < n.toNat then .error .malformed
  else
    let (field,rest) ← take n.toNat rest
    match fromUtf8 field with
    | none => .error .malformed
    | some s => return (s,rest)

/-- `ApplicationKey::new`. -/
def applicationKey (kind : EntityKind) (keySpace key : String) : Except WalError ApplicationKey :=
  if maxGraphInputBytes < keySpace.utf8ByteSize+key.utf8ByteSize then .error .malformed
  else .ok ⟨kind,keySpace,key⟩

def provenanceMagic : Bytes := [0x5A,0x47,0x4F,0x50]

def operationTag : GraphOperation → U8
  | .structuredCreate => 1
  | .structuredPut => 2
  | .structuredDelete => 3
  | .structuredRecreate => 4
  | .cypherEdit => 5

def readOperation (v : U8) : Except WalError GraphOperation :=
  if v = 1 then .ok .structuredCreate
  else if v = 2 then .ok .structuredPut
  else if v = 3 then .ok .structuredDelete
  else if v = 4 then .ok .structuredRecreate
  else if v = 5 then .ok .cypherEdit
  else .error .unsupported

def keyBytes : Option ApplicationKey → Bytes
  | none => toLe 1 (0 : U8)
  | some key => toLe 1 (1 : U8)++(toLe 1 (kindTag key.kind)++
      (blob (utf8Bytes key.keySpace)++blob (utf8Bytes key.key)))

def readKey (bytes : Bytes) : Except WalError (Option ApplicationKey × Bytes) := do
  let (tag,rest) ← u8 bytes
  if tag = 0 then return (none,rest)
  else if tag = 1 then
    let (kind,rest) ← u8 rest
    let kind ← readKind kind
    let (keySpace,rest) ← text rest
    let (key,rest) ← text rest
    let key ← applicationKey kind keySpace key
    return (some key,rest)
  else .error .malformed

def expectedBytes : ExpectedGraphState → Bytes
  | .absent => toLe 1 (1 : U8)
  | .entity id => toLe 1 (2 : U8)++entityBytes id
  | .deletion revision => toLe 1 (3 : U8)++toLe 8 revision.get

def readRevision (bytes : Bytes) : Except WalError (GraphRevision × Bytes) := do
  let (v,rest) ← u64 bytes
  if h : v = 0 then .error .malformed else return (⟨v,h⟩,rest)

def readExpected (bytes : Bytes) : Except WalError (ExpectedGraphState × Bytes) := do
  let (tag,rest) ← u8 bytes
  if tag = 1 then return (.absent,rest)
  else if tag = 2 then
    let (id,rest) ← readEntity rest
    return (.entity id,rest)
  else if tag = 3 then
    let (revision,rest) ← readRevision rest
    return (.deletion revision,rest)
  else .error .malformed

def deleteModeTag : Option GraphDeleteMode → U8
  | none => 0
  | some .restrict => 1
  | some .detach => 2

def readDeleteMode (v : U8) : Except WalError (Option GraphDeleteMode) :=
  if v = 0 then .ok none
  else if v = 1 then .ok (some .restrict)
  else if v = 2 then .ok (some .detach)
  else .error .malformed

def provenanceBytes (v : Mutation) : Bytes :=
  provenanceMagic++(toLe 2 v.provenanceVersion++(toLe 1 (operationTag v.provenance.operation)++
    (keyBytes v.provenance.key++(toLe 8 v.provenance.requestedRevision.get++
      (toLe 8 v.provenance.installedRevision.get++(expectedBytes v.provenance.expected++
        (entityBytes v.provenance.incarnation++(toLe 1 (deleteModeTag v.provenance.deleteMode)++
          toLe 8 v.provenance.originalGeneration))))))))

def readProvenance (bytes : Bytes) : Except WalError ((U16 × OperationFields) × Bytes) := do
  let (magic,rest) ← take 4 bytes
  if magic ≠ provenanceMagic then .error .malformed
  else
    let (version,rest) ← u16 rest
    if version ≠ 1 ∧ version ≠ 2 then .error .unsupported
    else
      let (operation,rest) ← u8 rest
      let operation ← readOperation operation
      let (key,rest) ← readKey rest
      let (requested,rest) ← readRevision rest
      let (installed,rest) ← readRevision rest
      let (expected,rest) ← readExpected rest
      let (incarnation,rest) ← readEntity rest
      let (mode,rest) ← u8 rest
      let mode ← readDeleteMode mode
      let (generation,rest) ← u64 rest
      return ((version,⟨operation,key,requested,installed,expected,incarnation,mode,
        generation⟩),rest)

def admissible (v : Mutation) : Bool :=
  match v.provenance.operation with
  | .structuredCreate => v.provenance.key.isSome && v.provenance.expected = .absent && v.live &&
      v.provenance.deleteMode.isNone
  | .structuredPut => v.provenance.key.isSome && v.provenance.expected.entity?.isSome && v.live &&
      v.provenance.deleteMode.isNone
  | .structuredDelete => v.provenance.key.isSome && v.provenance.expected.entity?.isSome &&
      !v.live && v.provenance.deleteMode.isSome
  | .structuredRecreate => v.provenance.key.isSome && v.live && v.provenance.deleteMode.isNone &&
      match v.provenance.expected with
      | .deletion revision => revision.get < v.provenance.requestedRevision.get
      | _ => false
  | .cypherEdit =>
      (match v.provenance.expected with
        | .deletion _ => false
        | _ => true) &&
      (v.live || v.provenance.expected.entity?.isSome) &&
      v.live = v.provenance.deleteMode.isNone

def highWaterOf (state : CommitState) : EntityKind → U128
  | .node => state.highWaters.node
  | .relationship => state.highWaters.relationship

def validateCanonical (v : Mutation) (state : CommitState) : Except WalError Unit :=
  match v.canonical with
  | none => .ok ()
  | some r =>
    if r.block.kind ≠ .canonicalImage ∧ r.block.kind ≠ .extentList then .error .participant
    else validateRef r state r.block.kind

def validateMutation (v : Mutation) (state : CommitState) : Except WalError Unit :=
  if v.provenanceVersion ≠ 1 ∧ v.provenanceVersion ≠ 2 then .error .unsupported
  else if (v.provenance.key.any fun key => key.kind ≠ v.provenance.incarnation.kind) ∨
      v.provenance.requestedRevision ≠ v.provenance.installedRevision ∨
      v.provenance.originalGeneration ≠ state.generation ∨
      (v.provenance.expected.entity?.any fun id => id ≠ v.provenance.incarnation) then
    .error .participant
  else if v.provenanceVersion = 2 ∧ v.provenance.incarnation.kind ≠ .node then .error .participant
  else if v.provenanceVersion = 1 ∧ (entityWord v.provenance.incarnation = 0 ∨
      highWaterOf state v.provenance.incarnation.kind < entityWord v.provenance.incarnation) then
    .error .highWater
  else if v.live ≠ v.canonical.isSome ∨
      (v.live = false ∧ (v.membership.textAfter ∨ v.membership.vectorAfter)) ∨
      (v.provenance.incarnation.kind = .relationship ∧
        (v.membership ≠ ⟨false,false,false,false⟩ ∨
          v.provenance.deleteMode = some .detach)) then .error .participant
  else if admissible v = false then .error .participant
  else validateCanonical v state

def membershipFlags (m : Membership) : U8 :=
  BitVec.ofNat 8 (m.textBefore.toNat+2*m.textAfter.toNat+4*m.vectorBefore.toNat+
    8*m.vectorAfter.toNat)

def readMembership (flags : U8) : Membership :=
  ⟨flags.getLsbD 0,flags.getLsbD 1,flags.getLsbD 2,flags.getLsbD 3⟩

def putMutation (v : Mutation) (state : CommitState) : Except WalError Bytes := do
  validateMutation v state
  if maxGraphInputBytes < (provenanceBytes v).length then .error .capacity
  else
    let canonical ← putOptional v.canonical
    return toLe 1 (if v.live then 1 else 0 : U8)++(toLe 1 (membershipFlags v.membership)++
      (zeros 6++(toLe 8 (BitVec.ofNat 64 (provenanceBytes v).length)++
        (provenanceBytes v++canonical))))

def readLive (v : U8) : Except WalError Bool :=
  if v = 0 then .ok false else if v = 1 then .ok true else .error .malformed

def getMutation (state : CommitState) (bytes : Bytes) : Except WalError (Mutation × Bytes) := do
  let (live,rest) ← u8 bytes
  let live ← readLive live
  let (flags,rest) ← u8 rest
  if 16 ≤ flags.toNat then .error .malformed
  else
    let rest ← zero 6 rest
    let (n,rest) ← u64 rest
    if maxGraphInputBytes < n.toNat then .error .malformed
    else
      let (field,rest) ← take n.toNat rest
      let (provenance,extra) ← readProvenance field
      finish extra
      let (canonical,rest) ← getOptional rest
      validateMutation ⟨provenance.1,provenance.2,live,canonical,readMembership flags⟩ state
      return (⟨provenance.1,provenance.2,live,canonical,readMembership flags⟩,rest)

inductive InventoryState where
  | prepared
  | retained
  | reclaimPending (id : BatchId)
  | reclaimed (id : BatchId)
  deriving DecidableEq

structure InventoryChange where
  object : ArtifactDescriptor
  state : InventoryState
  deriving DecidableEq

structure ReclaimIntent where
  id : BatchId
  captureGeneration : GraphGeneration
  captureSequence : U64
  serialFence : U64
  protectedRoots : RequiredRef
  protectedDigest : U64
  completedMark : RequiredRef
  markDigest : U64
  candidates : List ArtifactDescriptor
  deriving DecidableEq

structure ReclaimComplete where
  id : BatchId
  intent : RequiredRef
  completed : List ArtifactDescriptor
  remaining : List ArtifactDescriptor
  deriving DecidableEq

inductive Change where
  | mutation (v : Mutation)
  | inventory (v : InventoryChange)
  | reclaimIntent (v : ReclaimIntent)
  | reclaimComplete (v : ReclaimComplete)
  deriving DecidableEq

def object (v : ArtifactDescriptor) (state : CommitState) : Except WalError Unit := do
  descriptor v
  if v.store ≠ state.store then .error .store
  else if state.generation < v.generation ∨ state.highWaters.creationSerial < v.serial then
    .error .highWater
  else .ok ()

def candidatesFrom (state : CommitState) (fence : U64) :
    Option ArtifactId → List ArtifactDescriptor → Except WalError Unit
  | _,[] => .ok ()
  | previous,v::rest => do
    object v state
    if fence < v.serial then .error .highWater
    else if previous.any fun id => v.artifact.get ≤ id.get then .error .malformed
    else candidatesFrom state fence (some v.artifact) rest

def candidates (v : List ArtifactDescriptor) (state : CommitState) (fence : U64) :
    Except WalError Unit :=
  if maxEnvelopeBytes / 64 < v.length then .error .capacity
  else candidatesFrom state fence none v

def disjoint : List ArtifactDescriptor → List ArtifactDescriptor → Except WalError Unit
  | a::as,b::bs =>
    if a.artifact.get < b.artifact.get then disjoint as (b::bs)
    else if b.artifact.get < a.artifact.get then disjoint (a::as) bs
    else .error .malformed
  | _,_ => .ok ()
termination_by left right => left.length+right.length

def validateIntent (v : ReclaimIntent) (state : CommitState) : Except WalError Unit := do
  if state.generation ≤ v.captureGeneration ∨ state.sequence ≤ v.captureSequence ∨
      state.highWaters.creationSerial < v.serialFence then .error .sequence
  else
    validateRef v.protectedRoots state .commitParticipant
    validateRef v.completedMark state .commitParticipant
    candidates v.candidates state v.serialFence

def validateComplete (v : ReclaimComplete) (state : CommitState) : Except WalError Unit := do
  validateRef v.intent state .commitParticipant
  candidates v.completed state state.highWaters.creationSerial
  candidates v.remaining state state.highWaters.creationSerial
  disjoint v.completed v.remaining

def putCandidates (v : List ArtifactDescriptor) : Except WalError Bytes :=
  if 2^32 ≤ v.length then .error .capacity
  else do
    let rows ← putMany putDescriptor v
    return toLe 4 (BitVec.ofNat 32 v.length)++(zeros 4++rows)

def getCandidates (bytes : Bytes) : Except WalError (List ArtifactDescriptor × Bytes) := do
  let (n,rest) ← u32 bytes
  let rest ← zero 4 rest
  readRows 64 getDescriptor n.toNat rest

def inventoryTag : InventoryState → U8 × U128
  | .prepared => (1,0)
  | .retained => (2,0)
  | .reclaimPending id => (3,id.get)
  | .reclaimed id => (4,id.get)

def readInventoryState (tag : U8) (id : U128) : Except WalError InventoryState :=
  if tag = 1 ∧ id = 0 then .ok .prepared
  else if tag = 2 ∧ id = 0 then .ok .retained
  else if tag = 3 then do
    let id ← NonzeroId.new id
    return .reclaimPending id
  else if tag = 4 then do
    let id ← NonzeroId.new id
    return .reclaimed id
  else .error .malformed

def putInventory (v : InventoryChange) (state : CommitState) : Except WalError Bytes := do
  object v.object state
  let bytes ← putDescriptor v.object
  return bytes++(toLe 1 (inventoryTag v.state).1++(zeros 7++toLe 16 (inventoryTag v.state).2))

def getInventory (state : CommitState) (bytes : Bytes) :
    Except WalError (InventoryChange × Bytes) := do
  let (artifact,rest) ← getDescriptor bytes
  let (tag,rest) ← u8 rest
  let rest ← zero 7 rest
  let (id,rest) ← u128 rest
  let inventory ← readInventoryState tag id
  object artifact state
  return (⟨artifact,inventory⟩,rest)

def putIntent (v : ReclaimIntent) (state : CommitState) : Except WalError Bytes := do
  validateIntent v state
  let roots ← putRef v.protectedRoots
  let mark ← putRef v.completedMark
  let rows ← putCandidates v.candidates
  return toLe 16 v.id.get++(toLe 8 v.captureGeneration++(toLe 8 v.captureSequence++
    (toLe 8 v.serialFence++(toLe 1 (1 : U8)++(zeros 7++(roots++
      (toLe 8 v.protectedDigest++(mark++(toLe 8 v.markDigest++rows)))))))))

def getIntent (state : CommitState) (bytes : Bytes) : Except WalError (ReclaimIntent × Bytes) := do
  let (id,rest) ← u128 bytes
  let id ← NonzeroId.new id
  let (generation,rest) ← u64 rest
  let (sequence,rest) ← u64 rest
  let (fence,rest) ← u64 rest
  let (tag,rest) ← u8 rest
  if tag ≠ 1 then .error .participant
  else
    let rest ← zero 7 rest
    let (roots,rest) ← getRef rest
    let (rootsDigest,rest) ← u64 rest
    let (mark,rest) ← getRef rest
    let (markDigest,rest) ← u64 rest
    let (rows,rest) ← getCandidates rest
    validateIntent ⟨id,generation,sequence,fence,roots,rootsDigest,mark,markDigest,rows⟩ state
    return (⟨id,generation,sequence,fence,roots,rootsDigest,mark,markDigest,rows⟩,rest)

def putComplete (v : ReclaimComplete) (state : CommitState) : Except WalError Bytes := do
  validateComplete v state
  let intent ← putRef v.intent
  let completed ← putCandidates v.completed
  let remaining ← putCandidates v.remaining
  return toLe 16 v.id.get++(intent++(toLe 1 (3 : U8)++(zeros 7++(completed++remaining))))

def getComplete (state : CommitState) (bytes : Bytes) :
    Except WalError (ReclaimComplete × Bytes) := do
  let (id,rest) ← u128 bytes
  let id ← NonzeroId.new id
  let (intent,rest) ← getRef rest
  let (tag,rest) ← u8 rest
  if tag ≠ 3 then .error .participant
  else
    let rest ← zero 7 rest
    let (completed,rest) ← getCandidates rest
    let (remaining,rest) ← getCandidates rest
    validateComplete ⟨id,intent,completed,remaining⟩ state
    return (⟨id,intent,completed,remaining⟩,rest)

def Change.tag : Change → U16
  | .mutation _ => 2
  | .inventory _ => 3
  | .reclaimIntent _ => 4
  | .reclaimComplete _ => 5

def Change.write (state : CommitState) : Change → Except WalError Bytes
  | .mutation v => putMutation v state
  | .inventory v => putInventory v state
  | .reclaimIntent v => putIntent v state
  | .reclaimComplete v => putComplete v state

def Change.parse (tag : U16) (state : CommitState) (payload : Bytes) :
    Except WalError (Change × Bytes) :=
  if tag = 2 then do
    let (v,rest) ← getMutation state payload
    return (.mutation v,rest)
  else if tag = 3 then do
    let (v,rest) ← getInventory state payload
    return (.inventory v,rest)
  else if tag = 4 then do
    let (v,rest) ← getIntent state payload
    return (.reclaimIntent v,rest)
  else if tag = 5 then do
    let (v,rest) ← getComplete state payload
    return (.reclaimComplete v,rest)
  else .error .unsupported

def Change.read (tag : U16) (payload : Bytes) (state : CommitState) : Except WalError Change := do
  let (change,rest) ← Change.parse tag state payload
  finish rest
  return change

end Zeppelin.GraphWal
