import Zeppelin.GraphStore.Artifact
import Zeppelin.GraphWal.Framing
import Zeppelin.Meta.Evolution
import Zeppelin.Planner.Prune

/-! manifest/mod.rs, manifest/graph.rs, epoch.rs -/

namespace Zeppelin.Manifest
open Format GraphWal Meta Planner

abbrev EpochId := U64
abbrev TokenizerEpoch := U64

inductive Normalization where
  | none
  | l2
  deriving DecidableEq

inductive EmbeddingRuntime where
  | coreMl
  | mlx
  | cpuReference
  deriving DecidableEq

inductive ComputeUnits where
  | cpu
  | cpuAndGpu
  | cpuAndNeuralEngine
  | all
  deriving DecidableEq

def Normalization.id : Normalization → U16
  | .none => 0
  | .l2 => 1

def EmbeddingRuntime.id : EmbeddingRuntime → U16
  | .coreMl => 1
  | .mlx => 2
  | .cpuReference => 3

def ComputeUnits.id : ComputeUnits → U16
  | .cpu => 1
  | .cpuAndGpu => 2
  | .cpuAndNeuralEngine => 3
  | .all => 4

structure EmbeddingTower where
  modelId : String
  modelVersion : String
  weightsDigest : Bytes
  dims : U32
  normalization : Normalization
  promptPrefix : String
  maxTokens : U32
  runtime : EmbeddingRuntime
  computeUnits : ComputeUnits
  osBuild : Option String
  deriving DecidableEq

structure EmbeddingEpoch where
  document : EmbeddingTower
  query : EmbeddingTower
  alignmentDigest : Bytes
  deriving DecidableEq

structure EpochIdentity where
  embedding : EpochId
  tokenizer : TokenizerEpoch
  deriving DecidableEq

structure EpochMeta where
  id : EpochId
  embedding : EmbeddingEpoch
  tokenizer : TokenizerEpoch
  deriving DecidableEq

/-- `push_bytes`: a length past 32 bits is written as the largest one. -/
def pushBytes (value : Bytes) : Bytes :=
  toLe 4 (BitVec.ofNat 32 (min value.length (2^32-1)))++value

def pushOsBuild : Option String → Bytes
  | some build => toLe 1 (1 : U8)++pushBytes (utf8Bytes build)
  | none => toLe 1 (0 : U8)

def pushTower (tower : EmbeddingTower) : Bytes :=
  pushBytes (utf8Bytes tower.modelId)++(pushBytes (utf8Bytes tower.modelVersion)++
    (pushBytes tower.weightsDigest++(toLe 4 tower.dims++(toLe 2 tower.normalization.id++
      (pushBytes (utf8Bytes tower.promptPrefix)++(toLe 4 tower.maxTokens++
        (toLe 2 tower.runtime.id++(toLe 2 tower.computeUnits.id++
          pushOsBuild tower.osBuild))))))))

/-- `ZEEMBEP2` in ASCII. -/
def epochMagic : Bytes := [0x5A,0x45,0x45,0x4D,0x42,0x45,0x50,0x32]

def canonicalDigestInput (epoch : EmbeddingEpoch) : Bytes :=
  epochMagic++(pushTower epoch.document++(pushTower epoch.query++
    pushBytes epoch.alignmentDigest))

def EpochId.of (xxh3 : Bytes → U64) (epoch : EmbeddingEpoch) : EpochId :=
  xxh3 (canonicalDigestInput epoch)

structure SegmentId where
  bytes : Bytes
  sixteen : bytes.length = 16
  deriving DecidableEq

structure SegmentMeta where
  id : SegmentId
  rowCount : U32
  scheme : U16
  dims : U32
  fileSize : U64
  epochId : Option EpochId
  clusteringKeyRange : ClusteringKeyRange
  deriving DecidableEq

structure GraphObject where
  artifact : ArtifactId
  length : U64
  checksum : U64
  deriving DecidableEq

structure GraphManifest where
  stateBytes : Bytes
  graphAbsorbedThrough : U64
  generationAbsorbedThrough : Option U64
  generationBumps : List (U64 × U64)
  objects : List GraphObject
  deriving DecidableEq

structure BuiltSchema where
  schema : Schema
  built : schema.Built
  deriving DecidableEq

structure Manifest where
  graph : Option GraphManifest
  generation : U64
  logSeq : U64
  segments : List SegmentMeta
  epochs : List EpochMeta
  epochAlias : Option EpochIdentity
  schema : BuiltSchema
  deriving DecidableEq

inductive Detail where
  | lengthExceedsU32 | clusteringRangeInverted | flags | truncated | reserved | retiredScheme
  | unknownScheme | segmentReserved | nullableFlag | columnType | trailing
  | schema (error : SchemaError)
  | embeddingDigest (declared actual : EpochId)
  | duplicateIdentity (identity : EpochIdentity)
  | noAlias | noSegmentEpoch (segment : SegmentId)
  | rangeMagic | rangeCount | rangeBytes | rangeReserved | rangeBounds | rangeTag
  | aliasReserved | aliasBytes | aliasTag | epochReserved | epochBytes | epochTag
  | normalization | runtime | computeUnits | osReserved | osTag | utf8
  | wal (error : WalError)
  | generationBumps | searchRoot | graphObject | participant | graphMagic | graphChecksum
  | graphPresence | graphObjectCount | generationBoundary | generationBumpCount
  deriving DecidableEq

inductive ManifestError where
  | format (error : FormatError)
  | decode (detail : Detail)
  | unknownEpochAlias (identity : EpochIdentity)
  | unknownSegmentEpoch (segment : SegmentId) (epoch : EpochId)
  -- A vector that would pass the address space: the allocation panics.
  | capacity
  deriving DecidableEq

abbrev fail {α : Type} (detail : Detail) : Except ManifestError α := .error (.decode detail)

section Checksum
variable (xxh3 : Bytes → U64)

def EpochIdentity.fromMeta (epoch : EpochMeta) : Except ManifestError EpochIdentity :=
  if EpochId.of xxh3 epoch.embedding ≠ epoch.id then
    fail (.embeddingDigest epoch.id (EpochId.of xxh3 epoch.embedding))
  else .ok ⟨epoch.id,epoch.tokenizer⟩

def collectIdentities (seen : List EpochIdentity) :
    List EpochMeta → Except ManifestError (List EpochIdentity)
  | [] => .ok seen
  | epoch::epochs => do
    let identity ← EpochIdentity.fromMeta xxh3 epoch
    if identity ∈ seen then fail (.duplicateIdentity identity)
    else collectIdentities (identity::seen) epochs

def checkAlias (identities : List EpochIdentity) : Option EpochIdentity → Except ManifestError Unit
  | some identity =>
    if identity ∉ identities then .error (.unknownEpochAlias identity) else .ok ()
  | none => if identities ≠ [] then fail .noAlias else .ok ()

def checkSegmentEpoch (identities : List EpochIdentity) (segment : SegmentMeta) :
    Except ManifestError Unit :=
  match segment.epochId with
  | some epoch =>
    if identities.any (fun identity => identity.embedding = epoch) then .ok ()
    else .error (.unknownSegmentEpoch segment.id epoch)
  | none => if identities ≠ [] then fail (.noSegmentEpoch segment.id) else .ok ()

def checkSegmentEpochs (identities : List EpochIdentity) :
    List SegmentMeta → Except ManifestError Unit
  | [] => .ok ()
  | segment::segments => do
    checkSegmentEpoch identities segment
    checkSegmentEpochs identities segments

def validateEpochReferences (m : Manifest) : Except ManifestError Unit := do
  let identities ← collectIdentities xxh3 [] m.epochs
  checkAlias identities m.epochAlias
  checkSegmentEpochs identities m.segments

end Checksum

def walError {α : Type} (x : Except WalError α) : Except ManifestError α :=
  x.mapError fun e => .decode (.wal e)

def decodeCommitState (bytes : Bytes) : Except WalError CommitState := do
  let (state,rest) ← stateRead bytes
  finish rest
  return state

namespace GraphManifest

def state (g : GraphManifest) : Except ManifestError CommitState :=
  walError (decodeCommitState g.stateBytes)

def checkBumps (boundary : Option U64) (previous : Option U64) :
    List (U64 × U64) → Except ManifestError Unit
  | [] => .ok ()
  | (sequence,count)::rest =>
    if count = 0 ∨ previous.any (fun prior => sequence ≤ prior) ∨
        boundary.all (fun limit => limit < sequence) then fail .generationBumps
    else checkBumps boundary (some sequence) rest

def checkSearchRoot (root : Option RequiredRef) : Except ManifestError Unit :=
  match root with
  | none => .ok ()
  | some reference =>
    if reference.block.kind ≠ .commitParticipant then fail .searchRoot else .ok ()

def collectInventory (seen : List GraphObject) :
    List GraphObject → Except ManifestError (List GraphObject)
  | [] => .ok seen
  | object::objects =>
    if object.length.toNat < 104 ∨ GraphStore.maxArtifactBytes < object.length.toNat ∨
        seen.any (fun other => other.artifact = object.artifact) then fail .graphObject
    else collectInventory (object::seen) objects

def checkParticipant (inventory : List GraphObject) (reference : RequiredRef) :
    Except ManifestError Unit :=
  match inventory.find? fun object => object.artifact = reference.object.artifact with
  | some object =>
    if object.length.toNat = reference.object.bytes.toNat ∧
        object.checksum = reference.object.checksum then .ok ()
    else fail .participant
  | none => fail .participant

def checkParticipants (inventory : List GraphObject) : List RequiredRef → Except ManifestError Unit
  | [] => .ok ()
  | reference::references => do
    checkParticipant inventory reference
    checkParticipants inventory references

def participants (state : CommitState) : List RequiredRef :=
  state.graph.slots.filterMap id++([state.catalog]++(state.vector.toList++
    (state.text.toList++(state.reclaim.toList++state.preparedInventories))))

def validate (g : GraphManifest) : Except ManifestError Unit := do
  checkBumps g.generationAbsorbedThrough none g.generationBumps
  let state ← g.state
  checkSearchRoot state.vector
  checkSearchRoot state.text
  let inventory ← collectInventory [] g.objects
  checkParticipants inventory (participants state)

theorem bumps_eq_nil_of_validate {g : GraphManifest} (h : g.validate = .ok ())
    (hnone : g.generationAbsorbedThrough = none) : g.generationBumps = [] := by
  obtain ⟨⟨⟩,hbumps,-⟩ := bind_eq_ok h
  rw [hnone] at hbumps
  cases hrows : g.generationBumps with
  | nil => rfl
  | cons row rows =>
    rw [hrows] at hbumps
    unfold checkBumps at hbumps
    simp [fail] at hbumps

end GraphManifest

end Zeppelin.Manifest
