import Zeppelin.Bytes.Reader
import Zeppelin.Manifest.Record

/-! manifest/mod.rs, manifest/graph.rs -/

namespace Zeppelin.Manifest
open Format Meta Planner
open Reader (ensure lift repeated putMany)

abbrev Cursor := Reader ManifestError

def appendU32Len (length : ℕ) : Except ManifestError Bytes :=
  if length < 2^32 then .ok (toLe 4 (BitVec.ofNat 32 length)) else fail .lengthExceedsU32

def appendBytes (value : Bytes) : Except ManifestError Bytes := do
  let length ← appendU32Len value.length
  return length++value

def appendString (value : String) : Except ManifestError Bytes := appendBytes (utf8Bytes value)

def appendOptionalIdentity : Option EpochIdentity → Bytes
  | some identity => toLe 1 (1 : U8)++(zeros 7++(toLe 8 identity.embedding++
      toLe 8 identity.tokenizer))
  | none => toLe 1 (0 : U8)++(zeros 7++(toLe 8 (0 : U64)++toLe 8 (0 : U64)))

def appendOptionalEpochId : Option EpochId → Bytes
  | some epoch => toLe 1 (1 : U8)++(zeros 7++toLe 8 epoch)
  | none => toLe 1 (0 : U8)++(zeros 7++toLe 8 (0 : U64))

def appendOsBuild : Option String → Except ManifestError Bytes
  | some build => do
    let text ← appendString build
    return toLe 1 (1 : U8)++(zeros 3++text)
  | none => .ok (toLe 1 (0 : U8)++zeros 3)

def appendEmbeddingTower (tower : EmbeddingTower) : Except ManifestError Bytes := do
  let modelId ← appendString tower.modelId
  let modelVersion ← appendString tower.modelVersion
  let weights ← appendBytes tower.weightsDigest
  let prompt ← appendString tower.promptPrefix
  let osBuild ← appendOsBuild tower.osBuild
  return modelId++(modelVersion++(weights++(toLe 4 tower.dims++
    (toLe 2 tower.normalization.id++(prompt++(toLe 4 tower.maxTokens++
      (toLe 2 tower.runtime.id++(toLe 2 tower.computeUnits.id++osBuild))))))))

def appendEmbeddingEpoch (epoch : EmbeddingEpoch) : Except ManifestError Bytes := do
  let document ← appendEmbeddingTower epoch.document
  let query ← appendEmbeddingTower epoch.query
  let alignment ← appendBytes epoch.alignmentDigest
  return document++(query++alignment)

def appendSegment (segment : SegmentMeta) : Except ManifestError Bytes :=
  .ok (segment.id.bytes++(toLe 4 segment.rowCount++(toLe 2 segment.scheme++
    (toLe 2 (0 : U16)++(toLe 4 segment.dims++(toLe 8 segment.fileSize++
      appendOptionalEpochId segment.epochId))))))

def appendEpoch (epoch : EpochMeta) : Except ManifestError Bytes := do
  let embedding ← appendEmbeddingEpoch epoch.embedding
  return toLe 8 epoch.id++(toLe 8 epoch.tokenizer++embedding)

def columnTypeId : ColumnType → U16
  | .id128 => 7
  | .u64 => 1
  | .i64 => 2
  | .f64 => 3
  | .bool => 4
  | .dictionaryString => 5
  | .rawString => 6

def nullableWord (nullable : Bool) : U16 := if nullable then 1 else 0

def appendColumn (definition : ColumnDefinition) : Except ManifestError Bytes := do
  let name ← appendString definition.name
  return toLe 4 definition.id++(toLe 2 (columnTypeId definition.columnType)++
    (toLe 2 (nullableWord definition.nullable)++name))

/-- `TSR1` in ASCII. -/
def rangeMagic : Bytes := [0x54,0x53,0x52,0x31]

def appendRange (segment : SegmentMeta) : Except ManifestError Bytes :=
  match segment.clusteringKeyRange with
  | .unstamped => .ok (toLe 1 (0 : U8)++(zeros 7++(toLe 8 (0 : U64)++toLe 8 (0 : U64))))
  | .empty => .ok (toLe 1 (1 : U8)++(zeros 7++(toLe 8 (0 : U64)++toLe 8 (0 : U64))))
  | .bounded minTs maxTs =>
    if maxTs.slt minTs then fail .clusteringRangeInverted
    else .ok (toLe 1 (2 : U8)++(zeros 7++(toLe 8 minTs++toLe 8 maxTs)))

def appendClusteringRanges (segments : List SegmentMeta) : Except ManifestError Bytes :=
  if segments.all fun segment => segment.clusteringKeyRange = .unstamped then .ok []
  else do
    let count ← appendU32Len segments.length
    let ranges ← putMany appendRange segments
    return rangeMagic++(count++ranges)

/-- `ZGR3` in ASCII. -/
def graphMagic : Bytes := [0x5A,0x47,0x52,0x33]

/-- `ZGEN` in ASCII. -/
def generationMagic : Bytes := [0x5A,0x47,0x45,0x4E]

def generationBoundaryV1 : Bytes := generationMagic++[1,0,0,0]
def generationBoundaryV2 : Bytes := generationMagic++[2,0,0,0]

def appendObject (object : GraphObject) : Except ManifestError Bytes :=
  .ok (toLe 16 object.artifact.get++(toLe 8 object.length++toLe 8 object.checksum))

def appendBump (bump : U64 × U64) : Except ManifestError Bytes :=
  .ok (toLe 8 bump.1++toLe 8 bump.2)

def appendBumps (bumps : List (U64 × U64)) : Except ManifestError Bytes := do
  let count ← appendU32Len bumps.length
  let rows ← putMany appendBump bumps
  return count++(zeros 4++rows)

def appendGeneration (g : GraphManifest) : Except ManifestError Bytes :=
  match g.generationAbsorbedThrough with
  | none => .ok []
  | some sequence =>
    if g.generationBumps.isEmpty then .ok (generationBoundaryV1++toLe 8 sequence)
    else do
      let bumps ← appendBumps g.generationBumps
      return generationBoundaryV2++(toLe 8 sequence++bumps)

def sectionLength (g : GraphManifest) : ℕ :=
  24+(if g.generationAbsorbedThrough.isSome then
    if g.generationBumps.isEmpty then 16 else 24+g.generationBumps.length*16
    else 0)+g.stateBytes.length+g.objects.length*32

def appendSection (g : GraphManifest) : Except ManifestError Bytes := do
  let length ← appendU32Len (sectionLength g)
  let stateLength ← appendU32Len g.stateBytes.length
  let objectCount ← appendU32Len g.objects.length
  let objects ← putMany appendObject g.objects
  let generation ← appendGeneration g
  return graphMagic++(length++(toLe 1 (1 : U8)++(zeros 7++(toLe 8 g.graphAbsorbedThrough++
    (stateLength++(g.stateBytes++(objectCount++(objects++generation))))))))

section Checksum
variable (xxh3 : Bytes → U64)

def appendGraph (g : GraphManifest) : Except ManifestError Bytes := do
  g.validate
  let written ← appendSection g
  return written++toLe 8 (xxh3 written)

def appendOptionalGraph : Option GraphManifest → Except ManifestError Bytes
  | none => .ok []
  | some g => appendGraph xxh3 g

def manifestVersion (m : Manifest) : U16 := if m.graph.isSome then 3 else 2

def encodePayload (m : Manifest) : Except ManifestError Bytes := do
  let segmentCount ← appendU32Len m.segments.length
  let epochCount ← appendU32Len m.epochs.length
  let schemaCount ← appendU32Len m.schema.schema.userColumns.length
  let segments ← putMany appendSegment m.segments
  let epochs ← putMany appendEpoch m.epochs
  let columns ← putMany appendColumn m.schema.schema.userColumns
  let ranges ← appendClusteringRanges m.segments
  let graph ← appendOptionalGraph xxh3 m.graph
  return toLe 8 m.generation++(toLe 8 m.logSeq++(segmentCount++(epochCount++(schemaCount++
    (toLe 4 (0 : U32)++(appendOptionalIdentity m.epochAlias++(segments++(epochs++(columns++
      (ranges++graph))))))))))

def encodeManifest (m : Manifest) : Except ManifestError Bytes := do
  validateEpochReferences xxh3 m
  let payload ← encodePayload xxh3 m
  if 2^64 ≤ 56+payload.length then .error .capacity
  else return encodeArtifactVersion xxh3 .manifest (manifestVersion m) 0 payload

def take (n : ℕ) : Cursor Bytes := Reader.take (.decode .truncated) n
def u8 : Cursor U8 := Reader.word (.decode .truncated) 8 1
def u16 : Cursor U16 := Reader.word (.decode .truncated) 16 2
def u32 : Cursor U32 := Reader.word (.decode .truncated) 32 4
def u64 : Cursor U64 := Reader.word (.decode .truncated) 64 8
def u128 : Cursor U128 := Reader.word (.decode .truncated) 128 16

def remaining : Cursor ℕ := fun bytes => .ok (bytes.length,bytes)

def finish : Cursor Unit := fun bytes =>
  if bytes.isEmpty then .ok ((),bytes) else fail .trailing

def reservedZeros (n : ℕ) (detail : Detail) : Cursor Unit := do
  let field ← take n
  ensure (allZero field) (.decode detail)

def utf8 (bytes : Bytes) : Except ManifestError String :=
  match fromUtf8 bytes with
  | some text => .ok text
  | none => fail .utf8

def bytesField : Cursor Bytes := do
  let length ← u32
  take length.toNat

def string : Cursor String := do
  let field ← bytesField
  lift (utf8 field)

def identityOf (tag : U8) (embedding tokenizer : U64) : Except ManifestError (Option EpochIdentity) :=
  if tag = 0 then if embedding = 0 ∧ tokenizer = 0 then .ok none else fail .aliasBytes
  else if tag = 1 then .ok (some ⟨embedding,tokenizer⟩)
  else fail .aliasTag

def optionalIdentity : Cursor (Option EpochIdentity) := do
  let tag ← u8
  reservedZeros 7 .aliasReserved
  let embedding ← u64
  let tokenizer ← u64
  lift (identityOf tag embedding tokenizer)

def epochIdOf (tag : U8) (epoch : U64) : Except ManifestError (Option EpochId) :=
  if tag = 0 then if epoch = 0 then .ok none else fail .epochBytes
  else if tag = 1 then .ok (some epoch)
  else fail .epochTag

def optionalEpochId : Cursor (Option EpochId) := do
  let tag ← u8
  reservedZeros 7 .epochReserved
  let epoch ← u64
  lift (epochIdOf tag epoch)

def normalizationOf (id : U16) : Except ManifestError Normalization :=
  if id = 0 then .ok .none
  else if id = 1 then .ok .l2
  else fail .normalization

def runtimeOf (id : U16) : Except ManifestError EmbeddingRuntime :=
  if id = 1 then .ok .coreMl
  else if id = 2 then .ok .mlx
  else if id = 3 then .ok .cpuReference
  else fail .runtime

def computeUnitsOf (id : U16) : Except ManifestError ComputeUnits :=
  if id = 1 then .ok .cpu
  else if id = 2 then .ok .cpuAndGpu
  else if id = 3 then .ok .cpuAndNeuralEngine
  else if id = 4 then .ok .all
  else fail .computeUnits

def osBuildOf (tag : U8) : Cursor (Option String) :=
  if tag = 0 then pure none
  else if tag = 1 then do
    let build ← string
    return some build
  else lift (fail .osTag)

def embeddingTower : Cursor EmbeddingTower := do
  let modelId ← string
  let modelVersion ← string
  let weights ← bytesField
  let dims ← u32
  let normalization ← u16
  let normalization ← lift (normalizationOf normalization)
  let prompt ← string
  let maxTokens ← u32
  let runtime ← u16
  let runtime ← lift (runtimeOf runtime)
  let units ← u16
  let units ← lift (computeUnitsOf units)
  let tag ← u8
  reservedZeros 3 .osReserved
  let osBuild ← osBuildOf tag
  return ⟨modelId,modelVersion,weights,dims,normalization,prompt,maxTokens,runtime,units,
    osBuild⟩

def embeddingEpoch : Cursor EmbeddingEpoch := do
  let document ← embeddingTower
  let query ← embeddingTower
  let alignment ← bytesField
  return ⟨document,query,alignment⟩

def requireScheme (scheme : U16) : Except ManifestError Unit :=
  if scheme = 0 ∨ scheme = 1 ∨ scheme = 2 ∨ scheme = 4 then .ok ()
  else if scheme = 3 ∨ scheme = 5 then fail .retiredScheme
  else fail .unknownScheme

def segmentId : Cursor SegmentId := fun bytes =>
  if h : 16 ≤ bytes.length then
    .ok (⟨bytes.take 16,List.length_take_of_le h⟩,bytes.drop 16)
  else fail .truncated

def segment : Cursor SegmentMeta := do
  let id ← segmentId
  let rowCount ← u32
  let scheme ← u16
  lift (requireScheme scheme)
  let reserved ← u16
  ensure (reserved = 0) (.decode .segmentReserved)
  let dims ← u32
  let fileSize ← u64
  let epochId ← optionalEpochId
  return ⟨id,rowCount,scheme,dims,fileSize,epochId,.unstamped⟩

def epochMeta : Cursor EpochMeta := do
  let id ← u64
  let tokenizer ← u64
  let embedding ← embeddingEpoch
  return ⟨id,embedding,tokenizer⟩

def columnTypeFromId (id : U16) : Except ManifestError ColumnType :=
  if id = 7 then .ok .id128
  else if id = 1 then .ok .u64
  else if id = 2 then .ok .i64
  else if id = 3 then .ok .f64
  else if id = 4 then .ok .bool
  else if id = 5 then .ok .dictionaryString
  else if id = 6 then .ok .rawString
  else fail .columnType

def nullableOf (word : U16) : Except ManifestError Bool :=
  if word = 0 then .ok false
  else if word = 1 then .ok true
  else fail .nullableFlag

def columnDefinition : Cursor ColumnDefinition := do
  let id ← u32
  let columnType ← u16
  let columnType ← lift (columnTypeFromId columnType)
  let nullable ← u16
  let nullable ← lift (nullableOf nullable)
  let name ← string
  return ⟨id,name,columnType,nullable⟩

def rangeOf (tag : U8) (minTs maxTs : U64) : Except ManifestError ClusteringKeyRange :=
  if tag = 0 then if minTs = 0 ∧ maxTs = 0 then .ok .unstamped else fail .rangeBounds
  else if tag = 1 then if minTs = 0 ∧ maxTs = 0 then .ok .empty else fail .rangeBounds
  else if tag = 2 then
    if maxTs.slt minTs then fail .clusteringRangeInverted else .ok (.bounded minTs maxTs)
  else fail .rangeTag

def clusteringRange : Cursor ClusteringKeyRange := do
  let tag ← u8
  reservedZeros 7 .rangeReserved
  let minTs ← u64
  let maxTs ← u64
  lift (rangeOf tag minTs maxTs)

def stampRanges : List SegmentMeta → Cursor (List SegmentMeta)
  | [] => pure []
  | segment::segments => do
    let range ← clusteringRange
    let rest ← stampRanges segments
    return { segment with clusteringKeyRange := range }::rest

def decodeClusteringRanges (segments : List SegmentMeta) : Cursor (List SegmentMeta) := do
  let magic ← take 4
  ensure (magic = rangeMagic) (.decode .rangeMagic)
  let count ← u32
  ensure (count.toNat = segments.length) (.decode .rangeCount)
  let left ← remaining
  ensure (count.toNat*24 ≤ left) (.decode .rangeBytes)
  stampRanges segments

/-- The extension is there when the bytes behind the schema start with its magic. -/
def clusteringRanges (segments : List SegmentMeta) : Cursor (List SegmentMeta) := fun bytes =>
  if rangeMagic.isPrefixOf bytes then decodeClusteringRanges segments bytes
  else .ok (segments,bytes)

/-- The checksum is over everything from the start of the section. -/
def graphSectionFrom (start : Bytes) : Cursor Bytes := do
  let magic ← take 4
  ensure (magic = graphMagic) (.decode .graphMagic)
  let length ← u32
  let body ← take length.toNat
  let behind ← get
  let checksum ← u64
  ensure (xxh3 (start.take (start.length-behind.length)) = checksum) (.decode .graphChecksum)
  return body

def graphSection : Cursor Bytes := fun bytes => graphSectionFrom xxh3 bytes bytes

def graphObject : Cursor GraphObject := do
  let artifact ← u128
  let artifact ← lift ((GraphStore.artifactId artifact).mapError .format)
  let length ← u64
  let checksum ← u64
  return ⟨artifact,length,checksum⟩

def generationBump : Cursor (U64 × U64) := do
  let sequence ← u64
  let count ← u64
  return (sequence,count)

def generationBumps : Cursor (List (U64 × U64)) := do
  let count ← u32
  let reserved ← u32
  let left ← remaining
  ensure (reserved = 0 ∧ count ≠ 0 ∧ count.toNat*16 = left) (.decode .generationBumpCount)
  repeated generationBump count.toNat

def bumpsBehind (tag : Bytes) : Cursor (List (U64 × U64)) :=
  if tag = generationBoundaryV2 then generationBumps else pure []

def generationExtension : Cursor (Option U64 × List (U64 × U64)) := do
  let tag ← take 8
  ensure (generationMagic.isPrefixOf tag) (.decode .graphObjectCount)
  ensure (tag = generationBoundaryV1 ∨ tag = generationBoundaryV2) (.decode .generationBoundary)
  let boundary ← u64
  let bumps ← bumpsBehind tag
  return (some boundary,bumps)

def generationRows : Cursor (Option U64 × List (U64 × U64)) := fun bytes =>
  if bytes.isEmpty then .ok ((none,[]),bytes) else generationExtension bytes

def extensionFits (extra : ℕ) : Bool :=
  extra = 0 ∨ extra = 16 ∨ 40 ≤ extra ∧ (extra-24) % 16 = 0

def graphBody : Cursor GraphManifest := do
  let presence ← u8
  ensure (presence = 1) (.decode .graphPresence)
  reservedZeros 7 .graphPresence
  let absorbed ← u64
  let state ← bytesField
  let count ← u32
  let left ← remaining
  ensure (count.toNat*32 ≤ left ∧ extensionFits (left-count.toNat*32))
    (.decode .graphObjectCount)
  let objects ← repeated graphObject count.toNat
  let generation ← generationRows
  finish
  return ⟨state,absorbed,generation.1,generation.2,objects⟩

def decodeGraph : Cursor GraphManifest := do
  let body ← graphSection xxh3
  let decoded ← lift (graphBody body)
  lift decoded.1.validate
  return decoded.1

def optionalGraph (version : U16) : Cursor (Option GraphManifest) :=
  if version = 3 then do
    let g ← decodeGraph xxh3
    return some g
  else pure none

def BuiltSchema.new (userColumns : List ColumnDefinition) : Except ManifestError BuiltSchema :=
  match h : Schema.new userColumns with
  | .ok schema => .ok ⟨schema,Schema.built_of_new h⟩
  | .error e => fail (.schema e)

def manifestPayload (version : U16) : Cursor Manifest := do
  let generation ← u64
  let logSeq ← u64
  let segmentCount ← u32
  let epochCount ← u32
  let schemaCount ← u32
  let reserved ← u32
  ensure (reserved = 0) (.decode .reserved)
  let epochAlias ← optionalIdentity
  let segments ← repeated segment segmentCount.toNat
  let epochs ← repeated epochMeta epochCount.toNat
  let definitions ← repeated columnDefinition schemaCount.toNat
  let segments ← clusteringRanges segments
  let graph ← optionalGraph xxh3 version
  finish
  let schema ← lift (BuiltSchema.new definitions)
  return ⟨graph,generation,logSeq,segments,epochs,epochAlias,schema⟩

def decodeManifest (bytes : Bytes) : Except ManifestError Manifest := do
  let framed ← (decodeArtifact xxh3 .manifest bytes).mapError .format
  if framed.header.flags ≠ 0 then fail .flags
  else
    let decoded ← manifestPayload xxh3 framed.header.version framed.payload
    validateEpochReferences xxh3 decoded.1
    return decoded.1

end Checksum

end Zeppelin.Manifest
