import Zeppelin.Format.Block
import Zeppelin.GraphWal.Codec

/-! property_graph/storage/artifact.rs: Of an error the check is kept. -/

namespace Zeppelin.GraphStore
open Format
open GraphWal (ArtifactId BlockKind PhysicalRef)

def headerBytes : ℕ := 96
def maxArtifactBytes : ℕ := 4*1024*1024

def failure (check : FormatCheck) : FormatError := ⟨check,.none,none⟩

def checksumMismatch (check : FormatCheck) (expected actual : U64) : FormatError :=
  ⟨check,.checksum expected actual,none⟩

def readU128 (bytes : Bytes) (offset : ℕ) : Except FormatError U128 := readField 128 16 bytes offset

def artifactId (value : U128) : Except FormatError ArtifactId :=
  if h : value = 0 then .error (failure .objectIdentity) else .ok ⟨value,h⟩

def blockKind (value : U16) : Except FormatError BlockKind :=
  if value = 1 then .ok .treePage
  else if value = 2 then .ok .nodeRecord
  else if value = 3 then .ok .relRecord
  else if value = 4 then .ok .canonicalImage
  else if value = 5 then .ok .storedText
  else if value = 6 then .ok .storedVector
  else if value = 7 then .ok .overflowKey
  else if value = 8 then .ok .extentList
  else if value = 9 then .ok .checkpointPayload
  else if value = 10 then .ok .commitParticipant
  else if value = 11 then .ok .payloadChunk
  else if value = 12 then .ok .operationProvenance
  else if value = 13 then .ok .adjacencyBase
  else if value = 14 then .ok .adjacencyDelta
  else if value = 15 then .ok .retrievalRows
  else if value = 16 then .ok .retrievalLexical
  else if value = 17 then .ok .retrievalLiveRows
  else if value = 18 then .ok .retrievalVectorIndex
  else .error (failure .family)

def validateReference (v : PhysicalRef) : Except FormatError Unit :=
  if v.version ≠ 1 then .error (failure .version)
  else if v.length.toNat < 24 ∨ v.offset.toNat < headerBytes ∨
      maxArtifactBytes < v.offset.toNat+v.length.toNat then .error (failure .blockLength)
  else .ok ()

def referenceBytes (v : PhysicalRef) : Bytes :=
  toLe 16 v.artifact.get++(toLe 8 v.offset++(toLe 4 v.length++(toLe 2 v.kind.id++
    toLe 2 v.version)))

def encodeReference (v : PhysicalRef) : Except FormatError Bytes := do
  validateReference v
  return referenceBytes v

def decodeReference (bytes : Bytes) : Except FormatError PhysicalRef :=
  if bytes.length ≠ 32 then .error (failure .length)
  else do
    let artifact ← readU128 bytes 0
    let artifact ← artifactId artifact
    let offset ← readU64 bytes 16
    let length ← readU32 bytes 24
    let kind ← readU16 bytes 28
    let kind ← blockKind kind
    let version ← readU16 bytes 30
    validateReference ⟨artifact,offset,length,kind,version⟩
    return ⟨artifact,offset,length,kind,version⟩

theorem artifactId_get (v : ArtifactId) : artifactId v.get = .ok v := dif_neg v.nonzero

theorem artifactId_ok {value : U128} {v : ArtifactId} (h : artifactId value = .ok v) :
    v.get = value := by
  unfold artifactId at h
  split_ifs at h
  rw [← Except.ok.inj h]

theorem blockKind_id (kind : BlockKind) : blockKind kind.id = .ok kind := by
  cases kind <;> rfl

theorem blockKind_ok {value : U16} {kind : BlockKind} (h : blockKind value = .ok kind) :
    kind.id = value := by
  unfold blockKind at h
  iterate 18
    obtain ⟨rfl,rfl⟩ | h := ite_eq_ok h
    · rfl
  cases h

@[simp] theorem referenceBytes_length (v : PhysicalRef) : (referenceBytes v).length = 32 := by
  simp [referenceBytes]

section Words
variable {bytes : Bytes} {a : ℕ} {v : U128}

theorem readU128_of_drop {y : Bytes}
    (h : bytes.drop a = toLe 16 v++y) : readU128 bytes a = .ok v :=
  readField_of_drop rfl (by decide) h

theorem drop_of_readU128 (h : readU128 bytes a = .ok v) :
    bytes.drop a = toLe 16 v++bytes.drop (a+16) := (drop_of_readField (n := 16) rfl h).1

theorem decodeReference_bytes {v : PhysicalRef} (h : validateReference v = .ok ()) :
    decodeReference (referenceBytes v) = .ok v := by
  have h0 : (referenceBytes v).drop 0 = _ := rfl
  have h16:=drop_behind h0 (toLe_length 16 _)
  have h24:=drop_behind h16 (toLe_length 8 _)
  have h28:=drop_behind h24 (toLe_length 4 _)
  have h30:=drop_behind h28 (toLe_length 2 _)
  rw [← List.append_nil (toLe 2 v.version)] at h30
  rw [decodeReference,if_neg (by simp),readU128_of_drop h0,ok_bind,artifactId_get,ok_bind,
    readU64_of_drop h16,ok_bind,readU32_of_drop h24,ok_bind,readU16_of_drop h28,ok_bind,
    blockKind_id,ok_bind,readU16_of_drop h30,ok_bind,h]
  rfl

theorem decodeReference_ok {v : PhysicalRef} (h : decodeReference bytes = .ok v) :
    validateReference v = .ok () ∧ bytes = referenceBytes v := by
  unfold decodeReference at h
  split_ifs at h with hlength
  obtain ⟨artifact,hartifact,h⟩ := bind_eq_ok h
  obtain ⟨id,hid,h⟩ := bind_eq_ok h
  obtain ⟨offset,hoffset,h⟩ := bind_eq_ok h
  obtain ⟨length,hlen,h⟩ := bind_eq_ok h
  obtain ⟨tag,htag,h⟩ := bind_eq_ok h
  obtain ⟨kind,hkind,h⟩ := bind_eq_ok h
  obtain ⟨version,hversion,h⟩ := bind_eq_ok h
  obtain ⟨⟨⟩,hvalid,rfl⟩ := bind_pure_eq_ok h
  refine ⟨hvalid,?_⟩
  have hnil : bytes.drop 32 = [] := List.drop_eq_nil_of_le (by omega)
  calc bytes = bytes.drop 0 := rfl
    _ = _ := by
      rw [drop_of_readU128 hartifact,drop_of_readU64 hoffset,drop_of_readU32 hlen,
        drop_of_readU16 htag,drop_of_readU16 hversion,hnil,List.append_nil,referenceBytes,
        artifactId_ok hid,blockKind_ok hkind]

end Words

open GraphWal (StoreInstanceId)
open PropertyGraph (GraphGeneration)

def maxBodyBytes : ℕ := maxArtifactBytes-headerBytes-8

inductive ContainerKind where
  | object
  | rootEnvelope
  deriving DecidableEq

def ContainerKind.family : ContainerKind → FormatFamily
  | .object => .nativeGraphObject
  | .rootEnvelope => .nativeGraphRoot

structure ArtifactIdentity where
  store : StoreInstanceId
  artifact : ArtifactId
  generation : GraphGeneration
  creationSerial : U64
  deriving DecidableEq

structure Block where
  kind : BlockKind
  payload : Bytes
  deriving DecidableEq

structure ArtifactFrame where
  bytes : Bytes
  identity : ArtifactIdentity
  kind : ContainerKind
  directory : ℕ
  count : ℕ
  fileChecksum : U64
  deriving DecidableEq

def blockLen (block : Block) : ℕ := 24+block.payload.length

def admitsBlock (kind : ContainerKind) (block : Block) : Except FormatError Unit :=
  if kind = .rootEnvelope ∧ (block.kind ≠ .checkpointPayload ∨ block.payload = []) then
    .error (failure .blockLength)
  else if kind = .object ∧ block.kind = .checkpointPayload then .error (failure .family)
  else .ok ()

def bodyLen (kind : ContainerKind) (limit : ℕ) : ℕ → List Block → Except FormatError ℕ
  | body,[] => .ok body
  | body,block::rest => do
    admitsBlock kind block
    if limit < body+blockLen block then .error (failure .blockLength)
    else bodyLen kind limit (body+blockLen block) rest

def encodedLen (kind : ContainerKind) (blocks : List Block) : Except FormatError ℕ :=
  if kind = .rootEnvelope ∧ blocks.length ≠ 1 then .error (failure .blockLength)
  else if maxBodyBytes / 48 < blocks.length then .error (failure .blockLength)
  else do
    let body ← bodyLen kind (maxBodyBytes-blocks.length*24) 0 blocks
    return headerBytes+body+(blocks.length*24+8)

def encodeArtifactHeader (kind : ContainerKind) (identity : ArtifactIdentity)
    (length body count : ℕ) : Bytes :=
  encodeHeader ⟨fileMagic,kind.family.id,1,0,BitVec.ofNat 64 headerBytes,
      BitVec.ofNat 64 length⟩++
    (toLe 16 identity.store.get++(toLe 16 identity.artifact.get++(toLe 8 identity.generation++
      (toLe 8 (BitVec.ofNat 64 body)++(toLe 4 (BitVec.ofNat 32 count)++(toLe 4 (0 : U32)++
        toLe 8 identity.creationSerial))))))

section Checksum
variable (xxh3 : Bytes → U64)

def blockBytes (block : Block) : Bytes :=
  toLe 2 block.kind.id++(toLe 2 (1 : U16)++(toLe 4 (0 : U32)++
    (toLe 8 (BitVec.ofNat 64 block.payload.length)++(toLe 8 (xxh3 block.payload)++
      block.payload))))

/-- The entries of blocks that start at `offset`. -/
def directoryTable : ℕ → List Block → Bytes
  | _,[] => []
  | offset,block::rest => toLe 8 (BitVec.ofNat 64 offset)++
      (toLe 4 (BitVec.ofNat 32 (blockLen block))++(toLe 2 block.kind.id++(toLe 2 (1 : U16)++
        (toLe 8 (xxh3 block.payload)++directoryTable (offset+blockLen block) rest))))

def artifactFront (kind : ContainerKind) (identity : ArtifactIdentity) (blocks : List Block)
    (length : ℕ) : Bytes :=
  encodeArtifactHeader kind identity length (length-headerBytes-blocks.length*24-8)
      blocks.length++
    (blocks.flatMap (blockBytes xxh3)++directoryTable xxh3 headerBytes blocks)

def encodeInto (kind : ContainerKind) (identity : ArtifactIdentity) (blocks : List Block)
    (output : Bytes) : Except FormatError (ℕ × Bytes) := do
  let length ← encodedLen kind blocks
  if output.length < length then .error (failure .length)
  else return (length,artifactFront xxh3 kind identity blocks length++
    (toLe 8 (xxh3 (artifactFront xxh3 kind identity blocks length))++output.drop length))

def checksum (check : FormatCheck) (expected actual : U64) : Except FormatError Unit :=
  if expected = actual then .ok () else .error (checksumMismatch check expected actual)

def storeInstanceId (value : U128) : Except FormatError StoreInstanceId :=
  if h : value = 0 then .error (failure .objectIdentity) else .ok ⟨value,h⟩

def ArtifactFrame.reference (frame : ArtifactFrame) (index : ℕ) : Except FormatError PhysicalRef :=
  if frame.count ≤ index then .error (failure .blockLength)
  else do
    let offset ← readU64 frame.bytes (frame.directory+index*24)
    let length ← readU32 frame.bytes (frame.directory+index*24+8)
    let kind ← readU16 frame.bytes (frame.directory+index*24+12)
    let kind ← blockKind kind
    let version ← readU16 frame.bytes (frame.directory+index*24+14)
    return ⟨frame.identity.artifact,offset,length,kind,version⟩

def ArtifactFrame.payloadAt (frame : ArtifactFrame) (v : PhysicalRef) : Except FormatError Bytes :=
  match slice? frame.bytes (v.offset.toNat+24) (v.offset.toNat+v.length.toNat) with
  | none => .error (failure .blockLength)
  | some payload => .ok payload

def ArtifactFrame.search (frame : ArtifactFrame) (v : PhysicalRef) (low high : ℕ) :
    Except FormatError Bytes :=
  if low < high then do
    let candidate ← frame.reference (low+(high-low) / 2)
    if candidate.offset < v.offset then frame.search v (low+(high-low) / 2+1) high
    else if v.offset < candidate.offset then frame.search v low (low+(high-low) / 2)
    else if candidate = v then frame.payloadAt v
    else .error (failure .blockLength)
  else .error (failure .blockLength)
termination_by high-low

def ArtifactFrame.resolveFramedBlock (frame : ArtifactFrame) (v : PhysicalRef) :
    Except FormatError Bytes := do
  validateReference v
  if v.artifact ≠ frame.identity.artifact then .error (failure .objectIdentity)
  else frame.search v 0 frame.count

def validateBlock (bytes : Bytes) (v : PhysicalRef) (expected : U64) : Except FormatError Bytes := do
  validateReference v
  let kind ← readU16 bytes v.offset.toNat
  let version ← readU16 bytes (v.offset.toNat+2)
  if kind ≠ v.kind.id ∨ version ≠ v.version then .error (failure .family)
  else
    let flags ← readU32 bytes (v.offset.toNat+4)
    let length ← readU64 bytes (v.offset.toNat+8)
    if flags ≠ 0 ∨ 24+length.toNat ≠ v.length.toNat then .error (failure .blockLength)
    else
      match slice? bytes (v.offset.toNat+24) (v.offset.toNat+v.length.toNat) with
      | none => .error (failure .length)
      | some payload =>
        let stored ← readU64 bytes (v.offset.toNat+16)
        checksum .blockChecksum expected stored
        checksum .blockChecksum stored (xxh3 payload)
        return payload

def checkBlocks (frame : ArtifactFrame) : ℕ → ℕ → ℕ → Except FormatError ℕ
  | 0,_,next => .ok next
  | remaining+1,index,next => do
    let v ← frame.reference index
    validateReference v
    if v.offset.toNat ≠ next ∨ frame.directory < v.offset.toNat+v.length.toNat then
      .error (failure .blockLength)
    else
      let entry ← readU64 frame.bytes (frame.directory+index*24+16)
      let payload ← validateBlock xxh3 frame.bytes v entry
      if (frame.kind = .rootEnvelope ∧
            (frame.count ≠ 1 ∨ v.kind ≠ .checkpointPayload ∨ payload = [])) ∨
          (frame.kind = .object ∧ v.kind = .checkpointPayload) then .error (failure .family)
      else checkBlocks frame remaining (index+1) (v.offset.toNat+v.length.toNat)

/-- The header, the extents it declares and the checksum of the file. -/
def readFrame (kind : ContainerKind) (expected : Option (StoreInstanceId × ArtifactId))
    (bytes : Bytes) : Except FormatError ArtifactFrame := do
  let header ← decodeHeader kind.family bytes
  if header.flags ≠ 0 ∨ header.headerLength.toNat ≠ headerBytes then .error (failure .headerLength)
  else if maxArtifactBytes < bytes.length ∨ bytes.length < headerBytes+8 ∨
      header.fileLength.toNat ≠ bytes.length then .error (failure .fileLength)
  else
    let stored ← readU64 bytes (bytes.length-8)
    checksum .fileChecksum stored (xxh3 (bytes.take (bytes.length-8)))
    let store ← readU128 bytes 32
    let store ← storeInstanceId store
    let artifact ← readU128 bytes 48
    let artifact ← artifactId artifact
    if expected.any (fun v => v ≠ (store,artifact)) then .error (failure .objectIdentity)
    else
      let body ← readU64 bytes 72
      let count ← readU32 bytes 80
      let flags ← readU32 bytes 84
      if maxBodyBytes < body.toNat ∨ body.toNat / 24 < count.toNat ∨ flags ≠ 0 then
        .error (failure .blockLength)
      else if headerBytes+body.toNat+count.toNat*24 ≠ bytes.length-8 then
        .error (failure .blockLength)
      else
        let generation ← readU64 bytes 64
        let serial ← readU64 bytes 88
        return ⟨bytes,⟨store,artifact,generation,serial⟩,kind,headerBytes+body.toNat,
          count.toNat,stored⟩

def decode (kind : ContainerKind) (expected : Option (StoreInstanceId × ArtifactId))
    (bytes : Bytes) : Except FormatError ArtifactFrame := do
  let frame ← readFrame xxh3 kind expected bytes
  let next ← checkBlocks xxh3 frame frame.count 0 headerBytes
  if next ≠ frame.directory ∨ (kind = .rootEnvelope ∧ frame.count = 0) then
    .error (failure .blockLength)
  else return frame

end Checksum

def ArtifactFrame.block (frame : ArtifactFrame) (index : ℕ) : Except FormatError Block := do
  let v ← frame.reference index
  let payload ← frame.resolveFramedBlock v
  return ⟨v.kind,payload⟩

def ArtifactFrame.blocks (frame : ArtifactFrame) : Except FormatError (List Block) :=
  (List.range frame.count).mapM frame.block

end Zeppelin.GraphStore
