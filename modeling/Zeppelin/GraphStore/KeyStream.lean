import Zeppelin.GraphStore.TreePage

/-! tree/directory/keys.rs, fence_input.rs, storage/payload.rs -/

namespace Zeppelin.GraphStore.Keys
open Format
open GraphWal (BlockKind PhysicalRef StoreInstanceId maxGraphInputBytes)
open PropertyGraph (EntityKind GraphGeneration)

def chunkBytes : ℕ := 64*1024
def maxRecordBytes : ℕ := 32*1024*1024
def maxChunks : ℕ := maxRecordBytes / chunkBytes

inductive TreeError where
  | invalid (reason : String)
  | format (error : FormatError)
  | memory
  deriving DecidableEq

abbrev Read := Except TreeError

structure FramedBlock where
  identity : ArtifactIdentity
  reference : PhysicalRef
  payload : Bytes
  deriving DecidableEq

/-- `block` is what `resolve` and `with_block` give. -/
structure BlockSource where
  block : PhysicalRef → Read FramedBlock
  scopedBlocks : Bool

structure DirectoryRoot where
  kind : TreeKind
  store : StoreInstanceId
  generation : GraphGeneration
  deriving DecidableEq

def read (w n : ℕ) (bytes : Bytes) (offset : ℕ) : Read (BitVec w) :=
  match slice? bytes offset (offset+n) with
  | some field => .ok (ofLe w field)
  | none => .error (.invalid "truncated field")

def checkReference (reference : PhysicalRef) : Read Unit :=
  failIf (reference.version ≠ 1 ∨ reference.offset.toNat < headerBytes ∨
    reference.length.toNat < 24 ∨
      maxArtifactBytes < reference.offset.toNat+reference.length.toNat)
    (.invalid "payload physical reference")

def checkedResolvedBlock (block : FramedBlock) (reference : PhysicalRef) (store : StoreInstanceId)
    (generation : GraphGeneration) : Read FramedBlock := do
  checkReference reference
  failIf (block.reference ≠ reference ∨ block.identity.artifact ≠ reference.artifact ∨
    block.identity.store ≠ store ∨ generation < block.identity.generation)
    (.invalid "substituted/wrong-store/future payload")
  return block

def resolve (source : BlockSource) (reference : PhysicalRef) (store : StoreInstanceId)
    (generation : GraphGeneration) : Read FramedBlock := do
  checkReference reference
  let block ← source.block reference
  checkedResolvedBlock block reference store generation

def withBlock (source : BlockSource) (reference : PhysicalRef) (store : StoreInstanceId)
    (generation : GraphGeneration) : Read FramedBlock := do
  let block ← source.block reference
  checkedResolvedBlock block reference store generation

def chunkReference (bytes : Bytes) (index : ℕ) : Read PhysicalRef := do
  let start:=index*32+32
  let id ← read 128 16 bytes start
  if h : id = 0 then .error (.invalid "extent chunk identity/kind/version")
  else do
    let kind ← read 16 2 bytes (start+28)
    failIf (kind ≠ BlockKind.payloadChunk.id) (.invalid "extent chunk identity/kind/version")
    let version ← read 16 2 bytes (start+30)
    failIf (version ≠ 1) (.invalid "extent chunk identity/kind/version")
    let offset ← read 64 8 bytes (start+16)
    let length ← read 32 4 bytes (start+24)
    checkReference ⟨⟨id,h⟩,offset,length,.payloadChunk,1⟩
    return ⟨⟨id,h⟩,offset,length,.payloadChunk,1⟩

structure PayloadRef where
  role : BlockKind
  length : U64
  reference : PhysicalRef
  deriving DecidableEq

def payloadRole : BlockKind → Bool
  | .nodeRecord | .relRecord | .canonicalImage | .storedText | .storedVector | .overflowKey
  | .operationProvenance | .retrievalRows | .retrievalLexical | .retrievalLiveRows
  | .retrievalVectorIndex => true
  | _ => false

def roleLimit : BlockKind → ℕ
  | .nodeRecord | .relRecord | .retrievalRows | .retrievalLexical | .retrievalLiveRows
  | .retrievalVectorIndex => maxRecordBytes
  | _ => maxGraphInputBytes

/-- `PayloadRef::new` -/
def payloadRef (role : BlockKind) (length : U64) (reference : PhysicalRef) : Read PayloadRef := do
  failIf (payloadRole role = false ∨ roleLimit role < length.toNat ∨
    (role = .overflowKey ∧ (length.toNat < 9 ∨ reference.kind ≠ .overflowKey)) ∨
      (reference.kind ≠ role ∧ reference.kind ≠ .extentList))
    (.invalid "logical payload role or length")
  checkReference reference
  return ⟨role,length,reference⟩

def PayloadRef.indirect (payload : PayloadRef) : Bool :=
  payload.reference.kind = .extentList ∨ payload.role = .overflowKey

def checkChunkReferences (bytes : Bytes) : ℕ → ℕ → Read Unit
  | _,0 => .ok ()
  | index,left+1 => do
    let _ ← chunkReference bytes index
    checkChunkReferences bytes (index+1) left

def PayloadRef.checkRoot (payload : PayloadRef) (block : FramedBlock) : Read FramedBlock :=
  if payload.indirect then do
    let bytes:=block.payload
    failIf (payload.length = 0 ∨ bytes.length < 32 ∨ slice? bytes 0 4 ≠ some (utf8Bytes "ZGEX") ∨
      read 16 2 bytes 4 ≠ .ok 1 ∨ read 16 2 bytes 6 ≠ .ok payload.role.id ∨
        read 64 8 bytes 8 ≠ .ok payload.length ∨
          read 32 4 bytes 20 ≠ .ok (BitVec.ofNat 32 chunkBytes) ∨ read 64 8 bytes 24 ≠ .ok 0)
      (.invalid "extent header/role/length/version")
    let count ← read 32 4 bytes 16
    failIf (count.toNat ≠ (payload.length.toNat+(chunkBytes-1)) / chunkBytes ∨
      maxChunks < count.toNat ∨ bytes.length ≠ 32+count.toNat*32)
      (.invalid "extent count or descriptor length")
    checkChunkReferences bytes 0 count.toNat
    return block
  else do
    failIf (block.payload.length ≠ payload.length.toNat) (.invalid "direct logical payload length")
    return block

def PayloadRef.root (payload : PayloadRef) (source : BlockSource) (store : StoreInstanceId)
    (generation : GraphGeneration) : Read FramedBlock := do
  let block ← resolve source payload.reference store generation
  payload.checkRoot block

def PayloadRef.checkChunk (payload : PayloadRef) (index : ℕ) (bytes : Bytes) : Read Unit :=
  if payload.length.toNat < index*chunkBytes then
    .error (.invalid "chunk beyond logical end")
  else
    failIf (payload.length.toNat-index*chunkBytes = 0 ∨
      bytes.length ≠ min (payload.length.toNat-index*chunkBytes) chunkBytes)
      (.invalid "chunk payload length")

/-- `span_at_bounded` -/
def PayloadRef.spanAt (payload : PayloadRef) (source : BlockSource) (store : StoreInstanceId)
    (generation : GraphGeneration) (offset maximum : ℕ) : Read Bytes := do
  failIf (payload.length.toNat < offset) (.invalid "read beyond logical end")
  let root ← payload.root source store generation
  if offset = payload.length.toNat then return []
  else if payload.indirect then do
    let reference ← chunkReference root.payload (offset / chunkBytes)
    let chunk ← resolve source reference store root.identity.generation
    payload.checkChunk (offset / chunkBytes) chunk.payload
    return (chunk.payload.drop (offset % chunkBytes)).take (min chunkBytes maximum)
  else return (root.payload.drop offset).take (min chunkBytes maximum)

def PayloadRef.withSpanAt (payload : PayloadRef) (source : BlockSource) (store : StoreInstanceId)
    (generation : GraphGeneration) (offset maximum : ℕ) : Read Bytes := do
  failIf (payload.length.toNat < offset) (.invalid "read beyond logical end")
  let block ← withBlock source payload.reference store generation
  let root ← payload.checkRoot block
  if offset = payload.length.toNat then return []
  else if payload.indirect then do
    let reference ← chunkReference root.payload (offset / chunkBytes)
    let chunk ← withBlock source reference store root.identity.generation
    payload.checkChunk (offset / chunkBytes) chunk.payload
    return (chunk.payload.drop (offset % chunkBytes)).take (min chunkBytes maximum)
  else return (root.payload.drop offset).take (min chunkBytes maximum)

def length : Key → ℕ
  | .inline bytes => bytes.length
  | .overflow logicalLength _ => logicalLength.toNat

def span (source : BlockSource) (root : DirectoryRoot) (key : Key) (offset : ℕ) : Read Bytes :=
  match key with
  | .inline bytes => do
    failIf (bytes.length < offset) (.invalid "key read extent")
    return (bytes.drop offset).take chunkBytes
  | .overflow logicalLength reference => do
    let payload ← payloadRef .overflowKey logicalLength reference
    payload.spanAt source root.store root.generation offset chunkBytes

/-- `copy_scoped_span` into a buffer with room for `room` bytes: the bytes that it copies. -/
def copyScopedSpan (source : BlockSource) (root : DirectoryRoot) (key : Key) (offset room : ℕ) :
    Read Bytes :=
  match key with
  | .inline bytes => do
    failIf (bytes.length < offset) (.invalid "key read extent")
    return (bytes.drop offset).take (min room chunkBytes)
  | .overflow logicalLength reference => do
    let payload ← payloadRef .overflowKey logicalLength reference
    let bytes ← payload.withSpanAt source root.store root.generation offset room
    return bytes.take room

/-- The checks that both readers of a prefix make behind its nine bytes. -/
def kindAndSpace (bytes : Bytes) : Read (U8 × U64) := do
  let kind ← match bytes with
    | [] => .error (.invalid "missing key kind")
    | kind::_ => .ok kind
  match slice? bytes 1 9 with
  | none => .error (.invalid "missing namespace symbol")
  | some field => do
    failIf (¬ (1 ≤ kind ∧ kind ≤ 2) ∨ ofLe 64 field = 0) (.invalid "key kind or namespace")
    return (kind,ofLe 64 field)

/-- `prefix` -/
def spanPrefix (source : BlockSource) (root : DirectoryRoot) (key : Key) : Read (U8 × U64) := do
  let bytes ← span source root key 0
  kindAndSpace bytes

def scopedPrefix (source : BlockSource) (root : DirectoryRoot) (key : Key) :
    Read (U8 × U64) := do
  let bytes ← copyScopedSpan source root key 0 9
  failIf (bytes.length ≠ 9) (.invalid "missing key prefix")
  kindAndSpace bytes

def keyPrefix (source : BlockSource) (root : DirectoryRoot) (key : Key) : Read (U8 × U64) :=
  if source.scopedBlocks then scopedPrefix source root key else spanPrefix source root key

/-- `Utf8State`: continuation bytes that are left, and the range of the next one. -/
structure Utf8State where
  remaining : ℕ
  low : U8
  high : U8
  deriving DecidableEq

def Utf8State.start : Utf8State := ⟨0,0x80,0xBF⟩

def Utf8State.byte (state : Utf8State) (byte : U8) : Read Utf8State :=
  if state.remaining ≠ 0 then
    if byte < state.low ∨ state.high < byte then .error (.invalid "invalid UTF-8 continuation")
    else .ok ⟨state.remaining-1,0x80,0xBF⟩
  else if byte ≤ 0x7F then .ok state
  else if 0xC2 ≤ byte ∧ byte ≤ 0xDF then .ok { state with remaining := 1 }
  else if byte = 0xE0 then .ok { state with remaining := 2,low := 0xA0 }
  else if (0xE1 ≤ byte ∧ byte ≤ 0xEC) ∨ (0xEE ≤ byte ∧ byte ≤ 0xEF) then
    .ok { state with remaining := 2 }
  else if byte = 0xED then .ok { state with remaining := 2,high := 0x9F }
  else if byte = 0xF0 then .ok { state with remaining := 3,low := 0x90 }
  else if 0xF1 ≤ byte ∧ byte ≤ 0xF3 then .ok { state with remaining := 3 }
  else if byte = 0xF4 then .ok { state with remaining := 3,high := 0x8F }
  else .error (.invalid "invalid UTF-8 lead")

def Utf8State.feed (state : Utf8State) (bytes : Bytes) : Read Utf8State := do
  failIf (chunkBytes < bytes.length) (.invalid "UTF-8 span bound")
  bytes.foldlM Utf8State.byte state

def Utf8State.finish (state : Utf8State) : Read Unit :=
  failIf (state.remaining ≠ 0) (.invalid "truncated UTF-8")

def validateFenceKey (length : ℕ) (consume : ℕ → Read Bytes) (position : ℕ) (utf8 : Utf8State) :
    Read Unit :=
  if position < length then do
    let bytes ← consume position
    let next ← utf8.feed bytes
    if _ : bytes.length = 0 ∨ length-position < bytes.length then
      .error (.invalid "short key stream")
    else validateFenceKey length consume (position+bytes.length) next
  else do
    utf8.finish
    failIf (position ≠ length) (.invalid "key stream length")
  termination_by length-position

def validateKey (source : BlockSource) (root : DirectoryRoot) (key : Key) : Read Unit := do
  failIf (length key < 9 ∨ maxGraphInputBytes < length key) (.invalid "key logical length")
  let _ ← keyPrefix source root key
  if source.scopedBlocks then
    validateFenceKey (length key) (fun position => copyScopedSpan source root key position
      (min (length key-position) chunkBytes)) 9 .start
  else validateFenceKey (length key) (span source root key) 9 .start

def prefixOrder (left right : U8 × U64) : Ordering :=
  (compare left.1 right.1).then (compare left.2 right.2)

def compareFenceKey (leftLength rightLength : ℕ) (compareSpan : ℕ → ℕ → Read (ℕ × Ordering))
    (position : ℕ) : Read Ordering :=
  if position < min leftLength rightLength then do
    let (count,order) ← compareSpan position (min leftLength rightLength-position)
    if _ : count = 0 ∨ min leftLength rightLength-position < count then
      .error (.invalid "short comparator stream")
    else if order ≠ .eq then return order
    else compareFenceKey leftLength rightLength compareSpan (position+count)
  else return compare leftLength rightLength
  termination_by min leftLength rightLength-position

def scopedSpans (source : BlockSource) (root : DirectoryRoot) (left right : Key)
    (position maximum : ℕ) : Read (ℕ × Ordering) := do
  failIf (chunkBytes < maximum) .memory
  let a ← copyScopedSpan source root left position maximum
  let b ← copyScopedSpan source root right position maximum
  let count:=min (min a.length b.length) maximum
  return (count,compare (a.take count) (b.take count))

def borrowedSpans (source : BlockSource) (root : DirectoryRoot) (left right : Key)
    (position maximum : ℕ) : Read (ℕ × Ordering) := do
  let a ← span source root left position
  let b ← span source root right position
  let count:=min (min a.length b.length) maximum
  return (count,compare (a.take count) (b.take count))

def compareKeys (source : BlockSource) (root : DirectoryRoot) (left right : Key) :
    Read Ordering := do
  let leftPrefix ← keyPrefix source root left
  let rightPrefix ← keyPrefix source root right
  if prefixOrder leftPrefix rightPrefix ≠ .eq then return prefixOrder leftPrefix rightPrefix
  else if source.scopedBlocks then
    compareFenceKey (length left) (length right) (scopedSpans source root left right) 9
  else compareFenceKey (length left) (length right) (borrowedSpans source root left right) 9

structure FenceKey where
  kind : EntityKind
  keySpace : U64
  key : String
  nonzero : keySpace ≠ 0
  bound : key.utf8ByteSize+9 ≤ maxGraphInputBytes

def FenceKey.kindTag (probe : FenceKey) : U8 :=
  match probe.kind with
  | .node => 1
  | .relationship => 2

def FenceKey.text (probe : FenceKey) : Bytes := utf8Bytes probe.key

def FenceKey.bytes (probe : FenceKey) : Bytes :=
  probe.kindTag::(toLe 8 probe.keySpace++probe.text)

def compareText (source : BlockSource) (root : DirectoryRoot) (stored : Key) (text : Bytes)
    (storedLength position : ℕ) : Read Ordering :=
  if position < min storedLength text.length then do
    let bytes ← span source root stored (position+9)
    let width:=min bytes.length (min storedLength text.length-position)
    if _ : width = 0 then .error (.invalid "short fence key stream")
    else
      let order:=compare ((text.drop position).take width) (bytes.take width)
      if order ≠ .eq then return order
      else compareText source root stored text storedLength (position+width)
  else return compare text.length storedLength
  termination_by min storedLength text.length-position

def FenceKey.compareStored (probe : FenceKey) (source : BlockSource) (root : DirectoryRoot)
    (stored : Key) : Read Ordering := do
  let storedPrefix ← spanPrefix source root stored
  let order:=prefixOrder (probe.kindTag,probe.keySpace) storedPrefix
  if order ≠ .eq then return order
  else do
    failIf (length stored < 9) (.invalid "short fence key")
    compareText source root stored probe.text (length stored-9) 0

end Zeppelin.GraphStore.Keys
