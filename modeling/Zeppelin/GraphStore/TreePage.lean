import Zeppelin.GraphStore.Artifact

/-! property_graph/storage/tree.rs -/

namespace Zeppelin.GraphStore
open Format
open GraphWal (BlockKind PhysicalRef maxGraphInputBytes)
open PropertyGraph (GraphGeneration)

def pageBytes : ℕ := 16*1024

inductive TreeKind where
  | nodes | relationships | keyFences | labels | relationshipTypes | outRanges | inRanges
  | objectInventory | sparseMembership | sparseSources
  deriving DecidableEq

def TreeKind.id : TreeKind → U16
  | .nodes => 1 | .relationships => 2 | .keyFences => 3 | .labels => 4 | .relationshipTypes => 5
  | .outRanges => 6 | .inRanges => 7 | .objectInventory => 8 | .sparseMembership => 9
  | .sparseSources => 10

inductive Key where
  | inline (bytes : Bytes)
  | overflow (logicalLength : U64) (reference : PhysicalRef)
  deriving DecidableEq

inductive Cell where
  | leaf (key : Key) (value : Bytes)
  | branch (upper : Option Key) (child : PhysicalRef)
  deriving DecidableEq

structure PageHeader where
  kind : TreeKind
  level : U16
  generation : GraphGeneration
  deriving DecidableEq

structure FramedPage where
  bytes : Bytes
  header : PageHeader
  deriving DecidableEq

def invalid : FormatError := failure .blockLength

def inlineWidth (length : ℕ) : TreeKind → Bool
  | .nodes | .relationships | .objectInventory | .sparseMembership => length = 16
  | .sparseSources => length = 32
  | .labels | .relationshipTypes => length = 24
  | .outRanges | .inRanges => length = 40
  | .keyFences => 9 ≤ length ∧ length ≤ maxGraphInputBytes

def validateInline (kind : TreeKind) (bytes : Bytes) : Except FormatError Unit :=
  if inlineWidth bytes.length kind then .ok () else .error invalid

def validateKey (kind : TreeKind) : Key → Except FormatError Unit
  | .inline bytes => validateInline kind bytes
  | .overflow logicalLength reference =>
    if kind ≠ .keyFences ∨ logicalLength.toNat < 9 ∨ maxGraphInputBytes < logicalLength.toNat ∨
        reference.kind ≠ .overflowKey then .error invalid
    else validateReference reference

def validateUpper (kind : TreeKind) : Option Key → Except FormatError Unit
  | none => .ok ()
  | some key => validateKey kind key

def validateCell (header : PageHeader) (cell : Cell) (last : Bool) : Except FormatError Unit :=
  match cell with
  | .leaf key _ => if header.level = 0 then validateKey header.kind key else .error invalid
  | .branch upper child =>
    if header.level = 0 then .error invalid
    else if upper.isNone ≠ last ∨ child.kind ≠ .treePage then .error invalid
    else do
      validateReference child
      validateUpper header.kind upper

def keyLen : Key → ℕ
  | .inline bytes => 12+bytes.length
  | .overflow _ _ => 44

def upperLen (upper : Option Key) : ℕ := upper.elim 0 keyLen

def cellLen : Cell → ℕ
  | .leaf key value => 8+keyLen key+value.length
  | .branch upper _ => 40+upperLen upper

def encodeKey : Key → Bytes
  | .inline bytes => toLe 1 (0 : U8)++(zeros 3++(toLe 8 (BitVec.ofNat 64 bytes.length)++bytes))
  | .overflow logicalLength reference =>
    toLe 1 (1 : U8)++(zeros 3++(toLe 8 logicalLength++referenceBytes reference))

def upperBytes (upper : Option Key) : Bytes := upper.elim [] encodeKey

def encodeCell : Cell → Bytes
  | .leaf key value => toLe 4 (BitVec.ofNat 32 (keyLen key))++
      (toLe 4 (BitVec.ofNat 32 value.length)++(encodeKey key++value))
  | .branch upper child => toLe 1 (if upper.isNone then 1 else 0 : U8)++(zeros 3++
      (toLe 4 (BitVec.ofNat 32 (upperLen upper))++(referenceBytes child++upperBytes upper)))

def validateCells (header : PageHeader) : List Cell → Except FormatError Unit
  | [] => .ok ()
  | cell::rest => do
    validateCell header cell rest.isEmpty
    validateCells header rest

def slotTable : ℕ → List Cell → Bytes
  | _,[] => []
  | offset,cell::rest => toLe 4 (BitVec.ofNat 32 offset)++
      (toLe 4 (BitVec.ofNat 32 (cellLen cell))++slotTable (offset+cellLen cell) rest)

def pageMagic : Bytes := [0x5A,0x47,0x54,0x50]

def pageFront (header : PageHeader) (count : ℕ) : Bytes :=
  pageMagic++(toLe 2 (1 : U16)++(toLe 2 header.kind.id++(toLe 4 (BitVec.ofNat 32 pageBytes)++
    (toLe 4 (BitVec.ofNat 32 count)++(toLe 2 header.level++(toLe 2 (0 : U16)++
      (toLe 4 (BitVec.ofNat 32 (count*8))++(toLe 8 header.generation++zeros 24))))))))

def extent (cells : List Cell) : ℕ := 64+cells.length*8+(cells.map cellLen).sum

def pageBody (cells : List Cell) : Bytes :=
  slotTable (64+cells.length*8) cells++(cells.flatMap encodeCell++
    zeros (pageBytes-extent cells))

section Checksum
variable (xxh3 : Bytes → U64)

def encodePage (header : PageHeader) (cells : List Cell) (output : Bytes) :
    Except FormatError Bytes :=
  if output.length ≠ pageBytes then .error invalid
  else do
    validateCells header cells
    if pageBytes < extent cells ∨ (0 < header.level.toNat ∧ cells = []) then .error invalid
    else return pageFront header cells.length++
      (toLe 8 (xxh3 (pageFront header cells.length++(zeros 8++pageBody cells)))++pageBody cells)

def reserved (bytes : Bytes) (start stop : ℕ) : Except FormatError Unit :=
  match slice? bytes start stop with
  | none => .error invalid
  | some part => if allZero part then .ok () else .error invalid

def parseKeyBody (tag : Option U8) (length : U64) (raw : Bytes) : Except FormatError Key :=
  if tag = some 0 then
    if raw.length ≠ length.toNat then .error invalid else .ok (.inline raw)
  else if tag = some 1 then do
    let reference ← decodeReference raw
    return .overflow length reference
  else .error invalid

def parseKey (kind : TreeKind) (bytes : Bytes) : Except FormatError Key := do
  reserved bytes 1 4
  let length ← readU64 bytes 4
  if maxGraphInputBytes < length.toNat then .error invalid
  else
    let key ← parseKeyBody bytes.head? length (bytes.drop 12)
    validateKey kind key
    return key

def parseUpper (kind : TreeKind) (tag : Option U8) (keyBytes : ℕ) (raw : Bytes) :
    Except FormatError (Option Key) :=
  if tag = some 0 then do
    let key ← parseKey kind raw
    return some key
  else if tag = some 1 ∧ keyBytes = 0 then .ok none
  else .error invalid

def parseCell (header : PageHeader) (bytes : Bytes) : Except FormatError Cell :=
  if header.level = 0 then do
    let keyBytes ← readU32 bytes 0
    let valueBytes ← readU32 bytes 4
    if 8+keyBytes.toNat+valueBytes.toNat ≠ bytes.length then .error invalid
    else
      let key ← parseKey header.kind ((bytes.drop 8).take keyBytes.toNat)
      return .leaf key (bytes.drop (8+keyBytes.toNat))
  else do
    reserved bytes 1 4
    let keyBytes ← readU32 bytes 4
    if 40+keyBytes.toNat ≠ bytes.length then .error invalid
    else
      let child ← decodeReference ((bytes.drop 8).take 32)
      let upper ← parseUpper header.kind bytes.head? keyBytes.toNat (bytes.drop 40)
      return .branch upper child

def slotAt (bytes : Bytes) (index : ℕ) : Except FormatError (ℕ × ℕ) := do
  let offset ← readU32 bytes (64+index*8)
  let length ← readU32 bytes (64+index*8+4)
  return (offset.toNat,length.toNat)

def FramedPage.cell (page : FramedPage) (index : ℕ) : Except FormatError Cell := do
  let count ← readU32 page.bytes 12
  if count.toNat ≤ index then .error invalid
  else
    let (offset,length) ← slotAt page.bytes index
    match slice? page.bytes offset (offset+length) with
    | none => .error invalid
    | some bytes => parseCell page.header bytes

def checkCells (page : FramedPage) (count : ℕ) : ℕ → ℕ → ℕ → Except FormatError ℕ
  | 0,_,next => .ok next
  | remaining+1,index,next => do
    let (offset,length) ← slotAt page.bytes index
    if offset ≠ next then .error invalid
    else if pageBytes < offset+length then .error invalid
    else
      let cell ← page.cell index
      validateCell page.header cell (index+1 = count)
      checkCells page count remaining (index+1) (offset+length)

def checkFront (expected : TreeKind) (bytes : Bytes) : Except FormatError Unit :=
  if bytes.length ≠ pageBytes ∨ bytes.take 4 ≠ pageMagic then .error invalid
  else do
    let version ← readU16 bytes 4
    if version ≠ 1 then .error (failure .version)
    else
      let kind ← readU16 bytes 6
      if kind ≠ expected.id then .error (failure .family)
      else
        let length ← readU32 bytes 8
        let flags ← readU16 bytes 18
        if length.toNat ≠ pageBytes ∨ flags ≠ 0 ∨ allZero ((bytes.drop 32).take 24) = false then
          .error invalid
        else
          let stored ← readU64 bytes 56
          let actual:=xxh3 (bytes.take 56++(zeros 8++bytes.drop 64))
          if stored ≠ actual then .error (checksumMismatch .blockChecksum stored actual)
          else .ok ()

def decodePage (expected : TreeKind) (bytes : Bytes) : Except FormatError FramedPage := do
  checkFront xxh3 expected bytes
  let count ← readU32 bytes 12
  let slots ← readU32 bytes 20
  if count.toNat*8 ≠ slots.toNat then .error invalid
  else
    let level ← readU16 bytes 16
    let generation ← readU64 bytes 24
    if pageBytes < 64+count.toNat*8 ∨ (0 < level.toNat ∧ count.toNat = 0) then .error invalid
    else
      let next ← checkCells ⟨bytes,⟨expected,level,generation⟩⟩ count.toNat count.toNat 0
        (64+count.toNat*8)
      if allZero (bytes.drop next) then return ⟨bytes,⟨expected,level,generation⟩⟩
      else .error invalid

end Checksum

def FramedPage.cells (page : FramedPage) : Except FormatError (List Cell) := do
  let count ← readU32 page.bytes 12
  (List.range count.toNat).mapM page.cell

end Zeppelin.GraphStore
