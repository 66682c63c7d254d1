import Zeppelin.Format.Block
import Zeppelin.Ingest.Document

/-! graph/block.rs -/

namespace Zeppelin.VectorGraph
open Format

def cacheLineBytes : ℕ := 128
def trailerLen : ℕ := 128
def nodeMetadataBytes : ℕ := 16
def unusedNeighborId : U32 := BitVec.allOnes 32

/-- `ZEGRNB01` in ASCII. -/
def nodeBlockMagic : Bytes := [0x5A,0x45,0x47,0x52,0x4E,0x42,0x30,0x31]

inductive LayoutDetail where
  | zeroDimensions | paddedBelowLogical | paddedNotAligned | strideExceedsU32 | nodeCountExceedsU32
  deriving DecidableEq

inductive HeaderDetail where
  | magic
  | version (version : U16)
  | refinementPasses (bits : U16)
  | degreePadding
  | checksum (expected actual : U64)
  | reserved
  | stride (stored : U32)
  | regionLength (actual expected : ℕ)
  deriving DecidableEq

inductive NodeDetail where
  | rangeUnavailable
  | blockBytes (actual : ℕ)
  | codeBytes (actual : ℕ)
  | nonFinite
  | lowNibble
  | codePadding
  | flags (flags : U8)
  | reserved
  | linePadding
  | degree (degree : ℕ)
  | outsideRows (slot : ℕ) (neighbor : U32)
  | owner (slot : ℕ)
  | repeated (slot : ℕ) (neighbor : U32)
  | unusedSlot (slot : ℕ) (neighbor : U32)
  deriving DecidableEq

inductive GraphNodeError where
  | truncated (minimum actual : ℕ)
  | invalidHeader (detail : HeaderDetail)
  | layout (detail : LayoutDetail)
  | nodeIdOutOfRange (nodeId nodeCount : U32)
  | invalidNode (nodeId : U32) (detail : NodeDetail)
  | arithmeticOverflow
  deriving DecidableEq

def roundUpCacheLine (value : ℕ) : ℕ :=
  (value+(cacheLineBytes-1)) / cacheLineBytes*cacheLineBytes

def codeBytesOf (paddedDims : U32) : ℕ := (paddedDims.toNat+1) / 2

def layoutStride (dims paddedDims : U32) (maxDegree : U8) : Except GraphNodeError U32 :=
  if dims = 0 then .error (.layout .zeroDimensions)
  else if paddedDims < dims then .error (.layout .paddedBelowLogical)
  else if paddedDims.toNat % cacheLineBytes ≠ 0 then .error (.layout .paddedNotAligned)
  else
    let stride:=roundUpCacheLine (codeBytesOf paddedDims+nodeMetadataBytes+maxDegree.toNat*4)
    if stride < 2^32 then .ok (BitVec.ofNat 32 stride) else .error (.layout .strideExceedsU32)

/-- Geometry is built by `new` only, so the stride is always the derived one. -/
structure GraphNodeLayout where
  dims : U32
  paddedDims : U32
  maxDegree : U8
  stride : U32
  formula : layoutStride dims paddedDims maxDegree = .ok stride
  deriving DecidableEq

namespace GraphNodeLayout

def new (dims paddedDims : U32) (maxDegree : U8) : Except GraphNodeError GraphNodeLayout :=
  match h : layoutStride dims paddedDims maxDegree with
  | .ok stride => .ok ⟨dims,paddedDims,maxDegree,stride,h⟩
  | .error e => .error e

def codeBytes (l : GraphNodeLayout) : ℕ := codeBytesOf l.paddedDims

def blockOffset (l : GraphNodeLayout) (nodeId : U32) : Except GraphNodeError ℕ :=
  if nodeId.toNat*l.stride.toNat < 2^32 then .ok (nodeId.toNat*l.stride.toNat)
  else .error .arithmeticOverflow

end GraphNodeLayout

/-- The record of refinements; unknown bits cannot be set. -/
structure RefinementPasses where
  bits : U16
  known : bits &&& ~~~31 = 0
  deriving DecidableEq

def RefinementPasses.fromBits (bits : U16) : Option RefinementPasses :=
  if h : bits &&& ~~~31 = 0 then some ⟨bits,h⟩ else none

/-- Bit patterns of `f32` fields. -/
structure Bit4Factors where
  scale : U32
  normalizedNorm : U32
  normalizedCorrection : U32
  deriving DecidableEq

def Bit4Factors.finite (f : Bit4Factors) : Bool :=
  Ingest.isFinite f.scale && Ingest.isFinite f.normalizedNorm &&
    Ingest.isFinite f.normalizedCorrection

def Bit4Factors.bytes (f : Bit4Factors) : Bytes :=
  toLe 4 f.scale++(toLe 4 f.normalizedNorm++toLe 4 f.normalizedCorrection)

structure GraphNodeBlockInput where
  codes : Bytes
  factors : Bit4Factors
  flags : U8
  neighbors : List U32
  deriving DecidableEq

structure GraphNodeBlockBuild where
  layout : GraphNodeLayout
  nodes : List GraphNodeBlockInput
  deriving DecidableEq

/-- `validate_code_padding`: nothing is set behind the logical dimensions. -/
def validateCodePadding (l : GraphNodeLayout) (nodeId : U32) (codes : Bytes) :
    Except GraphNodeError Unit :=
  let logicalBytes:=(l.dims.toNat+1) / 2
  if l.dims.toNat % 2 ≠ 0 ∧ (codes[logicalBytes-1]?.any fun byte => byte &&& 0x0f ≠ 0) then
    .error (.invalidNode nodeId .lowNibble)
  else if !allZero (codes.drop logicalBytes) then .error (.invalidNode nodeId .codePadding)
  else .ok ()

def checkNeighbors (nodeId nodeCount : U32) (before : List U32) :
    List U32 → Except GraphNodeError Unit
  | [] => .ok ()
  | neighbor::rest =>
    if nodeCount ≤ neighbor then .error (.invalidNode nodeId (.outsideRows before.length neighbor))
    else if neighbor = nodeId then .error (.invalidNode nodeId (.owner before.length))
    else if neighbor ∈ before then .error (.invalidNode nodeId (.repeated before.length neighbor))
    else checkNeighbors nodeId nodeCount (before++[neighbor]) rest

def neighborBytes (neighbors : List U32) : Bytes := neighbors.flatMap (toLe 4)

def nodeContent (l : GraphNodeLayout) (node : GraphNodeBlockInput) : Bytes :=
  node.codes++(node.factors.bytes++(toLe 1 (BitVec.ofNat 8 node.neighbors.length)++
    (toLe 1 node.flags++(toLe 2 (0 : U16)++(neighborBytes node.neighbors++
      neighborBytes (List.replicate (l.maxDegree.toNat-node.neighbors.length) unusedNeighborId))))))

def encodeNode (l : GraphNodeLayout) (nodeCount nodeId : U32) (node : GraphNodeBlockInput) :
    Except GraphNodeError Bytes :=
  if node.codes.length ≠ l.codeBytes then
    .error (.invalidNode nodeId (.codeBytes node.codes.length))
  else do
    validateCodePadding l nodeId node.codes
    if !node.factors.finite then .error (.invalidNode nodeId .nonFinite)
    else if node.flags &&& ~~~3 ≠ 0 then .error (.invalidNode nodeId (.flags node.flags))
    else if l.maxDegree.toNat < node.neighbors.length then
      .error (.invalidNode nodeId (.degree node.neighbors.length))
    else
      checkNeighbors nodeId nodeCount [] node.neighbors
      return nodeContent l node++zeros (l.stride.toNat-(nodeContent l node).length)

def encodeNodes (l : GraphNodeLayout) (nodeCount : U32) :
    ℕ → List GraphNodeBlockInput → Except GraphNodeError Bytes
  | _,[] => .ok []
  | position,node::nodes => do
    let block ← encodeNode l nodeCount (BitVec.ofNat 32 position) node
    let rest ← encodeNodes l nodeCount (position+1) nodes
    return block++rest

def trailerFields (l : GraphNodeLayout) (nodeCount : U32) (passes : RefinementPasses) : Bytes :=
  nodeBlockMagic++(toLe 2 (1 : U16)++(toLe 2 passes.bits++(toLe 4 l.dims++
    (toLe 4 l.paddedDims++(toLe 1 l.maxDegree++(zeros 3++(toLe 4 l.stride++
      toLe 4 nodeCount)))))))

structure EncodedNodeBlocks where
  bytes : Bytes
  layout : GraphNodeLayout
  nodeCount : U32
  deriving DecidableEq

section Checksum
variable (xxh3 : Bytes → U64)

def regionBytes (l : GraphNodeLayout) (nodeCount : U32) (passes : RefinementPasses)
    (blocks : Bytes) : Bytes :=
  blocks++(trailerFields l nodeCount passes++
    (toLe 8 (xxh3 (blocks++trailerFields l nodeCount passes))++zeros 88))

/-- The reservation refuses more than `isize::MAX` bytes. -/
def encodeNodeBlocks (build : GraphNodeBlockBuild) (passes : RefinementPasses) :
    Except GraphNodeError EncodedNodeBlocks :=
  if 2^32 ≤ build.nodes.length then .error (.layout .nodeCountExceedsU32)
  else if 2^63 ≤ build.layout.stride.toNat*build.nodes.length+trailerLen then
    .error .arithmeticOverflow
  else do
    let nodeCount : U32 := BitVec.ofNat 32 build.nodes.length
    let blocks ← encodeNodes build.layout nodeCount 0 build.nodes
    return ⟨regionBytes xxh3 build.layout nodeCount passes blocks,build.layout,nodeCount⟩

end Checksum

def read (w n : ℕ) (bytes : Bytes) (offset : ℕ) : Except GraphNodeError (BitVec w) :=
  (readField w n bytes offset).mapError fun _ => .truncated (offset+n) bytes.length

structure GraphNodeBlock where
  codes : Bytes
  factors : Bit4Factors
  degree : U8
  flags : U8
  reserved : U16
  neighbors : Bytes
  padding : Bytes
  deriving DecidableEq

def neighborIds : Bytes → List U32
  | a::b::c::d::rest => ofLe 32 [a,b,c,d]::neighborIds rest
  | _ => []

def GraphNodeBlock.neighborsPadded (block : GraphNodeBlock) : List U32 := neighborIds block.neighbors

def decodeBlockView (l : GraphNodeLayout) (nodeId : U32) (block : Bytes) :
    Except GraphNodeError GraphNodeBlock :=
  if block.length ≠ l.stride.toNat then .error (.invalidNode nodeId (.blockBytes block.length))
  else if block.length < l.codeBytes then .error (.truncated l.codeBytes block.length)
  else do
    let scale ← read 32 4 block l.codeBytes
    let norm ← read 32 4 block (l.codeBytes+4)
    let correction ← read 32 4 block (l.codeBytes+8)
    if !(Bit4Factors.mk scale norm correction).finite then .error (.invalidNode nodeId .nonFinite)
    else
      let degree ← read 8 1 block (l.codeBytes+12)
      let flags ← read 8 1 block (l.codeBytes+13)
      let reserved ← read 16 2 block (l.codeBytes+14)
      let neighborsStart:=l.codeBytes+nodeMetadataBytes
      let neighborsEnd:=neighborsStart+l.maxDegree.toNat*4
      if block.length < neighborsEnd then .error (.truncated neighborsEnd block.length)
      else return ⟨block.take l.codeBytes,⟨scale,norm,correction⟩,degree,flags,reserved,
        (block.drop neighborsStart).take (l.maxDegree.toNat*4),block.drop neighborsEnd⟩

def checkSlots (nodeId nodeCount : U32) (degree : ℕ) (before : List U32) :
    List U32 → Except GraphNodeError Unit
  | [] => .ok ()
  | neighbor::rest =>
    if before.length < degree then
      if nodeCount ≤ neighbor then .error (.invalidNode nodeId (.outsideRows before.length neighbor))
      else if neighbor = nodeId then .error (.invalidNode nodeId (.owner before.length))
      else if neighbor ∈ before then .error (.invalidNode nodeId (.repeated before.length neighbor))
      else checkSlots nodeId nodeCount degree (before++[neighbor]) rest
    else if neighbor ≠ unusedNeighborId then
      .error (.invalidNode nodeId (.unusedSlot before.length neighbor))
    else checkSlots nodeId nodeCount degree (before++[neighbor]) rest

def validateDecodedNode (l : GraphNodeLayout) (nodeId nodeCount : U32) (block : Bytes) :
    Except GraphNodeError Unit := do
  let view ← decodeBlockView l nodeId block
  validateCodePadding l nodeId view.codes
  if view.flags &&& ~~~3 ≠ 0 then .error (.invalidNode nodeId (.flags view.flags))
  else if view.reserved ≠ 0 then .error (.invalidNode nodeId .reserved)
  else if !allZero view.padding then .error (.invalidNode nodeId .linePadding)
  else if l.maxDegree.toNat < view.degree.toNat then
    .error (.invalidNode nodeId (.degree view.degree.toNat))
  else checkSlots nodeId nodeCount view.degree.toNat [] view.neighborsPadded

structure GraphNodeBlocks where
  bytes : Bytes
  layout : GraphNodeLayout
  nodeCount : U32
  blockBytes : ℕ
  refinementPasses : RefinementPasses
  deriving DecidableEq

def checkNodes (l : GraphNodeLayout) (nodeCount : U32) (bytes : Bytes) :
    ℕ → ℕ → Except GraphNodeError Unit
  | 0,_ => .ok ()
  | left+1,position => do
    let start ← l.blockOffset (BitVec.ofNat 32 position)
    match slice? bytes start (start+l.stride.toNat) with
    | none => .error (.truncated (start+l.stride.toNat) bytes.length)
    | some block =>
      validateDecodedNode l (BitVec.ofNat 32 position) nodeCount block
      checkNodes l nodeCount bytes left (position+1)

structure Trailer where
  passes : RefinementPasses
  dims : U32
  paddedDims : U32
  maxDegree : U8
  stride : U32
  nodeCount : U32
  checksum : U64
  deriving DecidableEq

def readPasses (trailer : Bytes) : Except GraphNodeError RefinementPasses := do
  let bits ← read 16 2 trailer 10
  match RefinementPasses.fromBits bits with
  | none => .error (.invalidHeader (.refinementPasses bits))
  | some passes => .ok passes

/-- The fields up to the checksum, in the order of their checks. -/
def readTrailer (trailer : Bytes) : Except GraphNodeError Trailer :=
  if trailer.take 8 ≠ nodeBlockMagic then .error (.invalidHeader .magic)
  else do
    let version ← read 16 2 trailer 8
    if version ≠ 1 then .error (.invalidHeader (.version version))
    else
      let passes ← readPasses trailer
      let dims ← read 32 4 trailer 12
      let paddedDims ← read 32 4 trailer 16
      let maxDegree ← read 8 1 trailer 20
      if !allZero ((trailer.drop 21).take 3) then .error (.invalidHeader .degreePadding)
      else
        let stride ← read 32 4 trailer 24
        let nodeCount ← read 32 4 trailer 28
        let checksum ← read 64 8 trailer 32
        return ⟨passes,dims,paddedDims,maxDegree,stride,nodeCount,checksum⟩

section Checksum
variable (xxh3 : Bytes → U64)

def decodeNodeBlocks (bytes : Bytes) : Except GraphNodeError GraphNodeBlocks :=
  if bytes.length < trailerLen then .error (.truncated trailerLen bytes.length)
  else do
    let trailerStart:=bytes.length-trailerLen
    let trailer ← readTrailer (bytes.drop trailerStart)
    let actual:=xxh3 (bytes.take (trailerStart+32))
    if actual ≠ trailer.checksum then .error (.invalidHeader (.checksum trailer.checksum actual))
    else if !allZero ((bytes.drop trailerStart).drop 40) then .error (.invalidHeader .reserved)
    else
      let layout ← GraphNodeLayout.new trailer.dims trailer.paddedDims trailer.maxDegree
      if trailer.stride ≠ layout.stride then .error (.invalidHeader (.stride trailer.stride))
      else
        let blockBytes:=layout.stride.toNat*trailer.nodeCount.toNat
        if trailerStart ≠ blockBytes then
          if bytes.length < blockBytes+trailerLen then
            .error (.truncated (blockBytes+trailerLen) bytes.length)
          else .error (.invalidHeader (.regionLength bytes.length (blockBytes+trailerLen)))
        else
          checkNodes layout trailer.nodeCount bytes trailer.nodeCount.toNat 0
          return ⟨bytes,layout,trailer.nodeCount,blockBytes,trailer.passes⟩

end Checksum

namespace GraphNodeBlocks

def checkedNodeId (g : GraphNodeBlocks) (nodeId : U32) : Except GraphNodeError ℕ :=
  if g.nodeCount ≤ nodeId then .error (.nodeIdOutOfRange nodeId g.nodeCount)
  else g.layout.blockOffset nodeId

def sliceNode (g : GraphNodeBlocks) (nodeId : U32) (start stop : ℕ) : Except GraphNodeError Bytes :=
  match slice? g.bytes start stop with
  | none => .error (.invalidNode nodeId .rangeUnavailable)
  | some bytes => .ok bytes

def block (g : GraphNodeBlocks) (nodeId : U32) : Except GraphNodeError GraphNodeBlock := do
  let offset ← g.checkedNodeId nodeId
  let bytes ← g.sliceNode nodeId offset (min (offset+g.layout.stride.toNat) g.blockBytes)
  decodeBlockView g.layout nodeId bytes

def scoreRow (g : GraphNodeBlocks) (nodeId : U32) : Except GraphNodeError (Bytes × Bit4Factors) := do
  let offset ← g.checkedNodeId nodeId
  let row ← g.sliceNode nodeId offset (offset+(g.layout.codeBytes+12))
  let factors:=row.drop g.layout.codeBytes
  return (row.take g.layout.codeBytes,
    ⟨ofLe 32 (factors.take 4),ofLe 32 ((factors.drop 4).take 4),ofLe 32 ((factors.drop 8).take 4)⟩)

def adjacency (g : GraphNodeBlocks) (nodeId : U32) : Except GraphNodeError (U8 × List U32) := do
  let offset ← g.checkedNodeId nodeId
  let start:=offset+(g.layout.codeBytes+12)
  let row ← g.sliceNode nodeId start (start+(g.layout.maxDegree.toNat*4+4))
  match row with
  | degree::_::_::_::slots => .ok (degree,neighborIds slots)
  | _ => .error (.invalidNode nodeId .rangeUnavailable)

end GraphNodeBlocks

def GraphNodeBlock.input (block : GraphNodeBlock) : GraphNodeBlockInput :=
  ⟨block.codes,block.factors,block.flags,block.neighborsPadded.take block.degree.toNat⟩

def GraphNodeBlocks.inputs (g : GraphNodeBlocks) : Except GraphNodeError (List GraphNodeBlockInput) :=
  (List.range g.nodeCount.toNat).mapM fun position =>
    GraphNodeBlock.input <$> g.block (BitVec.ofNat 32 position)

end Zeppelin.VectorGraph
