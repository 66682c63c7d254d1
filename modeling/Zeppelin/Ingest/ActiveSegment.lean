import Zeppelin.Collections.PackedRows
import Zeppelin.Fts.SealedSegment
import Zeppelin.Ingest.AtomicBatch

/-! ingest/active.rs -/

namespace Zeppelin.Ingest
open Wal Fts

/-- The `IngestError` variants of the document path. -/
inductive IngestError where
  | store (error : StoreError)
  | emptyBatch
  | staleRevision (docId : DocId) (current attempted : Revision)
  | revisionConflict (index : ℕ) (docId : DocId) (expected : ExpectedRevision)
      (current : Option Revision)
  | vector (error : QuantError)
  | lexical (error : IndexError)
  | columns (detail : String)
  | payload (error : PayloadError)
  deriving DecidableEq

def require (holds : Prop) [Decidable holds] (error : StoreError) : Except IngestError Unit :=
  if holds then .ok () else .error (.store error)

def orOverflow {α : Type} : Option α → Except IngestError α
  | none => .error (.store .activeRowOverflow)
  | some a => .ok a

abbrev ActiveRows := List (DocId × ℕ)

def ActiveRows.insert (rows : ActiveRows) (docId : DocId) (row : ℕ) : ActiveRows :=
  if (rows.lookup docId).isSome then rows else rows++[(docId,row)]

def ActiveRows.copy (docIds : List DocId) : ActiveRows :=
  docIds.zipIdx.foldl (fun rows entry => rows.insert entry.1 entry.2) []

structure ActiveSegment where
  dims : Option ℕ
  docIds : List DocId
  rowIndex : ActiveRows
  revisions : List Revision
  sequences : List LogSeq
  timestamps : List U64
  metadata : PackedRows U8
  textPresent : List U8
  texts : PackedRows U8
  columns : PackedRows U8
  lexical : SegmentIndex
  vectors : List U32
  codes : Bytes
  factors : List Bit4Factors
  tombstones : List U32
  deriving DecidableEq

namespace ActiveSegment

def empty : ActiveSegment where
  dims := none
  docIds := []
  rowIndex := []
  revisions := []
  sequences := []
  timestamps := []
  metadata := .empty
  textPresent := []
  texts := .empty
  columns := .empty
  lexical := .new
  vectors := []
  codes := []
  factors := []
  tombstones := []

def rowCount (s : ActiveSegment) : ℕ := s.docIds.length

def tracksText (s : ActiveSegment) : Bool := !s.textPresent.isEmpty

def tracksColumns (s : ActiveSegment) : Bool := !s.columns.endOffsets.isEmpty

def document (s : ActiveSegment) (row : ℕ) : Option DocumentVersion := do
  let docId ← s.docIds[row]?
  let revision ← s.revisions[row]?
  return ⟨docId,revision⟩

def existing (s : ActiveSegment) (docId : DocId) : Option (ℕ × DocumentVersion × LogSeq) := do
  let row ← s.rowIndex.lookup docId
  let version ← s.document row
  let seq ← s.sequences[row]?
  return (row,version,seq)

def isTombstoned (s : ActiveSegment) (row : ℕ) : Bool :=
  row < 2^32 && s.tombstones.contains (BitVec.ofNat 32 row)

def text (s : ActiveSegment) (row : ℕ) : Except StoreError (Option String) :=
  if s.rowCount ≤ row then .error .activeRowOverflow
  else if !s.tracksText then .ok none
  else match s.textPresent[row]?,s.texts.rowItems row with
    | some present,some bytes =>
      if present > 1 then .error .activeRowOverflow
      else if present = 0 then .ok none
      else match fromUtf8 bytes with
        | some text => .ok (some text)
        | none => .error .activeRowOverflow
    | _,_ => .error .activeRowOverflow

def previousText (s : ActiveSegment) (row : ℕ) : Except StoreError (Option String) :=
  if s.tracksText then s.text row else .ok none

/-- The columns of every document must encode once any row has columns. -/
def encodeAll : List IngestDocument → Except IngestError Unit
  | [] => .ok ()
  | d::ds => do
    let _ ← Except.mapError .payload (encodeColumnValues d.columns)
    encodeAll ds

/-- `working_capacities`, as far as it can refuse a batch. -/
def checkBatch (s : ActiveSegment) (first : IngestDocument) (remaining : List IngestDocument) :
    Except IngestError Unit :=
  let dims:=s.dims.getD first.vector.length
  if dims = 0 then .error (.vector .emptyVector)
  else if first.vector.length ≠ dims then
    .error (.store (.dimensionMismatch dims first.vector.length))
  else if s.tracksColumns || remaining.any fun d => d.columns?.isSome then encodeAll remaining
  else .ok ()

def copyForBatch (s : ActiveSegment) (first : IngestDocument) (remaining : List IngestDocument) :
    Except IngestError ActiveSegment := do
  s.checkBatch first remaining
  return { s with rowIndex := .copy s.docIds }

def flag (present : Bool) : U8 := if present then 1 else 0

def textBytes (text : Option String) : Bytes := (text.map utf8Bytes).getD []

def padText (s : ActiveSegment) (rows : ℕ) : List U8 × PackedRows U8 :=
  if s.tracksText then (s.textPresent,s.texts)
  else (s.textPresent++List.replicate rows 0,
    ⟨s.texts.endOffsets++List.replicate rows 0,s.texts.items⟩)

def appendText (s : ActiveSegment) (previousRows : ℕ) (text : Option String) :
    List U8 × PackedRows U8 :=
  if !s.tracksText && text.isNone then (s.textPresent,s.texts)
  else
    let padded:=s.padText previousRows
    (padded.1++[flag text.isSome],padded.2.push (textBytes text))

def replaceText (s : ActiveSegment) (row : ℕ) (replacement : Option String) :
    Except IngestError (List U8 × PackedRows U8) :=
  if s.rowCount ≤ row then .error (.store .activeRowOverflow)
  else if !s.tracksText && replacement.isNone then .ok (s.textPresent,s.texts)
  else do
    let padded:=s.padText s.rowCount
    let texts ← orOverflow (padded.2.replaceRow row (textBytes replacement))
    require (row < padded.1.length) .activeRowOverflow
    return (padded.1.set row (flag replacement.isSome),texts)

def padColumns (s : ActiveSegment) (rows : ℕ) : Except IngestError (PackedRows U8) :=
  if s.tracksColumns then .ok s.columns
  else do
    let empty ← Except.mapError .payload (encodeColumnValues [])
    return (List.replicate rows empty).foldl PackedRows.push s.columns

def appendColumns (s : ActiveSegment) (previousRows : ℕ) (present : Bool)
    (columns : List (ColumnId × PredicateValue)) : Except IngestError (PackedRows U8) :=
  if !s.tracksColumns && !present then .ok s.columns
  else do
    let encoded ← Except.mapError .payload (encodeColumnValues columns)
    let packed ← s.padColumns previousRows
    return packed.push encoded

def replaceColumns (s : ActiveSegment) (row : ℕ) (present : Bool)
    (columns : List (ColumnId × PredicateValue)) : Except IngestError (PackedRows U8) :=
  if s.rowCount ≤ row then .error (.store .activeRowOverflow)
  else if !s.tracksColumns && !present then .ok s.columns
  else do
    let replacement ← Except.mapError .payload (encodeColumnValues columns)
    let packed ← s.padColumns s.rowCount
    orOverflow (packed.replaceRow row replacement)

def appendedRow (s : ActiveSegment) (d : IngestDocument) : Except IngestError ℕ :=
  if s.dims.any fun expected => expected ≠ d.vector.length then
    .error (.store (.dimensionMismatch (s.dims.getD 0) d.vector.length))
  else if d.vector.length = 0 then .error (.vector .emptyVector)
  else if s.docIds.length < 2^32 then .ok s.docIds.length
  else .error (.store .activeRowOverflow)

/-- `dims.div_ceil(2)`. -/
def rowStride (dims : ℕ) : ℕ := (dims+1) / 2

def refuseExisting (s : ActiveSegment) (d : IngestDocument) : Except IngestError Unit :=
  if (s.existing d.version.docId).isSome then
    .error (.store (.synchronization "revision handling not yet admitted"))
  else .ok ()

/-- The row index after `row` took another id. -/
def reindexRow (s : ActiveSegment) (row : ℕ) (newId : DocId) : Except IngestError ActiveRows := do
  let oldId ← orOverflow s.docIds[row]?
  if oldId = newId then return s.rowIndex
  else if (s.rowIndex.lookup newId).isSome then
    throw (.store (.synchronization "replacement id already exists"))
  else return ActiveRows.insert (s.rowIndex.filter fun entry => entry.1 ≠ oldId) newId row

def setSequence (s : ActiveSegment) (row : ℕ) (seq : LogSeq) : Except StoreError ActiveSegment :=
  if row < s.sequences.length then .ok { s with sequences := s.sequences.set row seq }
  else .error .activeRowOverflow

section Quantizer
variable (quantizeBit4 : List U32 → Bytes → Except QuantError (Bytes × Bit4Factors))

def insertRowInPlace (s : ActiveSegment) (d : IngestDocument) :
    Except IngestError (ActiveSegment × ℕ) := do
  let row ← s.appendedRow d
  let stride:=rowStride d.vector.length
  let text:=s.appendText row d.text
  let columns ← s.appendColumns row d.columns?.isSome d.columns
  let codes:=s.codes++List.replicate stride 0
  require (row*stride ≤ codes.length) .activeRowOverflow
  let (encoded,factor) ← Except.mapError .vector (quantizeBit4 d.vector (codes.drop (row*stride)))
  return ({ s with
    dims := some d.vector.length
    docIds := s.docIds++[d.version.docId]
    rowIndex := s.rowIndex.insert d.version.docId row
    revisions := s.revisions++[d.version.revision]
    sequences := s.sequences++[0]
    timestamps := s.timestamps++[d.timestamp]
    metadata := s.metadata.push d.metadata
    textPresent := text.1
    texts := text.2
    columns
    vectors := s.vectors++d.vector
    codes := codes.take (row*stride)++encoded
    factors := s.factors++[factor] },row)

def replaceRowInPlace (s : ActiveSegment) (row : ℕ) (d : IngestDocument) :
    Except IngestError ActiveSegment := do
  let dims ← orOverflow s.dims
  require (d.vector.length = dims) (.dimensionMismatch dims d.vector.length)
  let rowIndex ← s.reindexRow row d.version.docId
  require (row < s.revisions.length ∧ row < s.sequences.length ∧ row < s.timestamps.length)
    .activeRowOverflow
  let metadata ← orOverflow (s.metadata.replaceRow row d.metadata)
  let text ← s.replaceText row d.text
  let columns ← s.replaceColumns row d.columns?.isSome d.columns
  require (row*dims+dims ≤ s.vectors.length) .activeRowOverflow
  let stride:=rowStride dims
  require (row*stride+stride ≤ s.codes.length) .activeRowOverflow
  let (encoded,factor) ← Except.mapError .vector
    (quantizeBit4 d.vector ((s.codes.drop (row*stride)).take stride))
  require (row < s.factors.length ∧ row < 2^32) .activeRowOverflow
  return { s with
    docIds := s.docIds.set row d.version.docId
    rowIndex
    revisions := s.revisions.set row d.version.revision
    sequences := s.sequences.set row 0
    timestamps := s.timestamps.set row d.timestamp
    metadata
    textPresent := text.1
    texts := text.2
    columns
    vectors := s.vectors.take (row*dims)++d.vector++s.vectors.drop (row*dims+dims)
    codes := s.codes.take (row*stride)++encoded++s.codes.drop (row*stride+stride)
    factors := s.factors.set row factor
    tombstones := s.tombstones.erase (BitVec.ofNat 32 row) }

section Analyzer
variable (analyze : String → List Token)

def lexicalDocument (text : Option String) : Document := (text.map .withText).getD .new

def pushEmptyRows : ℕ → SegmentIndex → Except IndexError SegmentIndex
  | 0,index => .ok index
  | n+1,index => do
    let index ← index.pushDocument analyze .new
    pushEmptyRows n index

def insertInPlace (s : ActiveSegment) (d : IngestDocument) :
    Except IngestError (ActiveSegment × ℕ) := do
  s.refuseExisting d
  let (next,row) ← s.insertRowInPlace quantizeBit4 d
  if s.tracksText || d.text.isSome then do
    let lexical ← Except.mapError .lexical
      (pushEmptyRows analyze (if s.tracksText then 0 else row) next.lexical)
    let lexical ← Except.mapError .lexical (lexical.pushDocument analyze (lexicalDocument d.text))
    return ({ next with lexical },row)
  else return (next,row)

def replaceInPlace (s : ActiveSegment) (row : ℕ) (d : IngestDocument) :
    Except IngestError ActiveSegment :=
  if !s.tracksText && d.text.isNone then s.replaceRowInPlace quantizeBit4 row d
  else do
    let previous ← Except.mapError .store (s.previousText row)
    let next ← s.replaceRowInPlace quantizeBit4 row d
    let lexical ← Except.mapError .lexical
      (pushEmptyRows analyze (if s.tracksText then 0 else next.rowCount) next.lexical)
    require (row < 2^32) .activeRowOverflow
    let lexical ← Except.mapError .lexical (lexical.replaceDocument analyze row (lexicalDocument previous)
      (lexicalDocument d.text))
    return { next with lexical }

def rebuildLexicalFrom (s : ActiveSegment) : ℕ → ℕ → SegmentIndex → Except IngestError SegmentIndex
  | 0,_,lexical => .ok lexical
  | n+1,row,lexical => do
    let text ← Except.mapError .store (s.text row)
    let lexical ← Except.mapError .lexical (lexical.pushDocument analyze (lexicalDocument text))
    s.rebuildLexicalFrom n (row+1) lexical

def rebuildLexical (s : ActiveSegment) : Except IngestError SegmentIndex :=
  s.rebuildLexicalFrom analyze s.rowCount 0 .new

end Analyzer

end Quantizer

/-- The requested rows in request order; `seen` holds the ids met so far. -/
def requestedRows (s : ActiveSegment) : List DocId → List DocId → List ℕ
  | _,[] => []
  | seen,docId::docIds =>
    if docId ∈ seen then s.requestedRows seen docIds
    else (s.rowIndex.lookup docId).toList++s.requestedRows (docId::seen) docIds

def pushTombstones : List ℕ → List U32 → Except IngestError (List U32)
  | [],tombstones => .ok tombstones
  | row::rows,tombstones =>
    if 2^32 ≤ row then .error (.store .activeRowOverflow)
    else pushTombstones rows (if tombstones.contains (BitVec.ofNat 32 row) then tombstones
      else tombstones++[BitVec.ofNat 32 row])

def tombstone (s : ActiveSegment) (docIds : List DocId) :
    Except IngestError (ActiveSegment × List ℕ) := do
  let rows:=s.requestedRows [] docIds
  let tombstones ← pushTombstones rows s.tombstones
  return ({ s with rowIndex := .copy s.docIds,tombstones },rows)

end ActiveSegment

end Zeppelin.Ingest
