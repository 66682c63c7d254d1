import Zeppelin.Ingest.Document

/-! ingest/wal_payload.rs -/

namespace Zeppelin.Ingest

/-- `property_graph::wal::WalError`. -/
inductive GraphWalError where
  | unsupported | malformed | checksum | store | sequence | highWater | capacity | workLimit
  | cancelled | missingArtifact | participant | failed
  deriving DecidableEq

inductive PayloadError where
  | graphEnvelope (error : GraphWalError)
  | unknownOperation (op : U16)
  | transactionBinding
  | lengthOverflow
  | truncated
  | version (version : U16)
  | flags (flags : U16)
  | reserved (value : U32)
  | emptyVector
  | emptyDelete
  | nonFiniteVector (index : ℕ)
  | valueKind (kind : U8)
  | valueLength (kind : U8) (expected actual : ℕ)
  | boolean (value : U8)
  | utf8
  | trailingBytes (count : ℕ)
  | fieldBitmap (bitmap : U32)
  | batchPosition (index count : U32)
  | orphanBatchMember (index count : U32)
  | columns (detail : String)
  | lexical (detail : String)
  deriving DecidableEq

def upsertV1 : U16 := 1
def deleteV1 : U16 := 2
def metadataEditV1 : U16 := 3
def upsertWithTimestampV1 : U16 := 4
def upsertWithMetadataV1 : U16 := 5
def upsertWithTimestampAndMetadataV1 : U16 := 6
def upsertV2 : U16 := 7
def upsertV2BatchMember : U16 := 8
def preparedMutationV1 : U16 := 9
def graphCommitV1 : U16 := 10
def mixedBatchMemberV1 : U16 := 11

def upsertV2Vector : U32 := 1
def upsertV2Text : U32 := 2
def upsertV2Timestamp : U32 := 4
def upsertV2Metadata : U32 := 8
def upsertV2TypedColumns : U32 := 16

def upsertV2KnownFields : U32 :=
  upsertV2Vector ||| upsertV2Text ||| upsertV2Timestamp ||| upsertV2Metadata |||
    upsertV2TypedColumns

def payloadVersion : U16 := 1

inductive MetadataValue where
  | null
  | u64 (value : U64)
  | id128 (value : DocId)
  | i64 (value : U64)
  | f64 (bits : U64)
  | bool (value : Bool)
  | string (value : String)
  deriving DecidableEq

structure MetadataEdit where
  version : DocumentVersion
  column : ColumnId
  value : MetadataValue
  deriving DecidableEq

inductive MutationPayload where
  | graphCommit (envelope : Bytes)
  | mixedBatchMember (index count : U32) (op : U16) (mutation : MutationPayload)
  | upsert (document : IngestDocument)
  | delete (docIds : List DocId)
  | metadataEdit (edit : MetadataEdit)
  | batchMember (index count : U32) (document : IngestDocument)
  deriving DecidableEq

def appendHeader : Bytes := toLe 2 payloadVersion++toLe 2 (0 : U16)

def appendVersion (v : DocumentVersion) : Bytes := toLe 16 v.docId++toLe 8 v.revision

/-- A count or length that must fit its persisted `u32` field. -/
def lengthField (n : ℕ) : Except PayloadError U32 :=
  if n < 2^32 then .ok (BitVec.ofNat 32 n) else .error .lengthOverflow

def appendLengthPrefixed (bytes : Bytes) : Except PayloadError Bytes := do
  let length ← lengthField bytes.length
  return toLe 4 length++bytes

def validateVector (vector : List U32) : Except PayloadError Unit :=
  if vector = [] then .error .emptyVector
  else match vector.findIdx? (fun v => !isFinite v) with
    | some index => .error (.nonFiniteVector index)
    | none => .ok ()

def vectorBytes (vector : List U32) : Bytes := vector.flatMap (toLe 4)

def predicateToMetadata : PredicateValue → MetadataValue
  | .id128 value => .id128 value
  | .u64 value => .u64 value
  | .i64 value => .i64 value
  | .f64 bits => .f64 bits
  | .bool value => .bool value
  | .string value => .string value

def encodeMetadataValue : MetadataValue → Except PayloadError (U8 × Bytes)
  | .null => .ok (0,[])
  | .id128 value => .ok (6,toLe 16 value)
  | .u64 value => .ok (1,toLe 8 value)
  | .i64 value => .ok (2,toLe 8 value)
  | .f64 bits => .ok (3,toLe 8 bits)
  | .bool value => .ok (4,[if value then 1 else 0])
  | .string value => do
    let _ ← lengthField (utf8Bytes value).length
    return (5,utf8Bytes value)

def encodeTypedColumn (column : ColumnId × PredicateValue) : Except PayloadError Bytes := do
  let (kind,body) ← encodeMetadataValue (predicateToMetadata column.2)
  let body ← appendLengthPrefixed body
  return toLe 4 column.1++[kind]++[0,0,0]++body

def encodeTypedColumnList : List (ColumnId × PredicateValue) → Except PayloadError Bytes
  | [] => .ok []
  | column::columns => do
    let first ← encodeTypedColumn column
    let rest ← encodeTypedColumnList columns
    return first++rest

/-- `encode_typed_columns`, and `encode_column_values` of an active row. -/
def encodeColumnValues (columns : List (ColumnId × PredicateValue)) : Except PayloadError Bytes := do
  let count ← lengthField columns.length
  let entries ← encodeTypedColumnList columns
  return toLe 4 count++entries

def optionalField {α : Type} (encode : α → Except PayloadError Bytes) :
    Option α → Except PayloadError Bytes
  | none => .ok []
  | some a => encode a

def upsertV2Bitmap (d : IngestDocument) : U32 :=
  upsertV2Vector ||| (if d.text.isSome then upsertV2Text else 0) |||
    (if d.timestamp?.isSome then upsertV2Timestamp else 0) |||
    (if d.metadata?.isSome then upsertV2Metadata else 0) |||
    (if d.columns?.isSome then upsertV2TypedColumns else 0)

def encodeUpsertV2 (d : IngestDocument) : Except PayloadError Bytes := do
  validateVector d.vector
  let dims ← lengthField d.vector.length
  let text ← optionalField (fun s => appendLengthPrefixed (utf8Bytes s)) d.text
  let timestamp ← optionalField (fun t => .ok (toLe 8 t)) d.timestamp?
  let metadata ← optionalField appendLengthPrefixed d.metadata?
  let columns ← optionalField encodeColumnValues d.columns?
  return toLe 4 (upsertV2Bitmap d)++appendVersion d.version++toLe 4 dims++
    vectorBytes d.vector++text++timestamp++metadata++columns

def metadataLength (d : IngestDocument) (includeMetadata : Bool) : Except PayloadError Bytes :=
  if includeMetadata then do
    let length ← lengthField d.metadata.length
    return toLe 4 length
  else .ok []

def encodeUpsertBody (d : IngestDocument) (timestamp : Option U64) (includeMetadata : Bool) :
    Except PayloadError Bytes :=
  if d.vector = [] then .error .emptyVector
  else do
    let dims ← lengthField d.vector.length
    validateVector d.vector
    let length ← metadataLength d includeMetadata
    return appendHeader++appendVersion d.version++timestamp.elim [] (toLe 8)++length++
      toLe 4 dims++(if includeMetadata then d.metadata else [])++vectorBytes d.vector

def encodeUpsert (d : IngestDocument) : Except PayloadError Bytes := encodeUpsertBody d none false

def encodeUpsertWithTimestamp (d : IngestDocument) : Except PayloadError Bytes :=
  encodeUpsertBody d (some d.timestamp) false

def encodeUpsertWithMetadata (d : IngestDocument) : Except PayloadError Bytes :=
  encodeUpsertBody d none true

def encodeUpsertWithTimestampAndMetadata (d : IngestDocument) : Except PayloadError Bytes :=
  encodeUpsertBody d (some d.timestamp) true

def encodeMetadataEdit (edit : MetadataEdit) : Except PayloadError Bytes := do
  let (kind,body) ← encodeMetadataValue edit.value
  let length ← lengthField body.length
  return appendHeader++appendVersion edit.version++toLe 4 edit.column++[kind]++[0,0,0]++
    toLe 4 length++body

def encodeDelete (docIds : List DocId) : Except PayloadError Bytes :=
  if docIds = [] then .error .emptyDelete
  else do
    let count ← lengthField docIds.length
    return appendHeader++toLe 4 count++docIds.flatMap (toLe 16)

def readBytes (length : ℕ) (bytes : Bytes) : Except PayloadError (Bytes × Bytes) :=
  if length ≤ bytes.length then .ok (bytes.take length,bytes.drop length) else .error .truncated

def readField (w width : ℕ) (bytes : Bytes) : Except PayloadError (BitVec w × Bytes) := do
  let (field,rest) ← readBytes width bytes
  return (ofLe w field,rest)

def readU8 (bytes : Bytes) : Except PayloadError (U8 × Bytes) := readField 8 1 bytes
def readU16 (bytes : Bytes) : Except PayloadError (U16 × Bytes) := readField 16 2 bytes
def readU24 (bytes : Bytes) : Except PayloadError (U32 × Bytes) := readField 32 3 bytes
def readU32 (bytes : Bytes) : Except PayloadError (U32 × Bytes) := readField 32 4 bytes
def readU64 (bytes : Bytes) : Except PayloadError (U64 × Bytes) := readField 64 8 bytes
def readU128 (bytes : Bytes) : Except PayloadError (U128 × Bytes) := readField 128 16 bytes

def requireHeader (bytes : Bytes) : Except PayloadError Bytes := do
  let (version,bytes) ← readU16 bytes
  if version ≠ payloadVersion then throw (.version version)
  let (flags,bytes) ← readU16 bytes
  if flags ≠ 0 then throw (.flags flags)
  return bytes

def readVersion (bytes : Bytes) : Except PayloadError (DocumentVersion × Bytes) := do
  let (docId,bytes) ← readU128 bytes
  let (revision,bytes) ← readU64 bytes
  return (⟨docId,revision⟩,bytes)

def readLengthPrefixed (bytes : Bytes) : Except PayloadError (Bytes × Bytes) := do
  let (length,bytes) ← readU32 bytes
  readBytes length.toNat bytes

def readString (bytes : Bytes) : Except PayloadError (String × Bytes) := do
  let (body,bytes) ← readLengthPrefixed bytes
  match fromUtf8 body with
  | some s => return (s,bytes)
  | none => throw .utf8

def requireRemaining (length : ℕ) (bytes : Bytes) : Except PayloadError Unit :=
  if bytes.length < length then .error .truncated else .ok ()

def finish (bytes : Bytes) : Except PayloadError Unit :=
  if bytes.length = 0 then .ok () else .error (.trailingBytes bytes.length)

def requireValueLen (kind : U8) (body : Bytes) (expected : ℕ) : Except PayloadError Unit :=
  if body.length = expected then .ok () else .error (.valueLength kind expected body.length)

def decodeMetadataValue (kind : U8) (body : Bytes) : Except PayloadError MetadataValue :=
  if kind = 0 then do
    requireValueLen kind body 0
    return .null
  else if kind = 6 then do
    requireValueLen kind body 16
    return .id128 (ofLe 128 body)
  else if kind = 1 then do
    requireValueLen kind body 8
    return .u64 (ofLe 64 body)
  else if kind = 2 then do
    requireValueLen kind body 8
    return .i64 (ofLe 64 body)
  else if kind = 3 then do
    requireValueLen kind body 8
    return .f64 (ofLe 64 body)
  else if kind = 4 then do
    requireValueLen kind body 1
    match body with
    | [] => throw .truncated
    | value::_ =>
      if value = 0 then return .bool false
      else if value = 1 then return .bool true
      else throw (.boolean value)
  else if kind = 5 then
    match fromUtf8 body with
    | some s => .ok (.string s)
    | none => .error .utf8
  else .error (.valueKind kind)

def metadataToPredicate : MetadataValue → Except PayloadError PredicateValue
  | .null => .error (.valueKind 0)
  | .id128 value => .ok (.id128 value)
  | .u64 value => .ok (.u64 value)
  | .i64 value => .ok (.i64 value)
  | .f64 bits => .ok (.f64 bits)
  | .bool value => .ok (.bool value)
  | .string value => .ok (.string value)

/-- The coordinate loop of the upsert decoders; `index` counts from zero. -/
def decodeCoordinates : ℕ → ℕ → Bytes → Except PayloadError (List U32 × Bytes)
  | 0,_,bytes => .ok ([],bytes)
  | n+1,index,bytes => do
    let (value,bytes) ← readU32 bytes
    if !isFinite value then throw (.nonFiniteVector index)
    let (vector,bytes) ← decodeCoordinates n (index+1) bytes
    return (value::vector,bytes)

def decodeTypedColumn (bytes : Bytes) :
    Except PayloadError ((ColumnId × PredicateValue) × Bytes) := do
  let (column,bytes) ← readU32 bytes
  let (kind,bytes) ← readU8 bytes
  let (reserved,bytes) ← readU24 bytes
  if reserved ≠ 0 then throw (.reserved reserved)
  let (body,bytes) ← readLengthPrefixed bytes
  let value ← decodeMetadataValue kind body
  let value ← metadataToPredicate value
  return ((column,value),bytes)

def decodeTypedColumnList : ℕ → Bytes →
    Except PayloadError (List (ColumnId × PredicateValue) × Bytes)
  | 0,bytes => .ok ([],bytes)
  | n+1,bytes => do
    let (column,bytes) ← decodeTypedColumn bytes
    let (columns,bytes) ← decodeTypedColumnList n bytes
    return (column::columns,bytes)

def decodeTypedColumns (bytes : Bytes) :
    Except PayloadError (List (ColumnId × PredicateValue) × Bytes) := do
  let (count,bytes) ← readU32 bytes
  decodeTypedColumnList count.toNat bytes

/-- Reads a field only when its bitmap bit is set. -/
def readOptional {α : Type} (bitmap bit : U32) (read : Bytes → Except PayloadError (α × Bytes))
    (bytes : Bytes) : Except PayloadError (Option α × Bytes) :=
  if bitmap &&& bit ≠ 0 then do
    let (value,bytes) ← read bytes
    return (some value,bytes)
  else .ok (none,bytes)

def readVector (bytes : Bytes) : Except PayloadError (List U32 × Bytes) := do
  let (dims,bytes) ← readU32 bytes
  if dims.toNat = 0 then throw .emptyVector
  decodeCoordinates dims.toNat 0 bytes

def decodeUpsertV2 (payload : Bytes) : Except PayloadError IngestDocument := do
  let (bitmap,bytes) ← readU32 payload
  let reserved:=bitmap &&& ~~~upsertV2KnownFields
  if reserved ≠ 0 then throw (.fieldBitmap reserved)
  let (version,bytes) ← readVersion bytes
  let (vector,bytes) ← readOptional bitmap upsertV2Vector readVector bytes
  let (text,bytes) ← readOptional bitmap upsertV2Text readString bytes
  let (timestamp,bytes) ← readOptional bitmap upsertV2Timestamp readU64 bytes
  let (metadata,bytes) ← readOptional bitmap upsertV2Metadata readLengthPrefixed bytes
  let (columns,bytes) ← readOptional bitmap upsertV2TypedColumns decodeTypedColumns bytes
  finish bytes
  return ⟨version,none,vector.getD [],timestamp,metadata,text,columns⟩

/-- The four v1 upserts. `usize` overflow of the body length cannot happen: both
lengths are persisted in 32 bits. -/
def decodeUpsertBody (payload : Bytes) (hasTimestamp hasMetadata : Bool) :
    Except PayloadError IngestDocument := do
  let bytes ← requireHeader payload
  let (version,bytes) ← readVersion bytes
  let (timestamp,bytes) ← if hasTimestamp then readU64 bytes else .ok (0,bytes)
  let (metadataLen,bytes) ← if hasMetadata then readU32 bytes else .ok (0,bytes)
  let (dims,bytes) ← readU32 bytes
  if dims.toNat = 0 then throw .emptyVector
  requireRemaining (metadataLen.toNat+dims.toNat*4) bytes
  let (metadata,bytes) ← readBytes metadataLen.toNat bytes
  let (vector,bytes) ← decodeCoordinates dims.toNat 0 bytes
  finish bytes
  return { IngestDocument.new version vector with
    timestamp? := if hasTimestamp then some timestamp else none
    metadata? := if hasMetadata then some metadata else none }

def decodeIds : ℕ → Bytes → Except PayloadError (List DocId × Bytes)
  | 0,bytes => .ok ([],bytes)
  | n+1,bytes => do
    let (docId,bytes) ← readU128 bytes
    let (docIds,bytes) ← decodeIds n bytes
    return (docId::docIds,bytes)

def decodeDelete (payload : Bytes) : Except PayloadError (List DocId) := do
  let bytes ← requireHeader payload
  let (count,bytes) ← readU32 bytes
  if count.toNat = 0 then throw .emptyDelete
  requireRemaining (count.toNat*16) bytes
  let (docIds,bytes) ← decodeIds count.toNat bytes
  finish bytes
  return docIds

def decodeMetadataEdit (payload : Bytes) : Except PayloadError MetadataEdit := do
  let bytes ← requireHeader payload
  let (version,bytes) ← readVersion bytes
  let (column,bytes) ← readU32 bytes
  let (kind,bytes) ← readU8 bytes
  let (reserved,bytes) ← readU24 bytes
  if reserved ≠ 0 then throw (.reserved reserved)
  let (valueLen,bytes) ← readU32 bytes
  let (body,bytes) ← readBytes valueLen.toNat bytes
  let value ← decodeMetadataValue kind body
  finish bytes
  return ⟨version,column,value⟩

def validateBatchPosition (index count : U32) : Except PayloadError Unit :=
  if count < 2 ∨ index ≥ count then .error (.batchPosition index count) else .ok ()

def validateMixedOperation (op : U16) : Except PayloadError Unit :=
  if op = deleteV1 ∨ op = upsertV2 ∨ op = graphCommitV1 then .ok () else .error (.unknownOperation op)

section Envelope
variable (validateEnvelope : Bytes → Except GraphWalError Unit)

def decodeGraphCommit (payload : Bytes) : Except PayloadError Bytes :=
  match validateEnvelope payload with
  | .error e => .error (.graphEnvelope e)
  | .ok () => .ok payload

/-- `encode_graph_commit` adds nothing to the envelope. -/
def encodeGraphCommit (envelope : Bytes) : Except PayloadError Bytes :=
  decodeGraphCommit validateEnvelope envelope

/-- The operations of `decode_mutation` that hold no other record. -/
def decodePlain (op : U16) (payload : Bytes) : Except PayloadError MutationPayload :=
  if op = graphCommitV1 then .graphCommit <$> decodeGraphCommit validateEnvelope payload
  else if op = upsertV1 then .upsert <$> decodeUpsertBody payload false false
  else if op = deleteV1 then .delete <$> decodeDelete payload
  else if op = metadataEditV1 then .metadataEdit <$> decodeMetadataEdit payload
  else if op = upsertWithTimestampV1 then .upsert <$> decodeUpsertBody payload true false
  else if op = upsertWithMetadataV1 then .upsert <$> decodeUpsertBody payload false true
  else if op = upsertWithTimestampAndMetadataV1 then .upsert <$> decodeUpsertBody payload true true
  else if op = upsertV2 then .upsert <$> decodeUpsertV2 payload
  else .error (.unknownOperation op)

/-- The inner operation is 2, 7 or 10, so the source's recursive call is always
one of `decodePlain`. -/
def decodeMixedBatchMember (payload : Bytes) : Except PayloadError MutationPayload := do
  let (index,bytes) ← readU32 payload
  let (count,bytes) ← readU32 bytes
  validateBatchPosition index count
  let (op,bytes) ← readU16 bytes
  validateMixedOperation op
  let mutation ← decodePlain validateEnvelope op bytes
  return .mixedBatchMember index count op mutation

def decodeUpsertV2BatchMember (payload : Bytes) :
    Except PayloadError (U32 × U32 × IngestDocument) := do
  let (index,bytes) ← readU32 payload
  let (count,bytes) ← readU32 bytes
  validateBatchPosition index count
  let document ← decodeUpsertV2 bytes
  return (index,count,document)

def decodeMutation (op : U16) (payload : Bytes) : Except PayloadError MutationPayload :=
  if op = mixedBatchMemberV1 then decodeMixedBatchMember validateEnvelope payload
  else if op = upsertV2BatchMember then
    (fun (index,count,document) => .batchMember index count document) <$>
      decodeUpsertV2BatchMember payload
  else decodePlain validateEnvelope op payload

end Envelope

def encodeUpsertV2BatchMember (index count : U32) (payload : Bytes) : Except PayloadError Bytes := do
  validateBatchPosition index count
  return toLe 4 index++toLe 4 count++payload

def encodeMixedBatchMember (index count : U32) (op : U16) (inner : Bytes) :
    Except PayloadError Bytes := do
  validateBatchPosition index count
  validateMixedOperation op
  return toLe 4 index++toLe 4 count++toLe 2 op++inner

structure TransactionBinding where
  transaction : U128
  participant : U128
  firstSeq : U64
  lastSeq : U64
  manifestDigest : U64
  finalGeneration : U64
  deriving DecidableEq

def TransactionBinding.memberCount (b : TransactionBinding) : Except PayloadError U32 :=
  if b.transaction = 0 ∨ b.participant = 0 ∨ b.firstSeq = 0 ∨ b.finalGeneration = 0 then
    .error .transactionBinding
  else if b.firstSeq ≤ b.lastSeq ∧ b.lastSeq.toNat-b.firstSeq.toNat+1 < 2^32 then
    .ok (BitVec.ofNat 32 (b.lastSeq.toNat-b.firstSeq.toNat+1))
  else .error .transactionBinding

def TransactionBinding.bytes (b : TransactionBinding) : Bytes :=
  toLe 16 b.transaction++toLe 16 b.participant++toLe 8 b.firstSeq++toLe 8 b.lastSeq++
    toLe 8 b.manifestDigest++toLe 8 b.finalGeneration

def TransactionBinding.encode (b : TransactionBinding) : Except PayloadError Bytes := do
  let _ ← b.memberCount
  return b.bytes

def TransactionBinding.decode (bytes : Bytes) : Except PayloadError TransactionBinding := do
  let (transaction,bytes) ← readU128 bytes
  let (participant,bytes) ← readU128 bytes
  let (firstSeq,bytes) ← readU64 bytes
  let (lastSeq,bytes) ← readU64 bytes
  let (manifestDigest,bytes) ← readU64 bytes
  let (finalGeneration,bytes) ← readU64 bytes
  finish bytes
  let b:=TransactionBinding.mk transaction participant firstSeq lastSeq manifestDigest
    finalGeneration
  let _ ← b.memberCount
  return b

structure PreparedMutation where
  binding : TransactionBinding
  index : U32
  count : U32
  op : U16
  mutation : MutationPayload
  deriving DecidableEq

section Envelope
variable (validateEnvelope : Bytes → Except GraphWalError Unit)

def standaloneMutation (op : U16) (bytes : Bytes) : Except PayloadError MutationPayload :=
  if upsertV1 ≤ op ∧ op ≤ upsertV2 then decodeMutation validateEnvelope op bytes
  else .error (.unknownOperation op)

def encodePrepared (binding : TransactionBinding) (index count : U32) (op : U16) (body : Bytes) :
    Except PayloadError Bytes := do
  let members ← binding.memberCount
  if count ≠ members ∨ index ≥ count then throw (.batchPosition index count)
  let _ ← standaloneMutation validateEnvelope op body
  let evidence ← binding.encode
  return appendHeader++evidence++toLe 4 index++toLe 4 count++toLe 2 op++body

def decodePrepared (payload : Bytes) : Except PayloadError PreparedMutation := do
  let bytes ← requireHeader payload
  let (evidence,bytes) ← readBytes 64 bytes
  let binding ← TransactionBinding.decode evidence
  let (index,bytes) ← readU32 bytes
  let (count,bytes) ← readU32 bytes
  let members ← binding.memberCount
  if count ≠ members ∨ index ≥ count then throw (.batchPosition index count)
  let (op,bytes) ← readU16 bytes
  let mutation ← standaloneMutation validateEnvelope op bytes
  return ⟨binding,index,count,op,mutation⟩

end Envelope

inductive TransactionDecision where
  | committed
  | undecided
  | mismatch
  deriving DecidableEq

def transactionDecision (prepared : TransactionBinding) (selected : Option TransactionBinding) :
    TransactionDecision :=
  match prepared.memberCount,selected with
  | .ok _,none => .undecided
  | .ok _,some binding => if binding = prepared then .committed else .mismatch
  | .error _,_ => .mismatch

end Zeppelin.Ingest
