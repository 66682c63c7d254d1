import Mathlib.Data.Finset.Sort
import Zeppelin.Bytes.Bitmap
import Zeppelin.Bytes.Reader
import Zeppelin.Meta.EvolvedStore

/-! segment/layout.rs -/

namespace Zeppelin.Segment
open Ingest Meta Reader

inductive MetadataDecodeProvenance where
  | aliveBitmapTruncation (rowCount : U32) (byteOffset : ℕ) (declaredBytes : U32)
    (observedBytes : ℕ)
  | columnsDictionaryCode (columnId : ColumnId) (row byteOffset : ℕ) (code cardinality : U32)
  | columnsRawStringLength (columnId : ColumnId) (row byteOffset : ℕ) (declaredBytes : U32)
    (availableBytes : ℕ)
  | columnsPresenceTail (columnId : ColumnId) (rowCount : U32) (byteOffset : ℕ)
    (observedByte allowedMask : U8)
  deriving DecidableEq

inductive Detail where
  | truncated
  | trailingBytes (count : ℕ)
  | bitmapLength (found expected : ℕ)
  | bitmapTailPadding
  | outOfRange
  | unknownColumnType (id : U16)
  | nameExceedsU32
  | stringExceedsU32
  | dictionaryExceedsU32
  | missingColumn (column : ColumnId)
  | missingDictionaryCode (code : ℕ)
  | timestampAbsent
  | timestampNotCanonical
  | invalidNullable (flag : U16)
  | utf8
  | presenceLength (column : ColumnId) (found expected : ℕ)
  | invalidBoolean (byte : U8)
  | dictionaryCapacity (declared : U32) (capacity : ℕ)
  | dictionaryStorage (entry : ℕ) (declared : U32) (available : ℕ)
  | dictionaryReserved
  | dictionaryWidth (width : U16)
  | dictionaryNull (row : ℕ) (code : U32)
  | missingTimestamp (row : ℕ)
  | missingRow (row : ℕ)
  | schema (error : SchemaError)
  | conflict (error : SchemaConflict)
  | build (error : BuildError)
  deriving DecidableEq

inductive SegmentError where
  | alive (detail : Detail)
  | columns (detail : Detail)
  | metadataSemantic (provenance : MetadataDecodeProvenance)
  deriving DecidableEq

/-- `DocBitmap::iter`: the rows in ascending order. -/
def rowNumbers (bitmap : DocBitmap) : List ℕ := (bitmap.image BitVec.toNat).sort (· ≤ ·)

def encodeAlive (alive : AliveSet) : Bytes :=
  let bits:=Bitmap.ofRows alive.rowCount.toNat (rowNumbers alive.alive)
  toLe 4 alive.rowCount++toLe 4 (BitVec.ofNat 32 bits.length)++bits

def readAlive (total : ℕ) : Reader SegmentError (U32 × Bytes) := do
  let rowCount ← word (.alive .truncated) 32 4
  let declaredBytes ← word (.alive .truncated) 32 4
  let expected:=Bitmap.bytesFor rowCount.toNat
  ensure (declaredBytes.toNat = expected) (.alive (.bitmapLength declaredBytes.toNat expected))
  let rest ← get
  ensure (declaredBytes.toNat ≤ rest.length) (.metadataSemantic
    (.aliveBitmapTruncation rowCount (total-rest.length) declaredBytes rest.length))
  let bits ← take (.alive .truncated) declaredBytes.toNat
  return (rowCount,bits)

def keepAlive (bits : Bytes) (alive : AliveSet) (row : ℕ) : Except SegmentError AliveSet :=
  if Bitmap.contains bits row then .ok alive
  else match alive.tombstone (BitVec.ofNat 32 row) with
    | none => .error (.alive .outOfRange)
    | some (_,next) => .ok next

def decodeAlive (bytes : Bytes) : Except SegmentError AliveSet := do
  let ((rowCount,bits),rest) ← readAlive bytes.length bytes
  if rest ≠ [] then throw (.alive (.trailingBytes rest.length))
  if ¬ Bitmap.tailClear rowCount.toNat bits then throw (.alive .bitmapTailPadding)
  (List.range rowCount.toNat).foldlM (keepAlive bits) (AliveSet.new rowCount)

def columnTypeId : ColumnType → U16
  | .id128 => 7
  | .u64 => 1
  | .i64 => 2
  | .f64 => 3
  | .bool => 4
  | .dictionaryString => 5
  | .rawString => 6

def columnTypeFromId (id : U16) : Except SegmentError ColumnType :=
  if id = 7 then .ok .id128
  else if id = 1 then .ok .u64
  else if id = 2 then .ok .i64
  else if id = 3 then .ok .f64
  else if id = 4 then .ok .bool
  else if id = 5 then .ok .dictionaryString
  else if id = 6 then .ok .rawString
  else .error (.columns (.unknownColumnType id))

def encodeSized (e : Detail) (value : String) : Except SegmentError Bytes :=
  match toU32 (utf8Bytes value).length with
  | none => .error (.columns e)
  | some length => .ok (toLe 4 length++utf8Bytes value)

def encodeString (value : String) : Except SegmentError Bytes := encodeSized .stringExceedsU32 value

def nullableFlag (nullable : Bool) : U16 := if nullable then 1 else 0

def encodeDefinition (d : ColumnDefinition) : Except SegmentError Bytes := do
  let name ← encodeSized .nameExceedsU32 d.name
  return toLe 4 d.id++toLe 2 (columnTypeId d.columnType)++toLe 2 (nullableFlag d.nullable)++name

def encodePresence (column : Column) (rowCount : U32) : Bytes :=
  Bitmap.ofRows rowCount.toNat (rowNumbers column.present)

def encodeFixed {w : ℕ} (n : ℕ) (get : U32 → Option (BitVec w)) (row : ℕ) :
    Except SegmentError Bytes := .ok (toLe n ((get (BitVec.ofNat 32 row)).getD 0))

def encodeEntry (dictionary : StringStorage) (code : ℕ) : Except SegmentError Bytes :=
  match dictionary.get code with
  | none => .error (.columns (.missingDictionaryCode code))
  | some value => encodeString value

def encodeCode (codes : DictionaryCodes) (row : ℕ) : Except SegmentError Bytes :=
  let code:=codes.toList[row]?.getD 0
  match codes.width with
  | .u16 => .ok (toLe 2 (code.setWidth 16))
  | .u32 => .ok (toLe 4 code)

def widthBytes : CodeWidth → U16
  | .u16 => 2
  | .u32 => 4

def encodeDictionary (c : DictionaryColumn) (rows : List ℕ) : Except SegmentError Bytes :=
  match toU32 c.dictionary.len with
  | none => .error (.columns .dictionaryExceedsU32)
  | some length => do
    let entries ← putMany (encodeEntry c.dictionary) (List.range length.toNat)
    let codes ← putMany (encodeCode c.codes) rows
    return toLe 4 length++entries++toLe 2 (widthBytes c.codes.width)++toLe 2 (0 : U16)++codes

def encodeColumnValues (column : Column) (rowCount : U32) : Except SegmentError Bytes :=
  let rows:=List.range rowCount.toNat
  match column with
  | .id128 c => putMany (encodeFixed 16 c.get) rows
  | .u64 c | .i64 c | .f64 c => putMany (encodeFixed 8 c.get) rows
  | .bool c => putMany (encodeFixed 1 fun row => (getBool c row).map BuilderColumn.boolByte) rows
  | .dictionaryString c => encodeDictionary c rows
  | .rawString c =>
    putMany (fun row => encodeString ((c.get (BitVec.ofNat 32 row)).getD "")) rows

def encodeColumn (store : ColumnStore) (d : ColumnDefinition) : Except SegmentError Bytes :=
  match store.column d.id with
  | none => .error (.columns (.missingColumn d.id))
  | some column => do
    let presence:=encodePresence column store.rowCount
    let values ← encodeColumnValues column store.rowCount
    return toLe 4 (BitVec.ofNat 32 presence.length)++presence++values

/-- The number of columns is cut to 32 bits without a check. -/
def encodeColumns (store : ColumnStore) : Except SegmentError Bytes := do
  let definitions ← putMany encodeDefinition store.schema.columns
  let columns ← putMany (encodeColumn store) store.schema.columns
  return toLe 4 store.rowCount++toLe 4 (BitVec.ofNat 32 store.schema.columns.length)++
    definitions++columns

inductive DecodedValues where
  | u64 (values : List U64)
  | id128 (values : List DocId)
  | i64 (values : List U64)
  | f64 (values : List U64)
  | bool (values : List Bool)
  | string (values : List String)

structure DecodedColumn where
  definition : ColumnDefinition
  present : Bytes
  values : DecodedValues

def truncated : SegmentError := .columns .truncated

def readText (length : U32) : Reader SegmentError String := do
  let bytes ← take truncated length.toNat
  lift (match fromUtf8 bytes with
    | none => .error (.columns .utf8)
    | some value => .ok value)

def nullableFromFlag (flag : U16) : Except SegmentError Bool :=
  if flag = 0 then .ok false
  else if flag = 1 then .ok true
  else .error (.columns (.invalidNullable flag))

def readDefinition : Reader SegmentError ColumnDefinition := do
  let id ← word truncated 32 4
  let typeId ← word truncated 16 2
  let columnType ← lift (columnTypeFromId typeId)
  let flag ← word truncated 16 2
  let nullable ← lift (nullableFromFlag flag)
  let length ← word truncated 32 4
  let name ← readText length
  return ⟨id,name,columnType,nullable⟩

def checkTimestamp (definitions : List ColumnDefinition) : Except SegmentError Unit :=
  match definitions.head? with
  | none => .error (.columns .timestampAbsent)
  | some timestamp =>
    if timestamp.id ≠ timestampColumn ∨ timestamp.name ≠ "ts" ∨ timestamp.columnType ≠ .i64 ∨
        timestamp.nullable then .error (.columns .timestampNotCanonical)
    else .ok ()

def boolFromByte (byte : U8) : Except SegmentError Bool :=
  if byte = 0 then .ok false
  else if byte = 1 then .ok true
  else .error (.columns (.invalidBoolean byte))

def readBool : Reader SegmentError Bool := do
  let byte ← word truncated 8 1
  lift (boolFromByte byte)

/-- A dictionary string; the length is checked against the whole region first. -/
def readEntry (total : ℕ) (entry : ℕ) : Reader SegmentError String := do
  let declared ← word truncated 32 4
  let rest ← get
  ensure (¬ (rest.length < declared.toNat ∧ total < declared.toNat))
    (.columns (.dictionaryStorage entry declared rest.length))
  readText declared

def readWidth (width : U16) : Reader SegmentError U32 :=
  if width = 2 then do
    let code ← word truncated 16 2
    return code.setWidth 32
  else if width = 4 then word truncated 32 4
  else lift (.error (.columns (.dictionaryWidth width)))

def codeValue (columnId : ColumnId) (present : Bytes) (dictionary : List String) (cardinality : U32)
    (row byteOffset : ℕ) (code : U32) : Except SegmentError String :=
  if Bitmap.contains present row then
    match dictionary[code.toNat]? with
    | none =>
      .error (.metadataSemantic (.columnsDictionaryCode columnId row byteOffset code cardinality))
    | some value => .ok value
  else if code ≠ 0 then .error (.columns (.dictionaryNull row code))
  else .ok ""

def readCode (columnId : ColumnId) (present : Bytes) (total : ℕ) (dictionary : List String)
    (cardinality : U32) (width : U16) (row : ℕ) : Reader SegmentError String := do
  let rest ← get
  let code ← readWidth width
  lift (codeValue columnId present dictionary cardinality row (total-rest.length) code)

def readDictionary (columnId : ColumnId) (rows : List ℕ) (present : Bytes) (total : ℕ) :
    Reader SegmentError (List String) := do
  let cardinality ← word truncated 32 4
  let rest ← get
  ensure (¬ (4 ≤ rest.length ∧ rest.length / 4 < cardinality.toNat))
    (.columns (.dictionaryCapacity cardinality (rest.length / 4)))
  let dictionary ← each (readEntry total) (List.range cardinality.toNat)
  let width ← word truncated 16 2
  let reserved ← word truncated 16 2
  ensure (reserved = 0) (.columns .dictionaryReserved)
  each (readCode columnId present total dictionary cardinality width) rows

def decodeRawString (columnId : ColumnId) (total : ℕ) (row : ℕ) : Reader SegmentError String := do
  let start ← get
  let declared ← word truncated 32 4
  let rest ← get
  ensure (declared.toNat ≤ rest.length) (.metadataSemantic
    (.columnsRawStringLength columnId row (total-start.length) declared rest.length))
  readText declared

def decodeColumnValues (columnId : ColumnId) (columnType : ColumnType) (rowCount : U32)
    (present : Bytes) (total : ℕ) : Reader SegmentError DecodedValues :=
  let rows:=List.range rowCount.toNat
  match columnType with
  | .id128 => do return .id128 (← each (fun _ => word truncated 128 16) rows)
  | .u64 => do return .u64 (← each (fun _ => word truncated 64 8) rows)
  | .i64 => do return .i64 (← each (fun _ => word truncated 64 8) rows)
  | .f64 => do return .f64 (← each (fun _ => word truncated 64 8) rows)
  | .bool => do return .bool (← each (fun _ => readBool) rows)
  | .dictionaryString => do return .string (← readDictionary columnId rows present total)
  | .rawString => do return .string (← each (decodeRawString columnId total) rows)

def validatePresenceTail (columnId : ColumnId) (rowCount : U32) (byteOffset : ℕ) (bytes : Bytes) :
    Except SegmentError Unit :=
  if Bitmap.tailClear rowCount.toNat bytes then .ok ()
  else .error (.metadataSemantic (.columnsPresenceTail columnId rowCount
    (byteOffset+(bytes.length-1)) (bytes.getLast?.getD 0)
    (1#8 <<< (rowCount.toNat % 8)-1)))

def readColumn (rowCount : U32) (total : ℕ) (d : ColumnDefinition) :
    Reader SegmentError DecodedColumn := do
  let length ← word truncated 32 4
  let expected:=Bitmap.bytesFor rowCount.toNat
  ensure (length.toNat = expected) (.columns (.presenceLength d.id length.toNat expected))
  let rest ← get
  let present ← take truncated length.toNat
  lift (validatePresenceTail d.id rowCount (total-rest.length) present)
  let values ← decodeColumnValues d.id d.columnType rowCount present total
  return ⟨d,present,values⟩

def readColumns (total : ℕ) : Reader SegmentError (U32 × List DecodedColumn) := do
  let rowCount ← word truncated 32 4
  let count ← word truncated 32 4
  ensure (count ≠ 0) (.columns .timestampAbsent)
  let definitions ← repeated readDefinition count.toNat
  lift (checkTimestamp definitions)
  let decoded ← each (readColumn rowCount total) definitions
  return (rowCount,decoded)

def decodedValue (values : DecodedValues) (row : ℕ) : Except SegmentError PredicateValue :=
  let value:=match values with
    | .id128 values => values[row]?.map .id128
    | .u64 values => values[row]?.map .u64
    | .i64 values => values[row]?.map .i64
    | .f64 values => values[row]?.map .f64
    | .bool values => values[row]?.map .bool
    | .string values => values[row]?.map .string
  match value with
  | none => .error (.columns (.missingRow row))
  | some value => .ok value

def decodedTimestamp (decoded : List DecodedColumn) (row : ℕ) : Except SegmentError U64 :=
  match decoded with
  | { values := .i64 values,.. }::_ =>
    match values[row]? with
    | none => .error (.columns (.missingTimestamp row))
    | some timestamp => .ok timestamp
  | _ => .error (.columns (.missingTimestamp row))

def decodedInputs (row : ℕ) : List DecodedColumn → Except SegmentError (List ColumnInput)
  | [] => .ok []
  | column::columns =>
    if ¬ Bitmap.contains column.present row then decodedInputs row columns
    else do
      let value ← decodedValue column.values row
      let inputs ← decodedInputs row columns
      return ⟨column.definition.id,value⟩::inputs

def decodedRow (decoded : List DecodedColumn) (row : ℕ) : Except SegmentError MetaRow := do
  let timestamp ← decodedTimestamp decoded row
  let inputs ← decodedInputs row (decoded.drop 1)
  return ⟨timestamp,inputs⟩

def pushDecoded (decoded : List DecodedColumn) (builder : ColumnStoreBuilder) (row : ℕ) :
    Except SegmentError ColumnStoreBuilder := do
  let input ← decodedRow decoded row
  Except.mapError (fun error => .columns (.build error)) (builder.pushRow input)

def collectionSchema (schema : Schema) : Option Schema → Except SegmentError Schema
  | none => .ok schema
  | some collection => do
    let _ ← Except.mapError (fun error => SegmentError.columns (.conflict error))
      (schema.additiveEvolution collection)
    return collection

def decodeColumns (bytes : Bytes) (collection : Option Schema) :
    Except SegmentError ColumnStore := do
  let ((rowCount,decoded),rest) ← readColumns bytes.length bytes
  if rest ≠ [] then throw (.columns (.trailingBytes rest.length))
  let schema ← Except.mapError (fun error => SegmentError.columns (.schema error))
    (Schema.new ((decoded.drop 1).map DecodedColumn.definition))
  let schema ← collectionSchema schema collection
  let builder ← (List.range rowCount.toNat).foldlM (pushDecoded decoded) (ColumnStoreBuilder.new schema)
  Except.mapError (fun error => .columns (.build error)) builder.finish

end Zeppelin.Segment
