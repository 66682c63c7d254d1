import Mathlib.Data.Finset.Image
import Zeppelin.Machine.Except
import Zeppelin.Ingest.Document

/-! meta/mod.rs, meta/dict.rs, meta/columns.rs, meta/alive.rs: A compressed bitmap is the
set of its rows. -/

namespace Zeppelin.Meta
open Ingest

abbrev DocBitmap := Finset U32

/-- `DocBitmap::full`. -/
def fullBitmap (rowCount : U32) : DocBitmap :=
  (Finset.range rowCount.toNat).image fun row => BitVec.ofNat 32 row

/-- `u32::try_from` of a length or position. -/
def toU32 (n : ℕ) : Option U32 := if n < 2^32 then some (BitVec.ofNat 32 n) else none

inductive ColumnType where
  | u64
  | id128
  | i64
  | f64
  | bool
  | dictionaryString
  | rawString
  deriving DecidableEq

def timestampColumn : ColumnId := 0

structure ColumnDefinition where
  id : ColumnId
  name : String
  columnType : ColumnType
  nullable : Bool
  deriving DecidableEq

structure Schema where
  columns : List ColumnDefinition
  deriving DecidableEq

def Schema.column (s : Schema) (id : ColumnId) : Option ColumnDefinition :=
  s.columns.find? fun definition => definition.id = id

def valueType : PredicateValue → ColumnType
  | .id128 _ => .id128
  | .u64 _ => .u64
  | .i64 _ => .i64
  | .f64 _ => .f64
  | .bool _ => .bool
  | .string _ => .rawString

inductive DictionaryError where
  | cardinalityOverflow
  | stringStorageOverflow
  deriving DecidableEq

structure StringStorage where
  offsets : List ℕ
  bytes : Bytes
  deriving DecidableEq

namespace StringStorage

def new : StringStorage := ⟨[0],[]⟩

def canPush (s : StringStorage) (value : String) : Except DictionaryError Unit :=
  if s.bytes.length+(utf8Bytes value).length < 2^32 then .ok ()
  else .error .stringStorageOverflow

def push (s : StringStorage) (value : String) : Except DictionaryError StringStorage := do
  s.canPush value
  let bytes:=s.bytes++utf8Bytes value
  return ⟨s.offsets++[bytes.length],bytes⟩

def len (s : StringStorage) : ℕ := s.offsets.length-1

def get (s : StringStorage) (position : ℕ) : Option String := do
  let start ← s.offsets[position]?
  let stop ← s.offsets[position+1]?
  if start ≤ stop ∧ stop ≤ s.bytes.length then fromUtf8 ((s.bytes.take stop).drop start) else none

end StringStorage

inductive CodeWidth where
  | u16
  | u32
  deriving DecidableEq

def codeWidthForCardinality (cardinality : ℕ) : Except DictionaryError CodeWidth :=
  if cardinality ≤ 2^16-1 then .ok .u16
  else if cardinality ≤ 2^32-1 then .ok .u32
  else .error .cardinalityOverflow

inductive DictionaryCodes where
  | u16 (codes : List U16)
  | u32 (codes : List U32)
  deriving DecidableEq

def DictionaryCodes.toList : DictionaryCodes → List U32
  | .u16 codes => codes.map fun code => code.setWidth 32
  | .u32 codes => codes

def narrowCode (code : U32) : Except DictionaryError U16 :=
  if code.toNat < 2^16 then .ok (code.setWidth 16) else .error .cardinalityOverflow

def DictionaryCodes.fromU32 (codes : List U32) (cardinality : ℕ) :
    Except DictionaryError DictionaryCodes := do
  match ← codeWidthForCardinality cardinality with
  | .u16 => do
    let narrowed ← codes.mapM narrowCode
    return .u16 narrowed
  | .u32 => return .u32 codes

/-- `StringDictionary::find`: the first position that holds the string. -/
def findCode (values : StringStorage) (needle : String) : Option U32 :=
  (List.range (values.offsets.length-1)).findSome? fun position =>
    if values.get position = some needle then toU32 position else none

structure DictionaryBuilder where
  lookup : List (String × U32)
  values : StringStorage
  deriving DecidableEq

namespace DictionaryBuilder

def new : DictionaryBuilder := ⟨[],.new⟩

def canIntern (d : DictionaryBuilder) (value : String) : Except DictionaryError Unit :=
  if (d.lookup.lookup value).isSome then .ok ()
  else do
    let _ ← codeWidthForCardinality (d.lookup.length+1)
    d.values.canPush value

def intern (d : DictionaryBuilder) (value : String) :
    Except DictionaryError (U32 × DictionaryBuilder) :=
  match d.lookup.lookup value with
  | some code => .ok (code,d)
  | none => do
    d.canIntern value
    match toU32 d.lookup.length with
    | none => throw .cardinalityOverflow
    | some code => do
      let values ← d.values.push value
      return (code,⟨d.lookup++[(value,code)],values⟩)

end DictionaryBuilder

structure NumericColumn (α : Type) where
  values : List α
  present : DocBitmap

structure DictionaryColumn where
  codes : DictionaryCodes
  dictionary : StringStorage
  present : DocBitmap

structure RawStringColumn where
  values : StringStorage
  present : DocBitmap

inductive Column where
  | u64 (column : NumericColumn U64)
  | id128 (column : NumericColumn DocId)
  | i64 (column : NumericColumn U64)
  | f64 (column : NumericColumn U64)
  | bool (column : NumericColumn U8)
  | dictionaryString (column : DictionaryColumn)
  | rawString (column : RawStringColumn)

def Column.columnType : Column → ColumnType
  | .id128 _ => .id128
  | .u64 _ => .u64
  | .i64 _ => .i64
  | .f64 _ => .f64
  | .bool _ => .bool
  | .dictionaryString _ => .dictionaryString
  | .rawString _ => .rawString

def Column.present : Column → DocBitmap
  | .id128 column | .i64 column | .u64 column | .f64 column | .bool column => column.present
  | .dictionaryString column => column.present
  | .rawString column => column.present

def NumericColumn.get {α : Type} (c : NumericColumn α) (row : U32) : Option α :=
  if row ∈ c.present then c.values[row.toNat]? else none

/-- `BoolColumn::get`. -/
def getBool (c : NumericColumn U8) (row : U32) : Option Bool := (c.get row).map fun byte => byte ≠ 0

def RawStringColumn.get (c : RawStringColumn) (row : U32) : Option String :=
  if row ∈ c.present then c.values.get row.toNat else none

def DictionaryCodes.width : DictionaryCodes → CodeWidth
  | .u16 _ => .u16
  | .u32 _ => .u32

structure ColumnStore where
  schema : Schema
  columns : List Column
  rowCount : U32

def ColumnStore.column (s : ColumnStore) (id : ColumnId) : Option Column :=
  (s.schema.columns.zip s.columns).findSome? fun entry =>
    if entry.1.id = id then some entry.2 else none

def ColumnStore.timestamp (s : ColumnStore) (row : U32) : Option U64 :=
  match s.column timestampColumn with
  | some (.i64 column) => if row ∈ column.present then column.values[row.toNat]? else none
  | _ => none

structure ColumnInput where
  column : ColumnId
  value : PredicateValue
  deriving DecidableEq

inductive BuildError where
  | unknownColumn (column : ColumnId)
  | duplicateColumn (column : ColumnId)
  | missingRequiredColumn (column : ColumnId)
  | timestampProvidedAsInput
  | typeMismatch (column : ColumnId) (expected actual : ColumnType)
  | tooManyRows
  | dictionary (error : DictionaryError)
  deriving DecidableEq

inductive BuilderColumn where
  | u64 (values : List U64) (present : DocBitmap)
  | id128 (values : List DocId) (present : DocBitmap)
  | i64 (values : List U64) (present : DocBitmap)
  | f64 (values : List U64) (present : DocBitmap)
  | bool (values : List U8) (present : DocBitmap)
  | dictionary (codes : List U32) (interner : DictionaryBuilder) (present : DocBitmap)
  | rawString (values : StringStorage) (present : DocBitmap)

namespace BuilderColumn

def new : ColumnType → BuilderColumn
  | .id128 => .id128 [] ∅
  | .u64 => .u64 [] ∅
  | .i64 => .i64 [] ∅
  | .f64 => .f64 [] ∅
  | .bool => .bool [] ∅
  | .dictionaryString => .dictionary [] .new ∅
  | .rawString => .rawString .new ∅

def columnType : BuilderColumn → ColumnType
  | .id128 .. => .id128
  | .u64 .. => .u64
  | .i64 .. => .i64
  | .f64 .. => .f64
  | .bool .. => .bool
  | .dictionary .. => .dictionaryString
  | .rawString .. => .rawString

def preflight : BuilderColumn → Option PredicateValue → Except DictionaryError Unit
  | .dictionary _ interner _,some (.string value) => interner.canIntern value
  | .rawString values _,some (.string value) => values.canPush value
  | .rawString values _,none => values.canPush ""
  | _,_ => .ok ()

/-- `u8::from(bool)`. -/
def boolByte (value : Bool) : U8 := if value then 1 else 0

/-- A null row keeps a placeholder in the array and is not in the bitmap. -/
def push (row : U32) (column : ColumnId) :
    BuilderColumn → Option PredicateValue → Except BuildError BuilderColumn
  | .id128 values present,some (.id128 value) => .ok (.id128 (values++[value]) (insert row present))
  | .id128 values present,none => .ok (.id128 (values++[0]) present)
  | .u64 values present,some (.u64 value) => .ok (.u64 (values++[value]) (insert row present))
  | .u64 values present,none => .ok (.u64 (values++[0]) present)
  | .i64 values present,some (.i64 value) => .ok (.i64 (values++[value]) (insert row present))
  | .i64 values present,none => .ok (.i64 (values++[0]) present)
  | .f64 values present,some (.f64 bits) => .ok (.f64 (values++[bits]) (insert row present))
  | .f64 values present,none => .ok (.f64 (values++[0]) present)
  | .bool values present,some (.bool value) =>
    .ok (.bool (values++[boolByte value]) (insert row present))
  | .bool values present,none => .ok (.bool (values++[0]) present)
  | .dictionary codes interner present,some (.string value) => do
    let interned ← Except.mapError .dictionary (interner.intern value)
    return .dictionary (codes++[interned.1]) interned.2 (insert row present)
  | .dictionary codes interner present,none => .ok (.dictionary (codes++[0]) interner present)
  | .rawString values present,some (.string value) => do
    let values ← Except.mapError .dictionary (values.push value)
    return .rawString values (insert row present)
  | .rawString values present,none => do
    let values ← Except.mapError .dictionary (values.push "")
    return .rawString values present
  | builder,some value => .error (.typeMismatch column builder.columnType (valueType value))

def finish : BuilderColumn → Except DictionaryError Column
  | .id128 values present => .ok (.id128 ⟨values,present⟩)
  | .u64 values present => .ok (.u64 ⟨values,present⟩)
  | .i64 values present => .ok (.i64 ⟨values,present⟩)
  | .f64 values present => .ok (.f64 ⟨values,present⟩)
  | .bool values present => .ok (.bool ⟨values,present⟩)
  | .dictionary codes interner present => do
    let codes ← DictionaryCodes.fromU32 codes interner.lookup.length
    return .dictionaryString ⟨codes,interner.values,present⟩
  | .rawString values present => .ok (.rawString ⟨values,present⟩)

end BuilderColumn

def compatibleWith : PredicateValue → ColumnType → Bool
  | .id128 _,.id128 | .u64 _,.u64 | .i64 _,.i64 | .f64 _,.f64 | .bool _,.bool => true
  | .string _,.dictionaryString | .string _,.rawString => true
  | _,_ => false

def findInput (inputs : List ColumnInput) (column : ColumnId) : Option ColumnInput :=
  inputs.find? fun input => input.column = column

structure MetaRow where
  timestamp : U64
  inputs : List ColumnInput
  deriving DecidableEq

def MetaRow.value (r : MetaRow) (column : ColumnId) : Option PredicateValue :=
  if column = timestampColumn then some (.i64 r.timestamp)
  else (findInput r.inputs column).map ColumnInput.value

structure ColumnStoreBuilder where
  schema : Schema
  columns : List BuilderColumn
  rowCount : U32

namespace ColumnStoreBuilder

def new (schema : Schema) : ColumnStoreBuilder :=
  ⟨schema,schema.columns.map fun definition => .new definition.columnType,0⟩

def validateInput (schema : Schema) (before : List ColumnInput) (input : ColumnInput) :
    Except BuildError Unit :=
  if input.column = timestampColumn then .error .timestampProvidedAsInput
  else if before.any fun candidate => candidate.column = input.column then
    .error (.duplicateColumn input.column)
  else match schema.column input.column with
    | none => .error (.unknownColumn input.column)
    | some definition =>
      if compatibleWith input.value definition.columnType then .ok ()
      else .error (.typeMismatch input.column definition.columnType (valueType input.value))

def validateEach (schema : Schema) : List ColumnInput → List ColumnInput → Except BuildError Unit
  | _,[] => .ok ()
  | before,input::inputs => do
    validateInput schema before input
    validateEach schema (before++[input]) inputs

def requireEach (inputs : List ColumnInput) : List ColumnDefinition → Except BuildError Unit
  | [] => .ok ()
  | definition::definitions =>
    if definition.id ≠ timestampColumn ∧ ¬ definition.nullable ∧
        (findInput inputs definition.id).isNone then
      .error (.missingRequiredColumn definition.id)
    else requireEach inputs definitions

def validateInputs (schema : Schema) (inputs : List ColumnInput) : Except BuildError Unit := do
  validateEach schema [] inputs
  requireEach inputs schema.columns

def preflightAll (r : MetaRow) : List (ColumnDefinition × BuilderColumn) → Except BuildError Unit
  | [] => .ok ()
  | (definition,builder)::rest => do
    Except.mapError .dictionary (builder.preflight (r.value definition.id))
    preflightAll r rest

def pushAll (row : U32) (r : MetaRow) :
    List (ColumnDefinition × BuilderColumn) → Except BuildError (List BuilderColumn)
  | [] => .ok []
  | (definition,builder)::rest => do
    let builder ← builder.push row definition.id (r.value definition.id)
    let rest ← pushAll row r rest
    return builder::rest

def pushRow (b : ColumnStoreBuilder) (r : MetaRow) : Except BuildError ColumnStoreBuilder :=
  if b.rowCount = BitVec.allOnes 32 then .error .tooManyRows
  else do
    validateInputs b.schema r.inputs
    preflightAll r (b.schema.columns.zip b.columns)
    let columns ← pushAll b.rowCount r (b.schema.columns.zip b.columns)
    return ⟨b.schema,columns,b.rowCount+1⟩

def finish (b : ColumnStoreBuilder) : Except BuildError ColumnStore := do
  let columns ← Except.mapError .dictionary (b.columns.mapM BuilderColumn.finish)
  return ⟨b.schema,columns,b.rowCount⟩

def build (schema : Schema) (rows : List MetaRow) : Except BuildError ColumnStore := do
  let b ← rows.foldlM pushRow (new schema)
  b.finish

end ColumnStoreBuilder

structure AliveSet where
  rowCount : U32
  alive : DocBitmap
  tombstones : DocBitmap
  alive_lt : ∀ row ∈ alive,row < rowCount

namespace AliveSet

def new (rowCount : U32) : AliveSet where
  rowCount := rowCount
  alive := fullBitmap rowCount
  tombstones := ∅
  alive_lt := by
    intro row hrow
    obtain ⟨n,hn,rfl⟩ := Finset.mem_image.mp hrow
    have hlt:=Finset.mem_range.mp hn
    have hbound:=rowCount.isLt
    rw [BitVec.lt_def,BitVec.toNat_ofNat,Nat.mod_eq_of_lt (by omega)]
    exact hlt

def tombstone (s : AliveSet) (document : U32) : Option (Bool × AliveSet) :=
  if document ≥ s.rowCount then none
  else if document ∈ s.alive then
    some (true,{ s with
      alive := s.alive.erase document
      tombstones := insert document s.tombstones
      alive_lt := fun row hrow => s.alive_lt row (Finset.mem_of_mem_erase hrow) })
  else some (false,s)

def retain (s : AliveSet) (rows : DocBitmap) : AliveSet where
  rowCount := s.rowCount
  alive := s.alive ∩ rows
  tombstones := s.tombstones ∪ (s.alive \ rows)
  alive_lt := fun row hrow => s.alive_lt row (Finset.mem_inter.mp hrow).1

end AliveSet

end Zeppelin.Meta
