import Zeppelin.Bytes.Text

/-! ingest/mod.rs, meta/predicate.rs, quant.rs: Floating-point values are their bit
patterns. -/

namespace Zeppelin.Ingest

abbrev DocId := U128

instance docIdLawful : LawfulBEq DocId := inferInstance
abbrev Revision := U64
abbrev ColumnId := U32

structure DocumentVersion where
  docId : DocId
  revision : Revision
  deriving DecidableEq

inductive PredicateValue where
  | u64 (value : U64)
  | id128 (value : DocId)
  | i64 (value : U64)
  | f64 (bits : U64)
  | bool (value : Bool)
  | string (value : String)
  deriving DecidableEq

inductive ExpectedRevision where
  | exactly (revision : Revision)
  | absent
  deriving DecidableEq

structure IngestDocument where
  version : DocumentVersion
  expectedRevision : Option ExpectedRevision
  vector : List U32
  timestamp? : Option U64
  metadata? : Option Bytes
  text : Option String
  columns? : Option (List (ColumnId × PredicateValue))
  deriving DecidableEq

namespace IngestDocument

def new (version : DocumentVersion) (vector : List U32) : IngestDocument :=
  ⟨version,none,vector,none,none,none,none⟩

def timestamp (d : IngestDocument) : U64 := d.timestamp?.getD 0

def metadata (d : IngestDocument) : Bytes := d.metadata?.getD []

def columns (d : IngestDocument) : List (ColumnId × PredicateValue) := d.columns?.getD []

/-- The document as a WAL record carries it: the live-revision condition is not
persisted. -/
def persisted (d : IngestDocument) : IngestDocument := { d with expectedRevision := none }

end IngestDocument

inductive QuantError where
  | allocation
  | emptyVector
  | dimensionTooLarge (actual maximum : ℕ)
  | nonFinite (index : ℕ)
  | nonUnitNorm (squaredNormBits toleranceBits : U64)
  | outputLength (expected actual : ℕ)
  | codeLength (expected actual : ℕ)
  | nonZeroPadding (byte mask : U8)
  deriving DecidableEq

structure Bit4Factors where
  scale : U32
  normalizedNorm : U32
  normalizedCorrection : U32
  deriving DecidableEq

/-- `f32::is_finite` on the bit pattern: the exponent is not all ones. -/
def isFinite (bits : U32) : Bool := bits.toNat / 2^23 % 256 ≠ 255

end Zeppelin.Ingest
