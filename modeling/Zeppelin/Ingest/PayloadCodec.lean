import Zeppelin.Ingest.Payload
import Zeppelin.Machine.Except

namespace Zeppelin.Ingest
open List

theorem readBytes_append (xs ys : Bytes) (n : ℕ) (h : xs.length = n) :
    readBytes n (xs++ys) = .ok (xs,ys) := by
  subst h
  rw [readBytes,if_pos (by simp),take_left,drop_left]

theorem readField_append {w : ℕ} (n : ℕ) (hw : w = 8*n) (v : BitVec w) (ys : Bytes) :
    readField w n (toLe n v++ys) = .ok (v,ys) := by
  rw [readField,readBytes_append _ _ n (toLe_length n v)]
  simp only [ok_bind,ofLe_toLe n hw]
  rfl

@[simp] theorem readU8_append (v : U8) (ys : Bytes) : readU8 (toLe 1 v++ys) = .ok (v,ys) :=
  readField_append 1 rfl v ys

@[simp] theorem readU16_append (v : U16) (ys : Bytes) : readU16 (toLe 2 v++ys) = .ok (v,ys) :=
  readField_append 2 rfl v ys

@[simp] theorem readU32_append (v : U32) (ys : Bytes) : readU32 (toLe 4 v++ys) = .ok (v,ys) :=
  readField_append 4 rfl v ys

@[simp] theorem readU64_append (v : U64) (ys : Bytes) : readU64 (toLe 8 v++ys) = .ok (v,ys) :=
  readField_append 8 rfl v ys

@[simp] theorem readU128_append (v : U128) (ys : Bytes) :
    readU128 (toLe 16 v++ys) = .ok (v,ys) :=
  readField_append 16 rfl v ys

@[simp] theorem requireHeader_append (ys : Bytes) :
    requireHeader (appendHeader++ys) = .ok ys := by
  simp only [requireHeader,appendHeader,append_assoc,readU16_append,ok_bind]
  rfl

@[simp] theorem readVersion_append (v : DocumentVersion) (ys : Bytes) :
    readVersion (appendVersion v++ys) = .ok (v,ys) := by
  simp only [readVersion,appendVersion,append_assoc,readU128_append,readU64_append,ok_bind]
  rfl

@[simp] theorem finish_nil : finish [] = .ok () := rfl

theorem validateBatchPosition_ok {index count : U32}
    (h : validateBatchPosition index count = .ok ()) : 2 ≤ count.toNat ∧ index.toNat < count.toNat := by
  unfold validateBatchPosition at h
  obtain ⟨hpos,h⟩ := of_ite_error h
  rw [not_or] at hpos
  have h1 : ¬ count.toNat < 2 := hpos.1
  have h2 : ¬ count.toNat ≤ index.toNat := hpos.2
  omega

theorem decodeUpsertV2BatchMember_encode {index count : U32} {payload bytes : Bytes}
    {document : IngestDocument} (hdoc : decodeUpsertV2 payload = .ok document)
    (h : encodeUpsertV2BatchMember index count payload = .ok bytes) :
    decodeUpsertV2BatchMember bytes = .ok (index,count,document) := by
  obtain ⟨⟨⟩,hpos,rfl⟩ := bind_pure_eq_ok h
  simp only [decodeUpsertV2BatchMember,append_assoc,readU32_append,ok_bind,hpos,hdoc]
  rfl

section Envelope
variable (validateEnvelope : Bytes → Except GraphWalError Unit)

theorem decodeMixedBatchMember_encode {index count : U32} {op : U16} {inner bytes : Bytes}
    {mutation : MutationPayload} (hinner : decodePlain validateEnvelope op inner = .ok mutation)
    (h : encodeMixedBatchMember index count op inner = .ok bytes) :
    decodeMixedBatchMember validateEnvelope bytes =
      .ok (.mixedBatchMember index count op mutation) := by
  obtain ⟨⟨⟩,hpos,h⟩ := bind_eq_ok h
  obtain ⟨⟨⟩,hop,rfl⟩ := bind_pure_eq_ok h
  simp only [decodeMixedBatchMember,append_assoc,readU32_append,readU16_append,ok_bind,
    hpos,hop,hinner]
  rfl

end Envelope

theorem TransactionBinding.bytes_length (b : TransactionBinding) : b.bytes.length = 64 := by
  simp [TransactionBinding.bytes]

variable {b : TransactionBinding} {members : U32}

theorem TransactionBinding.decode_bytes
    (h : b.memberCount = .ok members) : TransactionBinding.decode b.bytes = .ok b := by
  have hend : toLe 8 b.finalGeneration = toLe 8 b.finalGeneration++[] := (append_nil _).symm
  simp only [TransactionBinding.decode,TransactionBinding.bytes,append_assoc]
  rw [hend]
  simp only [readU128_append,readU64_append,ok_bind,finish_nil,h]
  rfl

theorem TransactionBinding.memberCount_ok (h : b.memberCount = .ok members) :
    b.firstSeq.toNat ≤ b.lastSeq.toNat ∧
      members.toNat = b.lastSeq.toNat-b.firstSeq.toNat+1 := by
  unfold TransactionBinding.memberCount at h
  obtain ⟨-,h⟩ := of_ite_error h
  split at h
  · rename_i hrange
    obtain rfl := Except.ok.inj h
    refine ⟨hrange.1,?_⟩
    rw [BitVec.toNat_ofNat]
    exact Nat.mod_eq_of_lt hrange.2
  · cases h

section Envelope
variable {validateEnvelope : Bytes → Except GraphWalError Unit} {binding : TransactionBinding}
  {index count : U32} {op : U16} {body bytes : Bytes}

theorem encodePrepared_ok
    (h : encodePrepared validateEnvelope binding index count op body = .ok bytes) :
    binding.memberCount = .ok count ∧ index.toNat < count.toNat ∧
      (∃ mutation,standaloneMutation validateEnvelope op body = .ok mutation) ∧
      bytes = appendHeader++binding.bytes++toLe 4 index++toLe 4 count++toLe 2 op++body := by
  obtain ⟨members,hmembers,h⟩ := bind_eq_ok h
  split at h
  · cases h
  · rename_i hpos
    rw [not_or,not_not] at hpos
    obtain ⟨rfl,hlt⟩ := hpos
    obtain ⟨mutation,hmut,h⟩ := bind_eq_ok h
    obtain ⟨evidence,hev,h⟩ := bind_eq_ok h
    obtain ⟨-,-,rfl⟩ := bind_pure_eq_ok hev
    have hidx : ¬ count.toNat ≤ index.toNat := hlt
    exact ⟨hmembers,by omega,⟨mutation,hmut⟩,(Except.ok.inj h).symm⟩

theorem decodePrepared_encode {mutation : MutationPayload}
    (hmut : standaloneMutation validateEnvelope op body = .ok mutation)
    (h : encodePrepared validateEnvelope binding index count op body = .ok bytes) :
    decodePrepared validateEnvelope bytes = .ok ⟨binding,index,count,op,mutation⟩ := by
  obtain ⟨hcount,hidx,-,rfl⟩ := encodePrepared_ok h
  have hpos : ¬ (count ≠ count ∨ index ≥ count) := by
    rintro (hne | hge)
    · exact hne rfl
    · have hle : count.toNat ≤ index.toNat := hge
      omega
  simp only [decodePrepared,append_assoc,requireHeader_append,ok_bind,
    readBytes_append _ _ 64 binding.bytes_length,TransactionBinding.decode_bytes hcount,
    readU32_append,readU16_append,hcount,if_neg hpos,hmut]
  rfl

end Envelope

theorem lengthField_ok {n : ℕ} {length : U32} (h : lengthField n = .ok length) :
    n < 2^32 ∧ length = BitVec.ofNat 32 n := by
  unfold lengthField at h
  split at h
  · rename_i hlt
    exact ⟨hlt,(Except.ok.inj h).symm⟩
  · cases h

variable {encoded : Bytes} {vector : List U32}

theorem readLengthPrefixed_append {bytes : Bytes} (h : appendLengthPrefixed bytes = .ok encoded)
    (ys : Bytes) : readLengthPrefixed (encoded++ys) = .ok (bytes,ys) := by
  obtain ⟨length,hlength,hencoded⟩ := bind_eq_ok h
  obtain ⟨hlt,rfl⟩ := lengthField_ok hlength
  obtain rfl := Except.ok.inj hencoded
  have hnat : (BitVec.ofNat 32 bytes.length).toNat = bytes.length := by
    rw [BitVec.toNat_ofNat,Nat.mod_eq_of_lt hlt]
  simp only [readLengthPrefixed,append_assoc,readU32_append,ok_bind,hnat]
  exact readBytes_append _ _ _ rfl

theorem readString_append {s : String}
    (h : appendLengthPrefixed (utf8Bytes s) = .ok encoded) (ys : Bytes) :
    readString (encoded++ys) = .ok (s,ys) := by
  simp only [readString,readLengthPrefixed_append h,ok_bind,fromUtf8_utf8Bytes]
  rfl

theorem validateVector_ok (h : validateVector vector = .ok ()) :
    vector ≠ [] ∧ ∀ v ∈ vector,isFinite v = true := by
  unfold validateVector at h
  obtain ⟨hne,h⟩ := of_ite_error h
  refine ⟨hne,?_⟩
  cases hfind : vector.findIdx? (fun v => !isFinite v) with
  | some index => rw [hfind] at h; cases h
  | none =>
    intro v hv
    simpa using (findIdx?_eq_none_iff.mp hfind) v hv

theorem decodeCoordinates_append (h : ∀ v ∈ vector,isFinite v = true) (index : ℕ) (ys : Bytes) :
    decodeCoordinates vector.length index (vectorBytes vector++ys) = .ok (vector,ys) := by
  induction vector generalizing index with
  | nil => rfl
  | cons v vector ih =>
    have hfinite:=h v (mem_cons_self ..)
    have hrest:=ih (fun v hv => h v (mem_cons_of_mem _ hv)) (index+1)
    simp only [vectorBytes] at hrest
    simp only [length_cons,decodeCoordinates,vectorBytes,flatMap_cons,
      append_assoc,readU32_append,ok_bind,hfinite,hrest]
    rfl

theorem readVector_append {dims : U32} (hvalid : validateVector vector = .ok ())
    (hdims : lengthField vector.length = .ok dims) (ys : Bytes) :
    readVector (toLe 4 dims++(vectorBytes vector++ys)) = .ok (vector,ys) := by
  obtain ⟨hne,hfinite⟩ := validateVector_ok hvalid
  obtain ⟨hlt,rfl⟩ := lengthField_ok hdims
  have hnat : (BitVec.ofNat 32 vector.length).toNat = vector.length := by
    rw [BitVec.toNat_ofNat,Nat.mod_eq_of_lt hlt]
  have hpos : vector.length ≠ 0 := fun hzero => hne (length_eq_zero_iff.mp hzero)
  simp only [readVector,readU32_append,ok_bind,hnat,if_neg hpos]
  exact decodeCoordinates_append hfinite 0 ys

theorem requireValueLen_toLe (kind : U8) {w : ℕ} (n : ℕ) (v : BitVec w) :
    requireValueLen kind (toLe n v) n = .ok () := by
  rw [requireValueLen,toLe_length,if_pos rfl]

theorem decodeMetadataValue_encode {value : PredicateValue} {kind : U8} {body : Bytes}
    (h : encodeMetadataValue (predicateToMetadata value) = .ok (kind,body)) :
    decodeMetadataValue kind body = .ok (predicateToMetadata value) := by
  cases value with
  | id128 value =>
    obtain ⟨rfl,rfl⟩ := Prod.mk.inj (Except.ok.inj h)
    simp [decodeMetadataValue,requireValueLen_toLe,predicateToMetadata]
  | u64 value | i64 value | f64 value =>
    obtain ⟨rfl,rfl⟩ := Prod.mk.inj (Except.ok.inj h)
    simp [decodeMetadataValue,requireValueLen_toLe,predicateToMetadata]
  | bool value =>
    obtain ⟨rfl,rfl⟩ := Prod.mk.inj (Except.ok.inj h)
    cases value <;> rfl
  | string value =>
    obtain ⟨length,-,h⟩ := bind_eq_ok h
    obtain ⟨rfl,rfl⟩ := Prod.mk.inj (Except.ok.inj h)
    simp [decodeMetadataValue,predicateToMetadata]

theorem metadataToPredicate_predicate (value : PredicateValue) :
    metadataToPredicate (predicateToMetadata value) = .ok value := by
  cases value <;> rfl

theorem decodeTypedColumn_append {column : ColumnId × PredicateValue}
    (h : encodeTypedColumn column = .ok encoded) (ys : Bytes) :
    decodeTypedColumn (encoded++ys) = .ok (column,ys) := by
  obtain ⟨⟨kind,body⟩,hvalue,h⟩ := bind_eq_ok h
  obtain ⟨framed,hbody,rfl⟩ := bind_pure_eq_ok h
  have hkind (zs : Bytes) : readU8 (kind::zs) = .ok (kind,zs) := by
    have hone : toLe 1 kind = [kind] := by
      simp [toLe,leBytes]
    rw [← singleton_append,← hone,readU8_append]
  have hreserved (zs : Bytes) : readU24 (0::0::0::zs) = .ok (0,zs) := rfl
  simp only [decodeTypedColumn,append_assoc,readU32_append,ok_bind,cons_append,
    nil_append,hkind,hreserved,readLengthPrefixed_append hbody,
    decodeMetadataValue_encode hvalue,metadataToPredicate_predicate]
  rfl

variable {columns : List (ColumnId × PredicateValue)} {payload : Bytes}

theorem decodeTypedColumnList_append
    (h : encodeTypedColumnList columns = .ok encoded) (ys : Bytes) :
    decodeTypedColumnList columns.length (encoded++ys) = .ok (columns,ys) := by
  induction columns generalizing encoded with
  | nil =>
    obtain rfl := Except.ok.inj h
    rfl
  | cons column columns ih =>
    obtain ⟨first,hfirst,h⟩ := bind_eq_ok h
    obtain ⟨rest,hrest,rfl⟩ := bind_pure_eq_ok h
    simp only [length_cons,decodeTypedColumnList,append_assoc,
      decodeTypedColumn_append hfirst,ok_bind,ih hrest]
    rfl

theorem decodeTypedColumns_append (h : encodeColumnValues columns = .ok encoded) (ys : Bytes) :
    decodeTypedColumns (encoded++ys) = .ok (columns,ys) := by
  obtain ⟨count,hcount,h⟩ := bind_eq_ok h
  obtain ⟨entries,hentries,rfl⟩ := bind_pure_eq_ok h
  obtain ⟨hlt,rfl⟩ := lengthField_ok hcount
  have hnat : (BitVec.ofNat 32 columns.length).toNat = columns.length := by
    rw [BitVec.toNat_ofNat,Nat.mod_eq_of_lt hlt]
  simp only [decodeTypedColumns,append_assoc,readU32_append,ok_bind,hnat]
  exact decodeTypedColumnList_append hentries ys

theorem readOptional_append {α : Type} {encode : α → Except PayloadError Bytes}
    {read : Bytes → Except PayloadError (α × Bytes)} {bitmap bit : U32} {value : Option α}
    (hbit : bitmap &&& bit ≠ 0 ↔ value.isSome = true) (h : optionalField encode value = .ok encoded)
    (hread : ∀ a,encode a = .ok encoded → ∀ ys,read (encoded++ys) = .ok (a,ys)) (ys : Bytes) :
    readOptional bitmap bit read (encoded++ys) = .ok (value,ys) := by
  cases value with
  | none =>
    obtain rfl := Except.ok.inj h
    have hclear : ¬ bitmap &&& bit ≠ 0 := fun hset => by cases hbit.mp hset
    rw [readOptional,if_neg hclear]
    rfl
  | some a =>
    rw [readOptional,if_pos (hbit.mpr rfl),hread a h,ok_bind]
    rfl

theorem upsertV2Bitmap_spec (d : IngestDocument) :
    upsertV2Bitmap d &&& ~~~upsertV2KnownFields = 0 ∧
      upsertV2Bitmap d &&& upsertV2Vector ≠ 0 ∧
      (upsertV2Bitmap d &&& upsertV2Text ≠ 0 ↔ d.text.isSome = true) ∧
      (upsertV2Bitmap d &&& upsertV2Timestamp ≠ 0 ↔ d.timestamp?.isSome = true) ∧
      (upsertV2Bitmap d &&& upsertV2Metadata ≠ 0 ↔ d.metadata?.isSome = true) ∧
      (upsertV2Bitmap d &&& upsertV2TypedColumns ≠ 0 ↔ d.columns?.isSome = true) := by
  unfold upsertV2Bitmap
  generalize d.text.isSome = text
  generalize d.timestamp?.isSome = timestamp
  generalize d.metadata?.isSome = metadata
  generalize d.columns?.isSome = columns
  revert text timestamp metadata columns
  decide

theorem decodeUpsertV2_encode {d : IngestDocument}
    (h : encodeUpsertV2 d = .ok payload) : decodeUpsertV2 payload = .ok d.persisted := by
  obtain ⟨⟨⟩,hvector,h⟩ := bind_eq_ok h
  obtain ⟨dims,hdims,h⟩ := bind_eq_ok h
  obtain ⟨text,htext,h⟩ := bind_eq_ok h
  obtain ⟨timestamp,htimestamp,h⟩ := bind_eq_ok h
  obtain ⟨metadata,hmetadata,h⟩ := bind_eq_ok h
  obtain ⟨columns,hcolumns,rfl⟩ := bind_pure_eq_ok h
  obtain ⟨hreserved,hbit,htextBit,htimestampBit,hmetadataBit,hcolumnsBit⟩ :=
    upsertV2Bitmap_spec d
  have hreadVector (ys : Bytes) : readOptional (upsertV2Bitmap d) upsertV2Vector readVector
      (toLe 4 dims++(vectorBytes d.vector++ys)) = .ok (some d.vector,ys) := by
    rw [readOptional,if_pos hbit,readVector_append hvector hdims,ok_bind]
    rfl
  have hreadText:=readOptional_append htextBit htext
    fun s hs => readString_append hs
  have hreadTimestamp:=readOptional_append htimestampBit htimestamp
    fun t ht ys => (congrArg (fun bytes => readU64 (bytes++ys)) (Except.ok.inj ht).symm).trans
      (readU64_append t ys)
  have hreadMetadata:=readOptional_append hmetadataBit hmetadata
    fun m hm => readLengthPrefixed_append hm
  have hreadColumns:=readOptional_append hcolumnsBit hcolumns
    fun c hc => decodeTypedColumns_append hc
  have hend : columns = columns++[] := (append_nil _).symm
  rw [hend]
  simp only [decodeUpsertV2,append_assoc,readU32_append,ok_bind,hreserved,
    readVersion_append,hreadVector,hreadText,hreadTimestamp,hreadMetadata,hreadColumns,
    finish_nil]
  rfl

theorem decodeIds_append (docIds : List DocId) (ys : Bytes) :
    decodeIds docIds.length (docIds.flatMap (toLe 16)++ys) = .ok (docIds,ys) := by
  induction docIds with
  | nil => rfl
  | cons docId docIds ih =>
    simp only [length_cons,decodeIds,flatMap_cons,append_assoc,readU128_append,
      ok_bind,ih]
    rfl

theorem decodeDelete_encode {docIds : List DocId}
    (h : encodeDelete docIds = .ok payload) : decodeDelete payload = .ok docIds := by
  unfold encodeDelete at h
  obtain ⟨hne,h⟩ := of_ite_error h
  obtain ⟨count,hcount,rfl⟩ := bind_pure_eq_ok h
  obtain ⟨hlt,rfl⟩ := lengthField_ok hcount
  have hnat : (BitVec.ofNat 32 docIds.length).toNat = docIds.length := by
    rw [BitVec.toNat_ofNat,Nat.mod_eq_of_lt hlt]
  have hpos : docIds.length ≠ 0 := fun hzero => hne (length_eq_zero_iff.mp hzero)
  have hids:=decodeIds_append docIds []
  rw [append_nil] at hids
  have hremaining : requireRemaining (docIds.length*16) (docIds.flatMap (toLe 16)) = .ok () := by
    have hlen : (docIds.flatMap (toLe 16)).length = docIds.length*16 := by simp
    rw [requireRemaining,hlen,if_neg (Nat.lt_irrefl _)]
  simp only [decodeDelete,append_assoc,requireHeader_append,ok_bind,readU32_append,hnat,
    if_neg hpos,hremaining,hids,finish_nil]
  rfl

end Zeppelin.Ingest
