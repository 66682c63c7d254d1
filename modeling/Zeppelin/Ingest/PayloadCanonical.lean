import Zeppelin.Ingest.PayloadCodec

namespace Zeppelin.Ingest
open List

theorem readBytes_ok {n : ℕ} {bytes field rest : Bytes}
    (h : readBytes n bytes = .ok (field,rest)) : bytes = field++rest ∧ field.length = n := by
  unfold readBytes at h
  split_ifs at h with hle
  obtain ⟨rfl,rfl⟩ := Prod.mk.inj (Except.ok.inj h)
  exact ⟨(take_append_drop ..).symm,length_take_of_le hle⟩

theorem readField_ok {w n : ℕ} (hw : w = 8*n) {bytes rest : Bytes} {v : BitVec w}
    (h : readField w n bytes = .ok (v,rest)) : bytes = toLe n v++rest := by
  obtain ⟨⟨field,tail⟩,hfield,h⟩ := bind_eq_ok h
  obtain ⟨rfl,rfl⟩ := Prod.mk.inj (Except.ok.inj h)
  obtain ⟨hbytes,hlen⟩ := readBytes_ok hfield
  rw [toLe_ofLe n hw field hlen]
  exact hbytes

section Words
variable {bytes rest : Bytes}

theorem readU8_ok {v : U8} (h : readU8 bytes = .ok (v,rest)) : bytes = [v]++rest := by
  rw [readField_ok (n := 1) rfl h]
  simp [toLe,leBytes]

theorem readU16_ok {v : U16} (h : readU16 bytes = .ok (v,rest)) : bytes = toLe 2 v++rest :=
  readField_ok (n := 2) rfl h

theorem readU32_ok {v : U32} (h : readU32 bytes = .ok (v,rest)) : bytes = toLe 4 v++rest :=
  readField_ok (n := 4) rfl h

theorem readU64_ok {v : U64} (h : readU64 bytes = .ok (v,rest)) : bytes = toLe 8 v++rest :=
  readField_ok (n := 8) rfl h

theorem readU128_ok {v : U128} (h : readU128 bytes = .ok (v,rest)) : bytes = toLe 16 v++rest :=
  readField_ok (n := 16) rfl h

theorem readU24_zero (h : readU24 bytes = .ok (0,rest)) : bytes = [0,0,0]++rest := by
  obtain ⟨⟨field,tail⟩,hfield,h⟩ := bind_eq_ok h
  obtain ⟨hzero,rfl⟩ := Prod.mk.inj (Except.ok.inj h)
  obtain ⟨hbytes,hlen⟩ := readBytes_ok hfield
  have hlt : leNat field < 2^32 := by
    have hbound:=leNat_lt field
    rw [hlen] at hbound
    omega
  have hnat : leNat field = 0 := by
    have htoNat:=congrArg BitVec.toNat hzero
    rw [ofLe,BitVec.toNat_ofNat,Nat.mod_eq_of_lt hlt] at htoNat
    exact htoNat
  have hzeros:=leBytes_leNat field
  rw [hnat,hlen] at hzeros
  rw [hbytes,← hzeros]
  rfl

theorem requireHeader_ok (h : requireHeader bytes = .ok rest) : bytes = appendHeader++rest := by
  obtain ⟨⟨version,tail⟩,hversion,h⟩ := bind_eq_ok h
  simp only at h
  obtain ⟨hone,h⟩ := of_ite_ne_error h
  obtain ⟨⟨flags,more⟩,hflags,h⟩ := bind_eq_ok h
  simp only at h
  obtain ⟨hzero,h⟩ := of_ite_ne_error h
  obtain rfl := Except.ok.inj h
  rw [readU16_ok hversion,readU16_ok hflags,hone,hzero,appendHeader,append_assoc]

theorem readVersion_ok {v : DocumentVersion} (h : readVersion bytes = .ok (v,rest)) :
    bytes = appendVersion v++rest := by
  obtain ⟨⟨docId,tail⟩,hdocId,h⟩ := bind_eq_ok h
  obtain ⟨⟨revision,more⟩,hrevision,h⟩ := bind_eq_ok h
  obtain ⟨rfl,rfl⟩ := Prod.mk.inj (Except.ok.inj h)
  rw [readU128_ok hdocId,readU64_ok hrevision,appendVersion,append_assoc]

theorem finish_ok (h : finish bytes = .ok ()) : bytes = [] := by
  unfold finish at h
  split_ifs at h with hzero
  exact length_eq_zero_iff.mp hzero

theorem lengthField_toNat {v : U32} {n : ℕ} (h : n = v.toNat) : lengthField n = .ok v := by
  subst h
  rw [lengthField,if_pos v.isLt,BitVec.ofNat_toNat,BitVec.setWidth_eq]

theorem readLengthPrefixed_ok {body : Bytes} (h : readLengthPrefixed bytes = .ok (body,rest)) :
    ∃ encoded,appendLengthPrefixed body = .ok encoded ∧ bytes = encoded++rest := by
  obtain ⟨⟨length,tail⟩,hlength,h⟩ := bind_eq_ok h
  obtain ⟨htail,hlen⟩ := readBytes_ok h
  refine ⟨toLe 4 length++body,?_,?_⟩
  · rw [appendLengthPrefixed,lengthField_toNat hlen]
    rfl
  · rw [readU32_ok hlength,htail,append_assoc]

theorem readString_ok {s : String} (h : readString bytes = .ok (s,rest)) :
    ∃ encoded,appendLengthPrefixed (utf8Bytes s) = .ok encoded ∧ bytes = encoded++rest := by
  obtain ⟨⟨body,tail⟩,hbody,h⟩ := bind_eq_ok h
  simp only at h
  split at h
  · rename_i text htext
    obtain ⟨rfl,rfl⟩ := Prod.mk.inj (Except.ok.inj h)
    rw [utf8Bytes_of_fromUtf8 htext]
    exact readLengthPrefixed_ok hbody
  · cases h

end Words

variable {kind : U8} {body : Bytes} {value : MetadataValue}

theorem requireValueLen_ok {n : ℕ}
    (h : requireValueLen kind body n = .ok ()) : body.length = n := by
  unfold requireValueLen at h
  split_ifs at h with hlen
  exact hlen

theorem fixedValue_ok {n w : ℕ} (hw : w = 8*n) {make : BitVec w → MetadataValue}
    (h : (do requireValueLen kind body n; return make (ofLe w body)) = Except.ok value) :
    value = make (ofLe w body) ∧ toLe n (ofLe w body) = body := by
  obtain ⟨⟨⟩,hlen,rfl⟩ := bind_pure_eq_ok h
  exact ⟨rfl,toLe_ofLe n hw body (requireValueLen_ok hlen)⟩

theorem decodeMetadataValue_ok
    (h : decodeMetadataValue kind body = .ok value) (hlen : body.length < 2^32) :
    encodeMetadataValue value = .ok (kind,body) := by
  unfold decodeMetadataValue at h
  by_cases h0 : kind = 0
  · rw [if_pos h0] at h
    obtain ⟨⟨⟩,hzero,rfl⟩ := bind_pure_eq_ok h
    rw [length_eq_zero_iff.mp (requireValueLen_ok hzero),h0]
    rfl
  rw [if_neg h0] at h
  by_cases h6 : kind = 6
  · rw [if_pos h6] at h
    obtain ⟨rfl,hbody⟩ := fixedValue_ok rfl h
    rw [encodeMetadataValue,hbody,h6]
  rw [if_neg h6] at h
  by_cases h1 : kind = 1
  · rw [if_pos h1] at h
    obtain ⟨rfl,hbody⟩ := fixedValue_ok rfl h
    rw [encodeMetadataValue,hbody,h1]
  rw [if_neg h1] at h
  by_cases h2 : kind = 2
  · rw [if_pos h2] at h
    obtain ⟨rfl,hbody⟩ := fixedValue_ok rfl h
    rw [encodeMetadataValue,hbody,h2]
  rw [if_neg h2] at h
  by_cases h3 : kind = 3
  · rw [if_pos h3] at h
    obtain ⟨rfl,hbody⟩ := fixedValue_ok rfl h
    rw [encodeMetadataValue,hbody,h3]
  rw [if_neg h3] at h
  by_cases h4 : kind = 4
  · rw [if_pos h4] at h
    obtain ⟨⟨⟩,hone,h⟩ := bind_eq_ok h
    match body,requireValueLen_ok hone,h with
    | [v],_,h =>
      simp only at h
      split_ifs at h with hfalse htrue
      · rw [← Except.ok.inj h,h4,hfalse]
        rfl
      · rw [← Except.ok.inj h,h4,htrue]
        rfl
  rw [if_neg h4] at h
  by_cases h5 : kind = 5
  · rw [if_pos h5] at h
    split at h
    · rename_i text htext
      obtain rfl := Except.ok.inj h
      have hutf8:=utf8Bytes_of_fromUtf8 htext
      rw [encodeMetadataValue,hutf8,lengthField,if_pos hlen,ok_bind,h5]
      rfl
    · cases h
  rw [if_neg h5] at h
  cases h

theorem metadataToPredicate_ok {predicate : PredicateValue}
    (h : metadataToPredicate value = .ok predicate) : predicateToMetadata predicate = value := by
  cases value with
  | null => cases h
  | _ => rw [← Except.ok.inj h]; rfl

theorem appendLengthPrefixed_length {encoded : Bytes}
    (h : appendLengthPrefixed body = .ok encoded) : body.length < 2^32 := by
  obtain ⟨length,hlength,-⟩ := bind_eq_ok h
  exact (lengthField_ok hlength).1

section Lists
variable {bytes rest : Bytes} {n : ℕ} {vector : List U32}
  {columns : List (ColumnId × PredicateValue)}

theorem decodeCoordinates_ok {index : ℕ}
    (h : decodeCoordinates n index bytes = .ok (vector,rest)) :
    bytes = vectorBytes vector++rest ∧ vector.length = n ∧ ∀ v ∈ vector,isFinite v = true := by
  induction n generalizing bytes index vector with
  | zero =>
    obtain ⟨rfl,rfl⟩ := Prod.mk.inj (Except.ok.inj h)
    exact ⟨rfl,rfl,fun v hv => nomatch hv⟩
  | succ n ih =>
    obtain ⟨⟨value,tail⟩,hvalue,h⟩ := bind_eq_ok h
    simp only at h
    by_cases hfinite : isFinite value = true
    · rw [if_neg (by rw [hfinite]; decide)] at h
      obtain ⟨⟨others,more⟩,hothers,h⟩ := bind_eq_ok h
      obtain ⟨rfl,rfl⟩ := Prod.mk.inj (Except.ok.inj h)
      obtain ⟨htail,hlen,hall⟩ := ih hothers
      refine ⟨?_,by rw [length_cons,hlen],?_⟩
      · rw [readU32_ok hvalue,htail,vectorBytes,vectorBytes,flatMap_cons,
          append_assoc]
      · intro v hv
        rcases mem_cons.mp hv with rfl | hv
        · exact hfinite
        · exact hall v hv
    · rw [if_pos (by simpa using hfinite)] at h
      cases h

theorem validateVector_of_finite (hne : vector ≠ [])
    (h : ∀ v ∈ vector,isFinite v = true) : validateVector vector = .ok () := by
  have hnone : vector.findIdx? (fun v => !isFinite v) = none := by
    rw [findIdx?_eq_none_iff]
    intro v hv
    rw [h v hv]
    rfl
  rw [validateVector,if_neg hne,hnone]

theorem readVector_ok (h : readVector bytes = .ok (vector,rest)) :
    ∃ dims,lengthField vector.length = .ok dims ∧ validateVector vector = .ok () ∧
      bytes = toLe 4 dims++(vectorBytes vector++rest) := by
  obtain ⟨⟨dims,tail⟩,hdims,h⟩ := bind_eq_ok h
  simp only at h
  by_cases hzero : dims.toNat = 0
  · rw [if_pos hzero] at h
    cases h
  · rw [if_neg hzero] at h
    obtain ⟨htail,hlen,hfinite⟩ := decodeCoordinates_ok h
    refine ⟨dims,lengthField_toNat hlen,validateVector_of_finite ?_ hfinite,?_⟩
    · rintro rfl
      exact hzero hlen.symm
    · rw [readU32_ok hdims,htail]

theorem decodeTypedColumn_ok {column : ColumnId × PredicateValue}
    (h : decodeTypedColumn bytes = .ok (column,rest)) :
    ∃ encoded,encodeTypedColumn column = .ok encoded ∧ bytes = encoded++rest := by
  obtain ⟨⟨id,b1⟩,hid,h⟩ := bind_eq_ok h
  obtain ⟨⟨kind,b2⟩,hkind,h⟩ := bind_eq_ok h
  obtain ⟨⟨reserved,b3⟩,hreserved,h⟩ := bind_eq_ok h
  simp only at h
  obtain ⟨hzero,h⟩ := of_ite_ne_error h
  obtain ⟨⟨body,b4⟩,hbody,h⟩ := bind_eq_ok h
  obtain ⟨value,hvalue,h⟩ := bind_eq_ok h
  obtain ⟨predicate,hpredicate,h⟩ := bind_eq_ok h
  obtain ⟨rfl,rfl⟩ := Prod.mk.inj (Except.ok.inj h)
  subst hzero
  obtain ⟨framed,hframed,hb3⟩ := readLengthPrefixed_ok hbody
  have hencoded:=decodeMetadataValue_ok hvalue (appendLengthPrefixed_length hframed)
  refine ⟨toLe 4 id++[kind]++[0,0,0]++framed,?_,?_⟩
  · rw [encodeTypedColumn,metadataToPredicate_ok hpredicate,hencoded,ok_bind]
    simp only
    rw [hframed]
    rfl
  · rw [readU32_ok hid,readU8_ok hkind,readU24_zero hreserved,hb3]
    simp only [append_assoc]

theorem decodeTypedColumnList_ok (h : decodeTypedColumnList n bytes = .ok (columns,rest)) :
    columns.length = n ∧
      ∃ encoded,encodeTypedColumnList columns = .ok encoded ∧ bytes = encoded++rest := by
  induction n generalizing bytes columns with
  | zero =>
    obtain ⟨rfl,rfl⟩ := Prod.mk.inj (Except.ok.inj h)
    exact ⟨rfl,[],rfl,rfl⟩
  | succ n ih =>
    obtain ⟨⟨column,tail⟩,hcolumn,h⟩ := bind_eq_ok h
    obtain ⟨⟨others,more⟩,hothers,h⟩ := bind_eq_ok h
    obtain ⟨rfl,rfl⟩ := Prod.mk.inj (Except.ok.inj h)
    obtain ⟨first,hfirst,hbytes⟩ := decodeTypedColumn_ok hcolumn
    obtain ⟨hlen,encoded,hencoded,htail⟩ := ih hothers
    refine ⟨by rw [length_cons,hlen],first++encoded,?_,?_⟩
    · rw [encodeTypedColumnList,hfirst,ok_bind,hencoded]
      rfl
    · rw [hbytes,htail,append_assoc]

theorem decodeTypedColumns_ok (h : decodeTypedColumns bytes = .ok (columns,rest)) :
    ∃ encoded,encodeColumnValues columns = .ok encoded ∧ bytes = encoded++rest := by
  obtain ⟨⟨count,tail⟩,hcount,h⟩ := bind_eq_ok h
  obtain ⟨hlen,encoded,hencoded,htail⟩ := decodeTypedColumnList_ok h
  refine ⟨toLe 4 count++encoded,?_,?_⟩
  · rw [encodeColumnValues,lengthField_toNat hlen,ok_bind,hencoded]
    rfl
  · rw [readU32_ok hcount,htail,append_assoc]

theorem readOptional_ok {α : Type} {encode : α → Except PayloadError Bytes}
    {read : Bytes → Except PayloadError (α × Bytes)} {bitmap bit : U32} {value : Option α}
    (hread : ∀ bytes rest a,read bytes = .ok (a,rest) →
      ∃ encoded,encode a = .ok encoded ∧ bytes = encoded++rest)
    (h : readOptional bitmap bit read bytes = .ok (value,rest)) :
    (value.isSome = true ↔ bitmap &&& bit ≠ 0) ∧
      ∃ encoded,optionalField encode value = .ok encoded ∧ bytes = encoded++rest := by
  unfold readOptional at h
  split_ifs at h with hbit
  · obtain ⟨⟨a,tail⟩,ha,h⟩ := bind_eq_ok h
    obtain ⟨rfl,rfl⟩ := Prod.mk.inj (Except.ok.inj h)
    exact ⟨⟨fun _ => hbit,fun _ => rfl⟩,hread _ _ _ ha⟩
  · obtain ⟨rfl,rfl⟩ := Prod.mk.inj (Except.ok.inj h)
    exact ⟨⟨(fun h => nomatch h),fun h => absurd h hbit⟩,[],rfl,rfl⟩

end Lists

theorem bitmap_flags {bitmap : U32} (h : bitmap &&& ~~~upsertV2KnownFields = 0) :
    bitmap = (if bitmap &&& upsertV2Vector ≠ 0 then upsertV2Vector else 0) |||
      (if bitmap &&& upsertV2Text ≠ 0 then upsertV2Text else 0) |||
      (if bitmap &&& upsertV2Timestamp ≠ 0 then upsertV2Timestamp else 0) |||
      (if bitmap &&& upsertV2Metadata ≠ 0 then upsertV2Metadata else 0) |||
      (if bitmap &&& upsertV2TypedColumns ≠ 0 then upsertV2TypedColumns else 0) := by
  have hknown : bitmap = bitmap &&& upsertV2KnownFields := by
    have hsplit : bitmap &&& (upsertV2KnownFields ||| ~~~upsertV2KnownFields) = bitmap := by
      rw [show upsertV2KnownFields ||| ~~~upsertV2KnownFields = BitVec.allOnes 32 by decide,
        BitVec.and_allOnes]
    rw [BitVec.and_or_distrib_left,h] at hsplit
    exact hsplit.symm.trans BitVec.or_zero
  have hlt : bitmap.toNat < 32 := by
    rw [hknown,BitVec.toNat_and,show upsertV2KnownFields.toNat = 2^5-1 by decide,
      Nat.and_two_pow_sub_one_eq_mod]
    exact Nat.mod_lt _ (by decide)
  have hall : ∀ n < 32,BitVec.ofNat 32 n =
      (if BitVec.ofNat 32 n &&& upsertV2Vector ≠ 0 then upsertV2Vector else 0) |||
      (if BitVec.ofNat 32 n &&& upsertV2Text ≠ 0 then upsertV2Text else 0) |||
      (if BitVec.ofNat 32 n &&& upsertV2Timestamp ≠ 0 then upsertV2Timestamp else 0) |||
      (if BitVec.ofNat 32 n &&& upsertV2Metadata ≠ 0 then upsertV2Metadata else 0) |||
      (if BitVec.ofNat 32 n &&& upsertV2TypedColumns ≠ 0 then upsertV2TypedColumns else 0) := by
    decide
  have hbitmap:=hall bitmap.toNat hlt
  rwa [BitVec.ofNat_toNat,BitVec.setWidth_eq] at hbitmap

def vectorField (vector : List U32) : Except PayloadError Bytes := do
  validateVector vector
  let dims ← lengthField vector.length
  return toLe 4 dims++vectorBytes vector

def imageUpsertV2 (d : IngestDocument) : Except PayloadError Bytes := do
  let vector ← optionalField vectorField (if d.vector = [] then none else some d.vector)
  let text ← optionalField (fun s => appendLengthPrefixed (utf8Bytes s)) d.text
  let timestamp ← optionalField (fun t => .ok (toLe 8 t)) d.timestamp?
  let metadata ← optionalField appendLengthPrefixed d.metadata?
  let columns ← optionalField encodeColumnValues d.columns?
  return toLe 4 (if d.vector = [] then upsertV2Bitmap d ^^^ upsertV2Vector else upsertV2Bitmap d)++
    appendVersion d.version++vector++text++timestamp++metadata++columns

variable {d : IngestDocument}

theorem imageUpsertV2_eq (h : d.vector ≠ []) : imageUpsertV2 d = encodeUpsertV2 d := by
  simp only [imageUpsertV2,encodeUpsertV2,if_neg h,optionalField,vectorField]
  cases validateVector d.vector with
  | error e => rfl
  | ok u =>
    cases lengthField d.vector.length with
    | error e => rfl
    | ok dims => simp only [ok_bind,pure_bind,append_assoc]

theorem encodeUpsertV2_empty (h : d.vector = []) : encodeUpsertV2 d = .error .emptyVector := by
  rw [encodeUpsertV2,h]
  rfl

theorem imageBitmap_eq {bitmap : U32} (hreserved : bitmap &&& ~~~upsertV2KnownFields = 0)
    (hvector : d.vector ≠ [] ↔ bitmap &&& upsertV2Vector ≠ 0)
    (htext : d.text.isSome = true ↔ bitmap &&& upsertV2Text ≠ 0)
    (htimestamp : d.timestamp?.isSome = true ↔ bitmap &&& upsertV2Timestamp ≠ 0)
    (hmetadata : d.metadata?.isSome = true ↔ bitmap &&& upsertV2Metadata ≠ 0)
    (hcolumns : d.columns?.isSome = true ↔ bitmap &&& upsertV2TypedColumns ≠ 0) :
    (if d.vector = [] then upsertV2Bitmap d ^^^ upsertV2Vector else upsertV2Bitmap d) = bitmap := by
  have hflags:=bitmap_flags hreserved
  simp only [← hvector,← htext,← htimestamp,← hmetadata,← hcolumns] at hflags
  rw [hflags,upsertV2Bitmap]
  generalize d.text.isSome = text
  generalize d.timestamp?.isSome = timestamp
  generalize d.metadata?.isSome = metadata
  generalize d.columns?.isSome = columns
  by_cases hempty : d.vector = []
  · rw [if_pos hempty,if_neg (not_not.mpr hempty)]
    revert text timestamp metadata columns
    decide
  · rw [if_neg hempty,if_pos hempty]

theorem vectorField_of_read {bytes rest : Bytes} {vector : List U32}
    (h : readVector bytes = .ok (vector,rest)) :
    ∃ encoded,vectorField vector = .ok encoded ∧ bytes = encoded++rest := by
  obtain ⟨dims,hdims,hvalid,hbytes⟩ := readVector_ok h
  refine ⟨toLe 4 dims++vectorBytes vector,?_,by rw [hbytes,append_assoc]⟩
  rw [vectorField,hvalid,ok_bind,hdims]
  rfl

theorem decodeUpsertV2_ok {payload : Bytes} (h : decodeUpsertV2 payload = .ok d) :
    imageUpsertV2 d = .ok payload ∧ d.expectedRevision = none := by
  obtain ⟨⟨bitmap,b1⟩,hbitmap,h⟩ := bind_eq_ok h
  simp only at h
  obtain ⟨hreserved,h⟩ := of_ite_ne_error h
  obtain ⟨⟨version,b2⟩,hversion,h⟩ := bind_eq_ok h
  obtain ⟨⟨vector,b3⟩,hvector,h⟩ := bind_eq_ok h
  obtain ⟨⟨text,b4⟩,htext,h⟩ := bind_eq_ok h
  obtain ⟨⟨timestamp,b5⟩,htimestamp,h⟩ := bind_eq_ok h
  obtain ⟨⟨metadata,b6⟩,hmetadata,h⟩ := bind_eq_ok h
  obtain ⟨⟨columns,b7⟩,hcolumns,h⟩ := bind_eq_ok h
  obtain ⟨⟨⟩,hfinish,rfl⟩ := bind_pure_eq_ok h
  refine ⟨?_,rfl⟩
  obtain ⟨hvectorBit,vectorBytes,hvectorField,hb2⟩ :=
    readOptional_ok (fun _ _ _ => vectorField_of_read) hvector
  obtain ⟨htextBit,textBytes,htextField,hb3⟩ :=
    readOptional_ok (fun _ _ _ => readString_ok) htext
  have hreadTimestamp : ∀ bytes rest t,readU64 bytes = .ok (t,rest) → ∃ encoded,
      (.ok (toLe 8 t) : Except PayloadError Bytes) = .ok encoded ∧ bytes = encoded++rest :=
    fun _ _ _ ht => ⟨_,rfl,readU64_ok ht⟩
  obtain ⟨htimestampBit,timestampBytes,htimestampField,hb4⟩ :=
    readOptional_ok hreadTimestamp htimestamp
  obtain ⟨hmetadataBit,metadataBytes,hmetadataField,hb5⟩ :=
    readOptional_ok (fun _ _ _ => readLengthPrefixed_ok) hmetadata
  obtain ⟨hcolumnsBit,columnsBytes,hcolumnsField,hb6⟩ :=
    readOptional_ok (fun _ _ _ => decodeTypedColumns_ok) hcolumns
  -- the bit of the vector is set exactly for a vector with coordinates
  have hpresent : vector = if vector.getD [] = [] then none else some (vector.getD []) := by
    cases vector with
    | none => rfl
    | some v =>
      obtain ⟨⟨⟩,hvalid,-⟩ := bind_eq_ok hvectorField
      rw [if_neg (show (some v).getD [] ≠ [] from (validateVector_ok hvalid).1)]
      rfl
  have hvectorSome : vector.getD [] ≠ [] ↔ bitmap &&& upsertV2Vector ≠ 0 := by
    rw [← hvectorBit]
    constructor
    · intro hne
      rw [hpresent,if_neg hne]
      rfl
    · intro hsome hempty
      rw [hpresent,if_pos hempty] at hsome
      cases hsome
  rw [hpresent] at hvectorField
  rw [imageUpsertV2,hvectorField,ok_bind,htextField,ok_bind,htimestampField,ok_bind,
    hmetadataField,ok_bind,hcolumnsField,ok_bind,
    imageBitmap_eq hreserved hvectorSome htextBit htimestampBit hmetadataBit hcolumnsBit]
  have hend:=finish_ok hfinish
  simp only at hend hb2 hb3 hb4 hb5 hb6
  rw [readU32_ok hbitmap,readVersion_ok hversion,hb2,hb3,hb4,hb5,hb6,hend,append_nil]
  simp only [append_assoc]
  rfl

def carriedBody (d : IngestDocument) (hasTimestamp hasMetadata : Bool) : IngestDocument :=
  { IngestDocument.new d.version d.vector with
    timestamp? := if hasTimestamp then some d.timestamp else none
    metadata? := if hasMetadata then some d.metadata else none }

theorem vectorBytes_length (vector : List U32) : (vectorBytes vector).length = vector.length*4 := by
  simp [vectorBytes]

def readWhen {w : ℕ} (present : Bool) (read : Bytes → Except PayloadError (BitVec w × Bytes))
    (bytes : Bytes) : Except PayloadError (BitVec w × Bytes) :=
  if present then read bytes else .ok (0,bytes)

def decodeGeometry (hasTimestamp hasMetadata : Bool) (version : DocumentVersion) (timestamp : U64)
    (metadataLen : U32) (bytes : Bytes) : Except PayloadError IngestDocument := do
  let (dims,bytes) ← readU32 bytes
  if dims.toNat = 0 then .error .emptyVector
  else
    requireRemaining (metadataLen.toNat+dims.toNat*4) bytes
    let (metadata,bytes) ← readBytes metadataLen.toNat bytes
    let (vector,bytes) ← decodeCoordinates dims.toNat 0 bytes
    finish bytes
    return { IngestDocument.new version vector with
      timestamp? := if hasTimestamp then some timestamp else none
      metadata? := if hasMetadata then some metadata else none }

theorem decodeUpsertBody_eq (payload : Bytes) (hasTimestamp hasMetadata : Bool) :
    decodeUpsertBody payload hasTimestamp hasMetadata = (do
      let bytes ← requireHeader payload
      let (version,bytes) ← readVersion bytes
      let (timestamp,bytes) ← readWhen hasTimestamp readU64 bytes
      let (metadataLen,bytes) ← readWhen hasMetadata readU32 bytes
      decodeGeometry hasTimestamp hasMetadata version timestamp metadataLen bytes) := by
  have hdims : ∀ (dims : U32) (x : Except PayloadError IngestDocument),
      (if dims.toNat = 0 then throw PayloadError.emptyVector >>= fun _ : PUnit => x else x) =
        if dims.toNat = 0 then .error .emptyVector else x := by
    intro dims x
    split_ifs <;> rfl
  cases hasTimestamp <;> cases hasMetadata <;>
    simp only [decodeUpsertBody,readWhen,decodeGeometry,hdims,ok_bind,if_true,if_false,
      Bool.false_eq_true]

variable {n : ℕ} {hasMetadata : Bool} {docIds : List DocId} {edit : MetadataEdit}

theorem readWhen_append {w : ℕ} (present : Bool)
    {read : Bytes → Except PayloadError (BitVec w × Bytes)}
    (h : ∀ v ys,read (toLe n v++ys) = .ok (v,ys)) (v : BitVec w) (ys : Bytes) :
    readWhen present read ((if present then some v else none).elim [] (toLe n)++ys) =
      .ok (if present then v else 0,ys) := by
  cases present with
  | false => rfl
  | true => exact h v ys

theorem decodeUpsertBody_encode (hasTimestamp : Bool) {payload : Bytes}
    (h : encodeUpsertBody d (if hasTimestamp then some d.timestamp else none) hasMetadata =
      .ok payload) :
    decodeUpsertBody payload hasTimestamp hasMetadata =
      .ok (carriedBody d hasTimestamp hasMetadata) := by
  unfold encodeUpsertBody at h
  have hempty : d.vector ≠ [] := by
    intro hempty
    rw [if_pos hempty] at h
    cases h
  rw [if_neg hempty] at h
  obtain ⟨dims,hdims,h⟩ := bind_eq_ok h
  obtain ⟨⟨⟩,hvalid,h⟩ := bind_eq_ok h
  obtain ⟨length,hlength,rfl⟩ := bind_pure_eq_ok h
  obtain ⟨-,hfinite⟩ := validateVector_ok hvalid
  obtain ⟨hlt,rfl⟩ := lengthField_ok hdims
  have hnat : (BitVec.ofNat 32 d.vector.length).toNat = d.vector.length := by
    rw [BitVec.toNat_ofNat,Nat.mod_eq_of_lt hlt]
  have hpos : d.vector.length ≠ 0 := fun hzero => hempty (length_eq_zero_iff.mp hzero)
  have hcoordinates:=decodeCoordinates_append hfinite 0 []
  rw [append_nil] at hcoordinates
  rw [decodeUpsertBody_eq]
  simp only [append_assoc,requireHeader_append,ok_bind,readVersion_append,
    readWhen_append hasTimestamp readU64_append]
  cases hasMetadata with
  | false =>
    obtain rfl := Except.ok.inj hlength
    have hremaining : requireRemaining ((0 : U32).toNat+d.vector.length*4)
        (vectorBytes d.vector) = .ok () := by
      rw [requireRemaining,vectorBytes_length,if_neg (by simp)]
    have hnone : ∀ ys : Bytes,readBytes (0 : U32).toNat ys = .ok ([],ys) := fun ys =>
      readBytes_append [] ys 0 rfl
    simp only [readWhen,Bool.false_eq_true,if_false,nil_append,ok_bind,decodeGeometry,
      readU32_append,hnat,if_neg hpos,hremaining,hnone,hcoordinates,finish_nil]
    cases hasTimestamp <;> rfl
  | true =>
    obtain ⟨word,hword,rfl⟩ := bind_pure_eq_ok hlength
    obtain ⟨hmetadata,rfl⟩ := lengthField_ok hword
    have hmetadataNat : (BitVec.ofNat 32 d.metadata.length).toNat = d.metadata.length := by
      rw [BitVec.toNat_ofNat,Nat.mod_eq_of_lt hmetadata]
    have hremaining : requireRemaining (d.metadata.length+d.vector.length*4)
        (d.metadata++vectorBytes d.vector) = .ok () := by
      rw [requireRemaining,length_append,vectorBytes_length,if_neg (Nat.lt_irrefl _)]
    have hbytes:=readBytes_append d.metadata (vectorBytes d.vector) d.metadata.length rfl
    simp only [readWhen,if_true,readU32_append,ok_bind,decodeGeometry,hnat,if_neg hpos,
      hmetadataNat,hremaining,hbytes,hcoordinates,finish_nil]
    cases hasTimestamp <;> rfl

theorem decodeUpsertBody_ok {payload : Bytes} {hasTimestamp : Bool}
    (h : decodeUpsertBody payload hasTimestamp hasMetadata = .ok d) :
    encodeUpsertBody d (if hasTimestamp then some d.timestamp else none) hasMetadata =
        .ok payload ∧ carriedBody d hasTimestamp hasMetadata = d := by
  rw [decodeUpsertBody_eq] at h
  obtain ⟨b1,hheader,h⟩ := bind_eq_ok h
  obtain ⟨⟨version,b2⟩,hversion,h⟩ := bind_eq_ok h
  obtain ⟨⟨timestamp,b3⟩,htimestamp,h⟩ := bind_eq_ok h
  obtain ⟨⟨metadataLen,b4⟩,hmetadataLen,h⟩ := bind_eq_ok h
  obtain ⟨⟨dims,b5⟩,hdims,h⟩ := bind_eq_ok h
  change (if dims.toNat = 0 then _ else _) = _ at h
  by_cases hzero : dims.toNat = 0
  · rw [if_pos hzero] at h
    cases h
  · rw [if_neg hzero] at h
    obtain ⟨⟨⟩,-,h⟩ := bind_eq_ok h
    obtain ⟨⟨metadata,b6⟩,hmetadata,h⟩ := bind_eq_ok h
    obtain ⟨⟨vector,b7⟩,hvector,h⟩ := bind_eq_ok h
    obtain ⟨⟨⟩,hfinish,h⟩ := bind_eq_ok h
    have hd:=Except.ok.inj h
    obtain ⟨hb6,hlen,hfinite⟩ := decodeCoordinates_ok hvector
    obtain ⟨hb5,hmetadataLength⟩ := readBytes_ok hmetadata
    have hend:=finish_ok hfinish
    have hne : vector ≠ [] := by
      rintro rfl
      exact hzero hlen.symm
    have hb2 : b2 = (if hasTimestamp then some timestamp else none).elim [] (toLe 8)++b3 := by
      cases hasTimestamp with
      | false =>
        obtain ⟨-,rfl⟩ := Prod.mk.inj (Except.ok.inj htimestamp)
        rfl
      | true => exact readU64_ok htimestamp
    have hdvector : d.vector = vector := by rw [← hd]; rfl
    have hdversion : d.version = version := by rw [← hd]; rfl
    have hdtimestamp : (if hasTimestamp then some d.timestamp else none) =
        if hasTimestamp then some timestamp else none := by
      rw [← hd]
      cases hasTimestamp <;> rfl
    constructor
    · rw [encodeUpsertBody,hdvector,hdversion,hdtimestamp,if_neg hne,lengthField_toNat hlen,
        ok_bind,validateVector_of_finite hne hfinite,ok_bind,requireHeader_ok hheader,
        readVersion_ok hversion,hb2]
      cases hasMetadata with
      | false =>
        obtain ⟨rfl,rfl⟩ := Prod.mk.inj (Except.ok.inj hmetadataLen)
        obtain rfl := length_eq_zero_iff.mp hmetadataLength
        rw [readU32_ok hdims,hb5,hb6,hend]
        simp [metadataLength]
      | true =>
        have hdmetadata : d.metadata = metadata := by rw [← hd]; rfl
        rw [readU32_ok hmetadataLen,readU32_ok hdims,hb5,hb6,hend]
        have hfield : lengthField metadata.length = .ok metadataLen :=
          lengthField_toNat hmetadataLength
        simp [metadataLength,hdmetadata,hfield]
    · rw [← hd]
      cases hasTimestamp <;> cases hasMetadata <;> rfl

theorem decodeIds_ok {bytes rest : Bytes} (h : decodeIds n bytes = .ok (docIds,rest)) :
    docIds.length = n ∧ bytes = docIds.flatMap (toLe 16)++rest := by
  induction n generalizing bytes docIds with
  | zero =>
    obtain ⟨rfl,rfl⟩ := Prod.mk.inj (Except.ok.inj h)
    exact ⟨rfl,rfl⟩
  | succ n ih =>
    obtain ⟨⟨docId,tail⟩,hdocId,h⟩ := bind_eq_ok h
    obtain ⟨⟨others,more⟩,hothers,h⟩ := bind_eq_ok h
    obtain ⟨rfl,rfl⟩ := Prod.mk.inj (Except.ok.inj h)
    obtain ⟨hlen,htail⟩ := ih hothers
    refine ⟨by rw [length_cons,hlen],?_⟩
    rw [readU128_ok hdocId,htail,flatMap_cons,append_assoc]

theorem decodeDelete_ok {payload : Bytes}
    (h : decodeDelete payload = .ok docIds) : encodeDelete docIds = .ok payload := by
  obtain ⟨b1,hheader,h⟩ := bind_eq_ok h
  obtain ⟨⟨count,b2⟩,hcount,h⟩ := bind_eq_ok h
  simp only at h
  by_cases hzero : count.toNat = 0
  · rw [if_pos hzero] at h
    cases h
  · rw [if_neg hzero] at h
    obtain ⟨⟨⟩,-,h⟩ := bind_eq_ok h
    obtain ⟨⟨ids,b3⟩,hids,h⟩ := bind_eq_ok h
    obtain ⟨⟨⟩,hfinish,rfl⟩ := bind_pure_eq_ok h
    obtain ⟨hlen,hb2⟩ := decodeIds_ok hids
    have hend:=finish_ok hfinish
    simp only at hend hb2 hlen
    have hne : ids ≠ [] := by
      rintro rfl
      exact hzero hlen.symm
    rw [encodeDelete,if_neg hne,lengthField_toNat hlen,ok_bind,requireHeader_ok hheader,
      readU32_ok hcount,hb2,hend,append_nil,append_assoc]
    rfl

theorem decodeMetadataValue_encoded {value : MetadataValue} {kind : U8} {body : Bytes}
    (h : encodeMetadataValue value = .ok (kind,body)) :
    decodeMetadataValue kind body = .ok value := by
  cases value with
  | null =>
    obtain ⟨rfl,rfl⟩ := Prod.mk.inj (Except.ok.inj h)
    rfl
  | u64 v => exact decodeMetadataValue_encode (show encodeMetadataValue
      (predicateToMetadata (.u64 v)) = _ from h)
  | id128 v => exact decodeMetadataValue_encode (show encodeMetadataValue
      (predicateToMetadata (.id128 v)) = _ from h)
  | i64 v => exact decodeMetadataValue_encode (show encodeMetadataValue
      (predicateToMetadata (.i64 v)) = _ from h)
  | f64 v => exact decodeMetadataValue_encode (show encodeMetadataValue
      (predicateToMetadata (.f64 v)) = _ from h)
  | bool v => exact decodeMetadataValue_encode (show encodeMetadataValue
      (predicateToMetadata (.bool v)) = _ from h)
  | string v => exact decodeMetadataValue_encode (show encodeMetadataValue
      (predicateToMetadata (.string v)) = _ from h)

theorem decodeMetadataEdit_encode {payload : Bytes}
    (h : encodeMetadataEdit edit = .ok payload) : decodeMetadataEdit payload = .ok edit := by
  obtain ⟨⟨kind,body⟩,hvalue,h⟩ := bind_eq_ok h
  obtain ⟨length,hlength,rfl⟩ := bind_pure_eq_ok h
  obtain ⟨hlt,rfl⟩ := lengthField_ok hlength
  have hnat : (BitVec.ofNat 32 body.length).toNat = body.length := by
    rw [BitVec.toNat_ofNat,Nat.mod_eq_of_lt hlt]
  have hkind (zs : Bytes) : readU8 (kind::zs) = .ok (kind,zs) := by
    have hone : toLe 1 kind = [kind] := by
      simp [toLe,leBytes]
    rw [← singleton_append,← hone,readU8_append]
  have hreserved (zs : Bytes) : readU24 (0::0::0::zs) = .ok (0,zs) := rfl
  have hbody:=readBytes_append body [] body.length rfl
  rw [append_nil] at hbody
  simp only [decodeMetadataEdit,append_assoc,requireHeader_append,ok_bind,
    readVersion_append,readU32_append,cons_append,nil_append,hkind,hreserved,hnat,
    hbody,decodeMetadataValue_encoded hvalue,finish_nil]
  rfl

theorem decodeMetadataEdit_ok {payload : Bytes}
    (h : decodeMetadataEdit payload = .ok edit) : encodeMetadataEdit edit = .ok payload := by
  obtain ⟨b1,hheader,h⟩ := bind_eq_ok h
  obtain ⟨⟨version,b2⟩,hversion,h⟩ := bind_eq_ok h
  obtain ⟨⟨column,b3⟩,hcolumn,h⟩ := bind_eq_ok h
  obtain ⟨⟨kind,b4⟩,hkind,h⟩ := bind_eq_ok h
  obtain ⟨⟨reserved,b5⟩,hreserved,h⟩ := bind_eq_ok h
  simp only at h
  obtain ⟨hzero,h⟩ := of_ite_ne_error h
  obtain ⟨⟨valueLen,b6⟩,hvalueLen,h⟩ := bind_eq_ok h
  obtain ⟨⟨body,b7⟩,hbody,h⟩ := bind_eq_ok h
  obtain ⟨value,hvalue,h⟩ := bind_eq_ok h
  obtain ⟨⟨⟩,hfinish,rfl⟩ := bind_pure_eq_ok h
  subst hzero
  obtain ⟨hb6,hlen⟩ := readBytes_ok hbody
  have hend:=finish_ok hfinish
  simp only at hend hb6 hlen
  have hencoded:=decodeMetadataValue_ok hvalue (by rw [hlen]; exact valueLen.isLt)
  rw [encodeMetadataEdit,hencoded,ok_bind]
  simp only
  rw [lengthField_toNat hlen,ok_bind,requireHeader_ok hheader,readVersion_ok hversion,
    readU32_ok hcolumn,readU8_ok hkind,readU24_zero hreserved,readU32_ok hvalueLen,hb6,hend,
    append_nil]
  simp only [append_assoc]
  rfl

section Operations
variable (validateEnvelope : Bytes → Except GraphWalError Unit)

def encodeWith (upsert : IngestDocument → Except PayloadError Bytes) (op : U16) :
    MutationPayload → Except PayloadError Bytes
  | .graphCommit envelope =>
    if op = graphCommitV1 then encodeGraphCommit validateEnvelope envelope
    else .error (.unknownOperation op)
  | .upsert d =>
    if op = upsertV1 then encodeUpsert d
    else if op = upsertWithTimestampV1 then encodeUpsertWithTimestamp d
    else if op = upsertWithMetadataV1 then encodeUpsertWithMetadata d
    else if op = upsertWithTimestampAndMetadataV1 then encodeUpsertWithTimestampAndMetadata d
    else if op = upsertV2 then upsert d
    else .error (.unknownOperation op)
  | .delete docIds =>
    if op = deleteV1 then encodeDelete docIds else .error (.unknownOperation op)
  | .metadataEdit edit =>
    if op = metadataEditV1 then encodeMetadataEdit edit else .error (.unknownOperation op)
  | .batchMember index count d =>
    if op = upsertV2BatchMember then do
      let inner ← upsert d
      encodeUpsertV2BatchMember index count inner
    else .error (.unknownOperation op)
  | .mixedBatchMember index count innerOp mutation =>
    if op = mixedBatchMemberV1 then do
      let inner ← encodeWith upsert innerOp mutation
      encodeMixedBatchMember index count innerOp inner
    else .error (.unknownOperation op)

def encodeMutation (op : U16) (m : MutationPayload) : Except PayloadError Bytes :=
  encodeWith validateEnvelope encodeUpsertV2 op m

def imageMutation (op : U16) (m : MutationPayload) : Except PayloadError Bytes :=
  encodeWith validateEnvelope imageUpsertV2 op m

end Operations

def carried (op : U16) : MutationPayload → MutationPayload
  | .upsert d =>
    if op = upsertV1 then .upsert (carriedBody d false false)
    else if op = upsertWithTimestampV1 then .upsert (carriedBody d true false)
    else if op = upsertWithMetadataV1 then .upsert (carriedBody d false true)
    else if op = upsertWithTimestampAndMetadataV1 then .upsert (carriedBody d true true)
    else .upsert d.persisted
  | .batchMember index count d => .batchMember index count d.persisted
  | .mixedBatchMember index count innerOp m => .mixedBatchMember index count innerOp (carried innerOp m)
  | m => m

def MutationPayload.hasVector : MutationPayload → Prop
  | .upsert d => d.vector ≠ []
  | .batchMember _ _ d => d.vector ≠ []
  | .mixedBatchMember _ _ _ m => m.hasVector
  | _ => True

section Dispatch
variable (validateEnvelope : Bytes → Except GraphWalError Unit) {op : U16} {payload : Bytes}
  {m : MutationPayload}

theorem decodeGraphCommit_ok {envelope : Bytes}
    (h : decodeGraphCommit validateEnvelope payload = .ok envelope) : envelope = payload := by
  unfold decodeGraphCommit at h
  split at h
  · cases h
  · exact (Except.ok.inj h).symm

theorem decodePlain_op (h : decodePlain validateEnvelope op payload = .ok m) :
    op = graphCommitV1 ∧ (∃ e,m = .graphCommit e ∧
        decodeGraphCommit validateEnvelope payload = .ok e) ∨
      op = upsertV1 ∧ (∃ d,m = .upsert d ∧ decodeUpsertBody payload false false = .ok d) ∨
      op = deleteV1 ∧ (∃ ids,m = .delete ids ∧ decodeDelete payload = .ok ids) ∨
      op = metadataEditV1 ∧ (∃ e,m = .metadataEdit e ∧ decodeMetadataEdit payload = .ok e) ∨
      op = upsertWithTimestampV1 ∧
        (∃ d,m = .upsert d ∧ decodeUpsertBody payload true false = .ok d) ∨
      op = upsertWithMetadataV1 ∧
        (∃ d,m = .upsert d ∧ decodeUpsertBody payload false true = .ok d) ∨
      op = upsertWithTimestampAndMetadataV1 ∧
        (∃ d,m = .upsert d ∧ decodeUpsertBody payload true true = .ok d) ∨
      op = upsertV2 ∧ (∃ d,m = .upsert d ∧ decodeUpsertV2 payload = .ok d) := by
  unfold decodePlain at h
  split_ifs at h with h10 h1 h2 h3 h4 h5 h6 h7
  all_goals
    obtain ⟨value,hvalue,rfl⟩ := map_eq_ok h
  · exact .inl ⟨h10,value,rfl,hvalue⟩
  · exact .inr (.inl ⟨h1,value,rfl,hvalue⟩)
  · exact .inr (.inr (.inl ⟨h2,value,rfl,hvalue⟩))
  · exact .inr (.inr (.inr (.inl ⟨h3,value,rfl,hvalue⟩)))
  · exact .inr (.inr (.inr (.inr (.inl ⟨h4,value,rfl,hvalue⟩))))
  · exact .inr (.inr (.inr (.inr (.inr (.inl ⟨h5,value,rfl,hvalue⟩)))))
  · exact .inr (.inr (.inr (.inr (.inr (.inr (.inl ⟨h6,value,rfl,hvalue⟩))))))
  · exact .inr (.inr (.inr (.inr (.inr (.inr (.inr ⟨h7,value,rfl,hvalue⟩))))))

theorem encodeWith_congr {f g : IngestDocument → Except PayloadError Bytes}
    (hfg : ∀ d : IngestDocument,d.vector ≠ [] → f d = g d) (h : m.hasVector) :
    encodeWith validateEnvelope f op m = encodeWith validateEnvelope g op m := by
  induction m generalizing op with
  | graphCommit e => rfl
  | delete ids => rfl
  | metadataEdit e => rfl
  | upsert d => simp only [encodeWith,hfg d h]
  | batchMember index count d => simp only [encodeWith,hfg d h]
  | mixedBatchMember index count innerOp m ih => simp only [encodeWith,ih h]

theorem upsertV1_of_ok {d : IngestDocument} {hasTimestamp hasMetadata : Bool}
    (h : decodeUpsertBody payload hasTimestamp hasMetadata = .ok d) : d.vector ≠ [] := by
  obtain ⟨hencode,-⟩ := decodeUpsertBody_ok h
  intro hempty
  rw [encodeUpsertBody,if_pos hempty] at hencode
  cases hencode

theorem decodePlain_image (h : decodePlain validateEnvelope op payload = .ok m) :
    imageMutation validateEnvelope op m = .ok payload ∧ carried op m = m ∧
      (¬ m.hasVector → ∃ d,m = .upsert d ∧ op = upsertV2 ∧ d.vector = []) := by
  rcases decodePlain_op validateEnvelope h with ⟨rfl,e,rfl,hd⟩ | ⟨rfl,d,rfl,hd⟩ |
    ⟨rfl,ids,rfl,hd⟩ | ⟨rfl,e,rfl,hd⟩ | ⟨rfl,d,rfl,hd⟩ | ⟨rfl,d,rfl,hd⟩ | ⟨rfl,d,rfl,hd⟩ |
    ⟨rfl,d,rfl,hd⟩
  · obtain rfl := decodeGraphCommit_ok validateEnvelope hd
    exact ⟨hd,rfl,fun hno => absurd trivial hno⟩
  · obtain ⟨hencode,hcarried⟩ := decodeUpsertBody_ok hd
    exact ⟨hencode,congrArg MutationPayload.upsert hcarried,fun hno =>
      absurd (upsertV1_of_ok hd) hno⟩
  · exact ⟨decodeDelete_ok hd,rfl,fun hno => absurd trivial hno⟩
  · exact ⟨decodeMetadataEdit_ok hd,rfl,fun hno => absurd trivial hno⟩
  · obtain ⟨hencode,hcarried⟩ := decodeUpsertBody_ok hd
    exact ⟨hencode,congrArg MutationPayload.upsert hcarried,fun hno =>
      absurd (upsertV1_of_ok hd) hno⟩
  · obtain ⟨hencode,hcarried⟩ := decodeUpsertBody_ok hd
    exact ⟨hencode,congrArg MutationPayload.upsert hcarried,fun hno =>
      absurd (upsertV1_of_ok hd) hno⟩
  · obtain ⟨hencode,hcarried⟩ := decodeUpsertBody_ok hd
    exact ⟨hencode,congrArg MutationPayload.upsert hcarried,fun hno =>
      absurd (upsertV1_of_ok hd) hno⟩
  · obtain ⟨himage,hrevision⟩ := decodeUpsertV2_ok hd
    refine ⟨himage,congrArg MutationPayload.upsert ?_,fun hno => ⟨d,rfl,rfl,not_not.mp hno⟩⟩
    rw [IngestDocument.persisted,← hrevision]

theorem decodePlain_encode (hplain : op ≠ upsertV2BatchMember ∧ op ≠ mixedBatchMemberV1)
    (h : encodeMutation validateEnvelope op m = .ok payload) :
    decodePlain validateEnvelope op payload = .ok (carried op m) := by
  cases m with
  | graphCommit e =>
    simp only [encodeMutation,encodeWith] at h
    split_ifs at h with hop
    subst hop
    obtain rfl := decodeGraphCommit_ok validateEnvelope h
    change MutationPayload.graphCommit <$> decodeGraphCommit validateEnvelope payload = _
    rw [show decodeGraphCommit validateEnvelope payload = _ from h]
    rfl
  | delete ids =>
    simp only [encodeMutation,encodeWith] at h
    split_ifs at h with hop
    subst hop
    change MutationPayload.delete <$> decodeDelete payload = _
    rw [decodeDelete_encode h]
    rfl
  | metadataEdit e =>
    simp only [encodeMutation,encodeWith] at h
    split_ifs at h with hop
    subst hop
    change MutationPayload.metadataEdit <$> decodeMetadataEdit payload = _
    rw [decodeMetadataEdit_encode h]
    rfl
  | upsert d =>
    simp only [encodeMutation,encodeWith] at h
    split_ifs at h with h1 h4 h5 h6 h7
    · subst h1
      change MutationPayload.upsert <$> decodeUpsertBody payload false false = _
      rw [decodeUpsertBody_encode false h]
      rfl
    · subst h4
      change MutationPayload.upsert <$> decodeUpsertBody payload true false = _
      rw [decodeUpsertBody_encode true h]
      rfl
    · subst h5
      change MutationPayload.upsert <$> decodeUpsertBody payload false true = _
      rw [decodeUpsertBody_encode false h]
      rfl
    · subst h6
      change MutationPayload.upsert <$> decodeUpsertBody payload true true = _
      rw [decodeUpsertBody_encode true h]
      rfl
    · subst h7
      change MutationPayload.upsert <$> decodeUpsertV2 payload = _
      rw [decodeUpsertV2_encode h]
      rfl
  | batchMember index count d =>
    simp only [encodeMutation,encodeWith] at h
    rw [if_neg hplain.1] at h
    cases h
  | mixedBatchMember index count innerOp m =>
    simp only [encodeMutation,encodeWith] at h
    rw [if_neg hplain.2] at h
    cases h

theorem validateMixedOperation_plain (h : validateMixedOperation op = .ok ()) :
    op ≠ upsertV2BatchMember ∧ op ≠ mixedBatchMemberV1 := by
  unfold validateMixedOperation at h
  split_ifs at h with hop
  rcases hop with rfl | rfl | rfl <;> decide

theorem decodeMutation_encode (h : encodeMutation validateEnvelope op m = .ok payload) :
    decodeMutation validateEnvelope op payload = .ok (carried op m) := by
  by_cases hmixed : op = mixedBatchMemberV1
  · subst hmixed
    cases m with
    | mixedBatchMember index count innerOp m =>
      obtain ⟨inner,hinner,h⟩ := bind_eq_ok h
      obtain ⟨⟨⟩,-,hrest⟩ := bind_eq_ok h
      obtain ⟨⟨⟩,hop,-⟩ := bind_eq_ok hrest
      exact decodeMixedBatchMember_encode validateEnvelope
        (decodePlain_encode validateEnvelope (validateMixedOperation_plain hop) hinner) h
    | _ => cases h
  · by_cases hmember : op = upsertV2BatchMember
    · subst hmember
      cases m with
      | batchMember index count d =>
        obtain ⟨inner,hinner,h⟩ := bind_eq_ok h
        have hdecode:=decodeUpsertV2BatchMember_encode (decodeUpsertV2_encode hinner) h
        rw [decodeMutation,if_neg hmixed,if_pos rfl,hdecode]
        rfl
      | _ => cases h
    · rw [decodeMutation,if_neg hmixed,if_neg hmember]
      exact decodePlain_encode validateEnvelope ⟨hmember,hmixed⟩ h

theorem decodeUpsertV2BatchMember_ok {index count : U32} {d : IngestDocument}
    (h : decodeUpsertV2BatchMember payload = .ok (index,count,d)) :
    ∃ inner,decodeUpsertV2 inner = .ok d ∧
      encodeUpsertV2BatchMember index count inner = .ok payload := by
  obtain ⟨⟨readIndex,b1⟩,hindex,h⟩ := bind_eq_ok h
  obtain ⟨⟨readCount,b2⟩,hcount,h⟩ := bind_eq_ok h
  obtain ⟨⟨⟩,hposition,h⟩ := bind_eq_ok h
  obtain ⟨document,hdocument,h⟩ := bind_eq_ok h
  obtain ⟨rfl,hrest⟩ := Prod.mk.inj (Except.ok.inj h)
  obtain ⟨rfl,rfl⟩ := Prod.mk.inj hrest
  refine ⟨b2,hdocument,?_⟩
  rw [encodeUpsertV2BatchMember,show validateBatchPosition readIndex readCount = _ from hposition,
    ok_bind,readU32_ok hindex,readU32_ok hcount,append_assoc]
  rfl

theorem decodeMixedBatchMember_ok (h : decodeMixedBatchMember validateEnvelope payload = .ok m) :
    ∃ index count innerOp inner mutation,m = .mixedBatchMember index count innerOp mutation ∧
      decodePlain validateEnvelope innerOp inner = .ok mutation ∧
      encodeMixedBatchMember index count innerOp inner = .ok payload := by
  obtain ⟨⟨index,b1⟩,hindex,h⟩ := bind_eq_ok h
  obtain ⟨⟨count,b2⟩,hcount,h⟩ := bind_eq_ok h
  obtain ⟨⟨⟩,hposition,h⟩ := bind_eq_ok h
  obtain ⟨⟨innerOp,b3⟩,hinnerOp,h⟩ := bind_eq_ok h
  obtain ⟨⟨⟩,hop,h⟩ := bind_eq_ok h
  obtain ⟨inner,hinner,h⟩ := bind_eq_ok h
  refine ⟨index,count,innerOp,b3,inner,(Except.ok.inj h).symm,hinner,?_⟩
  rw [encodeMixedBatchMember,show validateBatchPosition index count = _ from hposition,ok_bind,
    show validateMixedOperation innerOp = _ from hop,ok_bind,readU32_ok hindex,readU32_ok hcount,
    readU16_ok hinnerOp]
  simp only [append_assoc]
  rfl

theorem decodeMutation_image (h : decodeMutation validateEnvelope op payload = .ok m) :
    imageMutation validateEnvelope op m = .ok payload ∧ carried op m = m ∧
      (encodeMutation validateEnvelope op m = .ok payload ↔ m.hasVector) := by
  have hwith : imageMutation validateEnvelope op m = .ok payload → m.hasVector →
      encodeMutation validateEnvelope op m = .ok payload := by
    intro himage hvector
    rw [← himage]
    exact encodeWith_congr validateEnvelope (fun d hd => (imageUpsertV2_eq hd).symm) hvector
  unfold decodeMutation at h
  by_cases hmixed : op = mixedBatchMemberV1
  · rw [if_pos hmixed] at h
    subst hmixed
    obtain ⟨index,count,innerOp,raw,inner,rfl,hinner,hframe⟩ :=
      decodeMixedBatchMember_ok validateEnvelope h
    obtain ⟨himage,hcarried,hno⟩ := decodePlain_image validateEnvelope hinner
    have hwhole : imageMutation validateEnvelope mixedBatchMemberV1
        (.mixedBatchMember index count innerOp inner) = .ok payload := by
      change (imageMutation validateEnvelope innerOp inner >>= fun b =>
        encodeMixedBatchMember index count innerOp b) = _
      rw [himage,ok_bind,hframe]
    refine ⟨hwhole,congrArg (MutationPayload.mixedBatchMember index count innerOp) hcarried,
      fun hencode => ?_,hwith hwhole⟩
    by_contra hnone
    obtain ⟨d,rfl,rfl,hempty⟩ := hno hnone
    obtain ⟨bytes,hbytes,-⟩ := bind_eq_ok hencode
    change encodeUpsertV2 d = .ok bytes at hbytes
    rw [encodeUpsertV2_empty hempty] at hbytes
    cases hbytes
  · rw [if_neg hmixed] at h
    by_cases hmember : op = upsertV2BatchMember
    · rw [if_pos hmember] at h
      subst hmember
      obtain ⟨⟨index,count,document⟩,hd,rfl⟩ := map_eq_ok h
      obtain ⟨raw,hdocument,hframe⟩ := decodeUpsertV2BatchMember_ok hd
      obtain ⟨himage,hrevision⟩ := decodeUpsertV2_ok hdocument
      have hwhole : imageMutation validateEnvelope upsertV2BatchMember
          (.batchMember index count document) = .ok payload := by
        change (imageUpsertV2 document >>= fun b => encodeUpsertV2BatchMember index count b) = _
        rw [himage,ok_bind,hframe]
      refine ⟨hwhole,congrArg (MutationPayload.batchMember index count) ?_,fun hencode hempty => ?_,
        hwith hwhole⟩
      · rw [IngestDocument.persisted,← hrevision]
      · obtain ⟨bytes,hbytes,-⟩ := bind_eq_ok hencode
        change encodeUpsertV2 document = .ok bytes at hbytes
        rw [encodeUpsertV2_empty hempty] at hbytes
        cases hbytes
    · rw [if_neg hmember] at h
      obtain ⟨himage,hcarried,hno⟩ := decodePlain_image validateEnvelope h
      refine ⟨himage,hcarried,fun hencode => ?_,hwith himage⟩
      by_contra hnone
      obtain ⟨d,rfl,rfl,hempty⟩ := hno hnone
      change encodeUpsertV2 d = .ok payload at hencode
      rw [encodeUpsertV2_empty hempty] at hencode
      cases hencode

end Dispatch

end Zeppelin.Ingest
