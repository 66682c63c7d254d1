import Zeppelin.Format.Frame

/-! wal/record.rs -/

namespace Zeppelin.Wal
open List

abbrev LogSeq := U64

def recordHeaderLen : ℕ := 14
def recordChecksumLen : ℕ := 8
def minRecordLen : ℕ := recordHeaderLen+recordChecksumLen

structure WalRecord where
  seq : LogSeq
  op : U16
  payload : Bytes
  deriving DecidableEq

structure DecodedRecord where
  record : WalRecord
  encodedLen : ℕ
  deriving DecidableEq

inductive RecordEncodeError where
  | payloadTooLarge (length : ℕ)
  deriving DecidableEq

inductive RecordError where
  | headerTruncated (needed available : ℕ)
  | lengthOverflow (payloadLength : U32)
  | bodyTruncated (payloadLength : U32) (needed available : ℕ)
  | checksumMismatch (expected actual : U64) (recordLength : ℕ)
  deriving DecidableEq

/-- Only a checksum mismatch knows where the next record would start. -/
def RecordError.framedLength : RecordError → Option ℕ
  | .checksumMismatch _ _ recordLength => some recordLength
  | .headerTruncated .. | .lengthOverflow .. | .bodyTruncated .. => none

def encodedRecordLen (payloadLen : ℕ) : Except RecordEncodeError ℕ :=
  if payloadLen < 2^32 then .ok (minRecordLen+payloadLen)
  else .error (.payloadTooLarge payloadLen)

section Checksum
variable (xxh3 : Bytes → U64)

/-- The checksummed part of a record: length, sequence, operation, payload. -/
def recordPrefix (r : WalRecord) : Bytes :=
  toLe 4 (BitVec.ofNat 32 r.payload.length)++(toLe 8 r.seq++(toLe 2 r.op++r.payload))

/-- The framed bytes of a record whose payload length fits `u32`. -/
def recordBytes (r : WalRecord) : Bytes := recordPrefix r++toLe 8 (xxh3 (recordPrefix r))

def appendRecordInto (r : WalRecord) (encoded : Bytes) : Except RecordEncodeError Bytes :=
  if r.payload.length < 2^32 then .ok (encoded++recordBytes xxh3 r)
  else .error (.payloadTooLarge r.payload.length)

def encodeRecordInto (r : WalRecord) : Except RecordEncodeError Bytes := appendRecordInto xxh3 r []

def readU16 (bytes : Bytes) (offset : ℕ) : Except RecordError U16 :=
  match slice? bytes offset (offset+2) with
  | none => .error (.headerTruncated recordHeaderLen bytes.length)
  | some raw => .ok (ofLe 16 raw)

def readU32 (bytes : Bytes) (offset : ℕ) : Except RecordError U32 :=
  match slice? bytes offset (offset+4) with
  | none => .error (.headerTruncated recordHeaderLen bytes.length)
  | some raw => .ok (ofLe 32 raw)

def readU64 (bytes : Bytes) (offset : ℕ) : Except RecordError U64 :=
  match slice? bytes offset (offset+8) with
  | none => .error (.bodyTruncated 0 (offset+8) bytes.length)
  | some raw => .ok (ofLe 64 raw)

/-- Decodes one record and verifies its checksum before returning any field
(`decode_record`, `record.rs:188-239`). -/
def decodeRecord (bytes : Bytes) : Except RecordError DecodedRecord :=
  if bytes.length < recordHeaderLen then
    .error (.headerTruncated recordHeaderLen bytes.length)
  else do
    let payloadLength ← readU32 bytes 0
    let encodedLen:=minRecordLen+payloadLength.toNat
    if 2^64 ≤ encodedLen then throw (.lengthOverflow payloadLength)
    let truncated : RecordError := .bodyTruncated payloadLength encodedLen bytes.length
    if bytes.length < encodedLen then throw truncated
    let payloadEnd:=recordHeaderLen+payloadLength.toNat
    let payload ← (slice? bytes recordHeaderLen payloadEnd).elim (.error truncated) .ok
    let expected ← readU64 bytes payloadEnd
    let checksummed ← (slice? bytes 0 payloadEnd).elim (.error truncated) .ok
    let actual:=xxh3 checksummed
    if actual ≠ expected then throw (.checksumMismatch expected actual encodedLen)
    return ⟨⟨← readU64 bytes 4,← readU16 bytes 12,payload⟩,encodedLen⟩

theorem recordPrefix_length (r : WalRecord) :
    (recordPrefix r).length = recordHeaderLen+r.payload.length := by
  simp only [recordPrefix,length_append,toLe_length,recordHeaderLen]
  omega

@[simp] theorem recordBytes_length (r : WalRecord) :
    (recordBytes xxh3 r).length = minRecordLen+r.payload.length := by
  simp only [recordBytes,length_append,recordPrefix_length,toLe_length,minRecordLen,
    recordChecksumLen]
  omega

theorem appendRecordInto_of_lt (r : WalRecord) (encoded : Bytes) (h : r.payload.length < 2^32) :
    appendRecordInto xxh3 r encoded = .ok (encoded++recordBytes xxh3 r) := by
  simp only [appendRecordInto,if_pos h]

theorem encodeRecordInto_of_lt (r : WalRecord) (h : r.payload.length < 2^32) :
    encodeRecordInto xxh3 r = .ok (recordBytes xxh3 r) := by
  simp only [encodeRecordInto,appendRecordInto,if_pos h,nil_append]

/-- What `decodeRecord` accepts, as one condition on the byte string: the
declared length is available and the checksum word matches. -/
theorem decodeRecord_eq (bytes : Bytes) :
    decodeRecord xxh3 bytes =
      if bytes.length < recordHeaderLen then
        .error (.headerTruncated recordHeaderLen bytes.length)
      else
        let len:=ofLe 32 (bytes.take 4)
        if bytes.length < minRecordLen+len.toNat then
          .error (.bodyTruncated len (minRecordLen+len.toNat) bytes.length)
        else
          let expected:=ofLe 64 ((bytes.drop (recordHeaderLen+len.toNat)).take 8)
          let actual:=xxh3 (bytes.take (recordHeaderLen+len.toNat))
          if actual ≠ expected then
            .error (.checksumMismatch expected actual (minRecordLen+len.toNat))
          else .ok ⟨⟨ofLe 64 ((bytes.drop 4).take 8),ofLe 16 ((bytes.drop 12).take 2),
            (bytes.drop recordHeaderLen).take len.toNat⟩,minRecordLen+len.toNat⟩ := by
  by_cases hh : bytes.length < recordHeaderLen
  · simp only [decodeRecord,if_pos hh]
  have hlen : (14 : ℕ) ≤ bytes.length := by simpa [recordHeaderLen] using hh
  have h0 : readU32 bytes 0 = .ok (ofLe 32 (bytes.take 4)) := by
    simp only [readU32,slice?_eq_some (Nat.zero_le 4) (show 0+4 ≤ bytes.length by omega),
      drop_zero]
  set len := ofLe 32 (bytes.take 4) with hlen4
  have hl32 : len.toNat < 2^32 := len.isLt
  have hov : ¬ 2^64 ≤ minRecordLen+len.toNat := by
    simp only [minRecordLen,recordHeaderLen,recordChecksumLen]
    omega
  by_cases hb : bytes.length < minRecordLen+len.toNat
  · simp only [decodeRecord,if_neg hh,h0,bind,Except.bind,if_neg hov,if_pos hb,throw,
      throwThe,MonadExceptOf.throw,pure,Except.pure]
  have hfit : recordHeaderLen+len.toNat+8 ≤ bytes.length := by
    simp only [minRecordLen,recordHeaderLen,recordChecksumLen] at hb ⊢
    omega
  have hp : slice? bytes recordHeaderLen (recordHeaderLen+len.toNat) =
      some ((bytes.drop recordHeaderLen).take len.toNat) := by
    rw [slice?_eq_some (by omega) (by omega),Nat.add_sub_cancel_left]
  have hc : slice? bytes 0 (recordHeaderLen+len.toNat) =
      some (bytes.take (recordHeaderLen+len.toNat)) := by
    rw [slice?_eq_some (by omega) (by omega),drop_zero,Nat.sub_zero]
  have he : readU64 bytes (recordHeaderLen+len.toNat) =
      .ok (ofLe 64 ((bytes.drop (recordHeaderLen+len.toNat)).take 8)) := by
    simp only [readU64,slice?_eq_some (Nat.le_add_right _ 8) hfit,Nat.add_sub_cancel_left]
  have h4 : readU64 bytes 4 = .ok (ofLe 64 ((bytes.drop 4).take 8)) := by
    simp only [readU64,slice?_eq_some (Nat.le_add_right 4 8) (show 4+8 ≤ bytes.length by omega),
      Nat.add_sub_cancel_left]
  have h12 : readU16 bytes 12 = .ok (ofLe 16 ((bytes.drop 12).take 2)) := by
    simp only [readU16,slice?_eq_some (Nat.le_add_right 12 2)
      (show 12+2 ≤ bytes.length by omega),Nat.add_sub_cancel_left]
  simp only [decodeRecord,if_neg hh,h0,bind,Except.bind,if_neg hov,if_neg hb,hp,hc,he,h4,
    h12,Option.elim,throw,throwThe,MonadExceptOf.throw,pure,Except.pure]

theorem decodeRecord_recordBytes (r : WalRecord) (rest : Bytes) (h : r.payload.length < 2^32) :
    decodeRecord xxh3 (recordBytes xxh3 r++rest) = .ok ⟨r,minRecordLen+r.payload.length⟩ := by
  have hlen : ofLe 32 ((recordBytes xxh3 r++rest).take 4) = BitVec.ofNat 32 r.payload.length := by
    have ht : (recordBytes xxh3 r++rest).take 4 = toLe 4 (BitVec.ofNat 32 r.payload.length) := by
      simp only [recordBytes, recordPrefix,append_assoc]
      exact take_left' (toLe_length 4 _)
    rw [ht,ofLe_toLe_32]
  have hn : (BitVec.ofNat 32 r.payload.length).toNat = r.payload.length := by
    simp only [BitVec.toNat_ofNat,Nat.mod_eq_of_lt h]
  have htot : (recordBytes xxh3 r++rest).length =
      minRecordLen+r.payload.length+rest.length := by
    simp only [length_append,recordBytes_length]
  have hpre : (recordBytes xxh3 r++rest).take (recordHeaderLen+r.payload.length) =
      recordPrefix r := by
    simp only [recordBytes,append_assoc]
    exact take_left' (recordPrefix_length r)
  have hsum : ((recordBytes xxh3 r++rest).drop (recordHeaderLen+r.payload.length)).take 8 =
      toLe 8 (xxh3 (recordPrefix r)) := by
    have hd : (recordBytes xxh3 r++rest).drop (recordHeaderLen+r.payload.length) =
        toLe 8 (xxh3 (recordPrefix r))++rest := by
      simp only [recordBytes,append_assoc]
      exact drop_left' (recordPrefix_length r)
    rw [hd]
    exact take_left' (toLe_length 8 _)
  have hseq : ((recordBytes xxh3 r++rest).drop 4).take 8 = toLe 8 r.seq := by
    simp only [recordBytes, recordPrefix,append_assoc]
    rw [drop_left' (toLe_length 4 _)]
    exact take_left' (toLe_length 8 _)
  have hop : ((recordBytes xxh3 r++rest).drop 12).take 2 = toLe 2 r.op := by
    have hd : (recordBytes xxh3 r++rest).drop 12 = ((recordBytes xxh3 r++rest).drop 4).drop 8 := by
      rw [drop_drop]
    rw [hd]
    simp only [recordBytes, recordPrefix,append_assoc]
    rw [drop_left' (toLe_length 4 _),drop_left' (toLe_length 8 _)]
    exact take_left' (toLe_length 2 _)
  have hpay : ((recordBytes xxh3 r++rest).drop recordHeaderLen).take r.payload.length =
      r.payload := by
    have hd : (recordBytes xxh3 r++rest).drop recordHeaderLen =
        ((recordBytes xxh3 r++rest).drop 4).drop 10 := by
      rw [drop_drop]
      rfl
    rw [hd]
    simp only [recordBytes, recordPrefix,append_assoc]
    rw [drop_left' (toLe_length 4 _),show (10 : ℕ) = 8+2 from rfl,← drop_drop,
      drop_left' (toLe_length 8 _),drop_left' (toLe_length 2 _)]
    exact take_left
  have h1 : ¬ minRecordLen+r.payload.length+rest.length < recordHeaderLen := by
    simp only [minRecordLen,recordHeaderLen,recordChecksumLen]
    omega
  have h2 : ¬ minRecordLen+r.payload.length+rest.length < minRecordLen+r.payload.length := by
    omega
  simp only [decodeRecord_eq,hlen,hn,htot,if_neg h1,if_neg h2,hpre,hsum,hseq,hop,hpay,
    ofLe_toLe_64,ofLe_toLe_16,ne_eq,not_true_eq_false,ite_false]

/-- An accepted record is the framing of what it decodes to, followed by the
unread rest: the record codec is canonical. -/
theorem decodeRecord_ok {bytes : Bytes} {d : DecodedRecord} (h : decodeRecord xxh3 bytes = .ok d) :
    bytes = recordBytes xxh3 d.record++bytes.drop d.encodedLen ∧
      d.record.payload.length < 2^32 ∧
      d.encodedLen = minRecordLen+d.record.payload.length ∧ d.encodedLen ≤ bytes.length := by
  rw [decodeRecord_eq] at h
  set len := ofLe 32 (bytes.take 4) with hlen4
  dsimp only at h
  split at h
  · cases h
  rename_i hh
  split at h
  · cases h
  rename_i hb
  split at h
  · cases h
  rename_i hc
  have hd : d = _ := (Except.ok.inj h).symm
  have hl32 : len.toNat < 2^32 := len.isLt
  have h14 : 14 ≤ bytes.length := by simpa [recordHeaderLen] using hh
  have hsum : xxh3 (bytes.take (recordHeaderLen+len.toNat)) =
      ofLe 64 ((bytes.drop (recordHeaderLen+len.toNat)).take 8) := not_not.mp hc
  have hfit : recordHeaderLen+len.toNat+8 ≤ bytes.length := by
    simp only [minRecordLen,recordHeaderLen,recordChecksumLen] at hb ⊢
    omega
  have hplen : ((bytes.drop recordHeaderLen).take len.toNat).length = len.toNat := by
    simp only [length_take,length_drop]
    omega
  have hpre : recordPrefix d.record = bytes.take (recordHeaderLen+len.toNat) := by
    simp only [hd, recordPrefix,hplen,BitVec.ofNat_toNat,BitVec.setWidth_eq]
    rw [hlen4,toLe_ofLe 4 (by decide) _ (by simp only [length_take]; omega),
      toLe_ofLe 8 (by decide) _ (by simp only [length_take,length_drop]; omega),
      toLe_ofLe 2 (by decide) _ (by simp only [length_take,length_drop]; omega)]
    have hs : recordHeaderLen+len.toNat = 4+(8+(2+len.toNat)) := by
      simp only [recordHeaderLen]
      omega
    rw [hs,take_add,take_add,take_add,drop_drop,drop_drop,
      ← hlen4]
    rfl
  have henc : d.encodedLen = recordHeaderLen+len.toNat+8 := by
    simp only [hd,minRecordLen,recordHeaderLen,recordChecksumLen]
    omega
  have hpl : d.record.payload.length = len.toNat := by
    rw [hd]
    exact hplen
  refine ⟨?_,by omega,?_,by omega⟩
  · have hchk : toLe 8 (xxh3 (recordPrefix d.record)) =
        (bytes.drop (recordHeaderLen+len.toNat)).take 8 := by
      rw [hpre,hsum]
      exact toLe_ofLe 8 (by decide) _ (by simp only [length_take,length_drop]; omega)
    rw [recordBytes,hchk,hpre,henc,← take_add]
    exact (take_append_drop _ bytes).symm
  · rw [henc,hpl]
    simp only [minRecordLen,recordHeaderLen,recordChecksumLen]
    omega

theorem decodeRecord_take (r : WalRecord) (n : ℕ) (h : r.payload.length < 2^32)
    (hn : n < minRecordLen+r.payload.length) :
    decodeRecord xxh3 ((recordBytes xxh3 r).take n) =
      if n < recordHeaderLen then .error (.headerTruncated recordHeaderLen n)
      else .error (.bodyTruncated (BitVec.ofNat 32 r.payload.length)
        (minRecordLen+r.payload.length) n) := by
  have hlen : ((recordBytes xxh3 r).take n).length = n := by
    rw [length_take,recordBytes_length]
    omega
  rw [decodeRecord_eq,hlen]
  by_cases hs : n < recordHeaderLen
  · simp only [if_pos hs]
  · have h4 : ((recordBytes xxh3 r).take n).take 4 =
        toLe 4 (BitVec.ofNat 32 r.payload.length) := by
      simp only [recordHeaderLen] at hs
      rw [take_take,Nat.min_eq_left (by omega)]
      simp only [recordBytes, recordPrefix,append_assoc]
      exact take_left' (toLe_length 4 _)
    have hv : (BitVec.ofNat 32 r.payload.length).toNat = r.payload.length := by
      simp only [BitVec.toNat_ofNat,Nat.mod_eq_of_lt h]
    simp only [if_neg hs,h4,ofLe_toLe_32,hv,if_pos hn]

end Checksum

/-! wal/header.rs -/

open Format

def walHeaderLen : ℕ := fileHeaderLen+8

structure WalHeader where
  firstSeq : LogSeq
  deriving DecidableEq

inductive WalHeaderError where
  | missing
  | truncated (needed available : ℕ)
  | wrongMagic (expected actual : Bytes)
  | wrongFamily (expected actual : U16)
  | unsupportedVersion (family version minimum maximum : U16)
  | invalidHeaderLength (expected actual : U64)
  | nonZeroFileLength (actual : U64)
  | invalidSharedHeader (check : FormatCheck)
  deriving DecidableEq

/-- Header fields of a log written by the registered WAL version `version`. -/
def walFileHeader (version : U16) : FileHeader :=
  ⟨fileMagic,FormatFamily.wal.id,version,0,BitVec.ofNat 64 walHeaderLen,0⟩

def encodeHeader (firstSeq : LogSeq) : Except RegistryError Bytes :=
  match families.find? (fun candidate => candidate.family == .wal) with
  | none => .error (.unknownFamily FormatFamily.wal.id)
  | some spec => .ok (Format.encodeHeader (walFileHeader spec.currentVersion)++toLe 8 firstSeq)

def invalidSharedHeader (e : FormatError) : WalHeaderError := .invalidSharedHeader e.check

/-- Maps a shared-header refusal to the WAL error naming the offending field
(`header.rs:161-190`). -/
def sharedHeaderError (magic : Bytes) (family version : U16) (headerLength : U64)
    (e : FormatError) : WalHeaderError :=
  match e.check with
  | .magic => .wrongMagic fileMagic magic
  | .family => .wrongFamily FormatFamily.wal.id family
  | .version =>
    match require family version with
    | .error (.unsupportedVersion f v lo hi) => .unsupportedVersion f v lo hi
    | _ => .invalidSharedHeader .version
  | .headerLength => .invalidHeaderLength (BitVec.ofNat 64 walHeaderLen) headerLength
  | check => .invalidSharedHeader check

def decodeHeader (bytes : Bytes) : Except WalHeaderError WalHeader :=
  if bytes = [] then .error .missing else
  if bytes.length < walHeaderLen then .error (.truncated walHeaderLen bytes.length) else do
    let magic:=bytes.take 8
    let family ← (Format.readU16 bytes 8).mapError invalidSharedHeader
    let version ← (Format.readU16 bytes 10).mapError invalidSharedHeader
    let headerLength ← (Format.readU64 bytes 16).mapError invalidSharedHeader
    let common ← (Format.decodeHeader .wal bytes).mapError
      (sharedHeaderError magic family version headerLength)
    if common.headerLength ≠ BitVec.ofNat 64 walHeaderLen then
      throw (.invalidHeaderLength (BitVec.ofNat 64 walHeaderLen) common.headerLength)
    if common.fileLength ≠ 0 then throw (.nonZeroFileLength common.fileLength)
    let firstSeq ← (Format.readU64 bytes fileHeaderLen).mapError invalidSharedHeader
    return ⟨firstSeq⟩

def headerBytes (firstSeq : LogSeq) : Bytes :=
  Format.encodeHeader (walFileHeader 1)++toLe 8 firstSeq

theorem encodeHeader_eq (firstSeq : LogSeq) : encodeHeader firstSeq = .ok (headerBytes firstSeq) :=
  rfl

@[simp] theorem headerBytes_length (firstSeq : LogSeq) :
    (headerBytes firstSeq).length = walHeaderLen := by
  simp only [headerBytes,length_append,toLe_length,walHeaderLen,
    Format.encodeHeader_length (walFileHeader 1) rfl]

theorem decodeHeader_headerBytes (firstSeq : LogSeq) (rest : Bytes) :
    decodeHeader (headerBytes firstSeq++rest) = .ok ⟨firstSeq⟩ := by
  have hl : (headerBytes firstSeq++rest).length = walHeaderLen+rest.length := by
    rw [length_append,headerBytes_length]
  have hne : headerBytes firstSeq++rest ≠ [] := by
    intro he
    rw [he] at hl
    simp only [length_nil,walHeaderLen,fileHeaderLen] at hl
    omega
  have hshort : ¬ (headerBytes firstSeq++rest).length < walHeaderLen := by omega
  have hfield : ∀ w n offset,offset+n ≤ walHeaderLen →
      ∃ v,readField w n (headerBytes firstSeq++rest) offset = .ok v := fun w n offset ho =>
    ⟨_,readField_of_length w n _ offset (by omega)⟩
  obtain ⟨family,hf⟩ := hfield 16 2 8 (by decide)
  obtain ⟨version,hv⟩ := hfield 16 2 10 (by decide)
  obtain ⟨headerLength,hh⟩ := hfield 64 8 16 (by decide)
  have hcommon : Format.decodeHeader .wal (headerBytes firstSeq++rest) =
      .ok (walFileHeader 1) := by
    have hd:=decodeHeader_encodeHeader .wal (walFileHeader 1) (toLe 8 firstSeq++rest) rfl rfl
      (versionOne .wal) rfl (by decide)
    simpa only [headerBytes,append_assoc] using hd
  have hseq : Format.readU64 (headerBytes firstSeq++rest) fileHeaderLen = .ok firstSeq := by
    have hr:=readField_append 64 8 (Format.encodeHeader (walFileHeader 1)) (toLe 8 firstSeq) rest
      fileHeaderLen (Format.encodeHeader_length _ rfl) (toLe_length 8 _)
    simpa only [Format.readU64,headerBytes,append_assoc,ofLe_toLe_64] using hr
  simp only [decodeHeader,if_neg hne,if_neg hshort,Format.readU16,Format.readU64,hf,hv,hh,
    Except.mapError,bind,Except.bind,hcommon,walFileHeader,ne_eq,not_true_eq_false,ite_false,
    pure,Except.pure]
  rw [← Format.readU64,hseq]

theorem decodeHeader_ok_length {bytes : Bytes} {h : WalHeader} (hd : decodeHeader bytes = .ok h) :
    walHeaderLen ≤ bytes.length := by
  unfold decodeHeader at hd
  split at hd
  · cases hd
  · split at hd
    · cases hd
    · omega

end Zeppelin.Wal
