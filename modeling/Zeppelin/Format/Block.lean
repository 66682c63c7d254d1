import Zeppelin.Format.Frame
import Zeppelin.Machine.Except

namespace Zeppelin.Format
open List

section Fields
variable {bytes x y : Bytes} {a n w : ℕ}

theorem drop_behind (h : bytes.drop a = x++y) (hx : x.length = n) : bytes.drop (a+n) = y := by
  rw [← drop_drop,h,← hx,drop_left]

theorem drop_split (bytes : Bytes) (a n : ℕ) :
    bytes.drop a = (bytes.drop a).take n++bytes.drop (a+n) := by
  rw [← drop_drop,take_append_drop]

theorem drop_split_of_le {b : ℕ} (bytes : Bytes) (h : a ≤ b) :
    bytes.drop a = (bytes.drop a).take (b-a)++bytes.drop b := by
  have hsplit:=drop_split bytes a (b-a)
  rwa [Nat.add_sub_cancel' h] at hsplit

theorem length_of_drop (h : bytes.drop a = x++y) (hx : 0 < x.length) :
    bytes.length = a+x.length+y.length := by
  have hlength:=congrArg List.length h
  rw [length_drop,length_append] at hlength
  omega

theorem readField_of_drop {v : BitVec w} (hw : w = 8*n) (hn : 0 < n)
    (h : bytes.drop a = toLe n v++y) : readField w n bytes a = .ok v := by
  have hlength:=length_of_drop h (by rwa [toLe_length])
  rw [toLe_length] at hlength
  rw [readField_of_length w n bytes a (by omega),h,take_left' (toLe_length n v),
    ofLe_toLe n hw]

theorem drop_of_readField {v : BitVec w} (hw : w = 8*n) (h : readField w n bytes a = .ok v) :
    bytes.drop a = toLe n v++bytes.drop (a+n) ∧ a+n ≤ bytes.length := by
  unfold readField at h
  split at h
  · cases h
  · rename_i raw hraw
    obtain ⟨-,hle,hraw⟩ := slice?_some hraw
    rw [Nat.add_sub_cancel_left] at hraw
    obtain rfl := Except.ok.inj h
    refine ⟨?_,hle⟩
    rw [toLe_ofLe n hw raw (by rw [hraw,length_take,length_drop]; omega),hraw]
    exact drop_split bytes a n

theorem readU16_of_drop {v : U16} (h : bytes.drop a = toLe 2 v++y) : readU16 bytes a = .ok v :=
  readField_of_drop rfl (by decide) h

theorem readU32_of_drop {v : U32} (h : bytes.drop a = toLe 4 v++y) : readU32 bytes a = .ok v :=
  readField_of_drop rfl (by decide) h

theorem readU64_of_drop {v : U64} (h : bytes.drop a = toLe 8 v++y) : readU64 bytes a = .ok v :=
  readField_of_drop rfl (by decide) h

theorem drop_of_readU16 {v : U16} (h : readU16 bytes a = .ok v) :
    bytes.drop a = toLe 2 v++bytes.drop (a+2) := (drop_of_readField (n := 2) rfl h).1

theorem drop_of_readU32 {v : U32} (h : readU32 bytes a = .ok v) :
    bytes.drop a = toLe 4 v++bytes.drop (a+4) := (drop_of_readField (n := 4) rfl h).1

theorem drop_of_readU64 {v : U64} (h : readU64 bytes a = .ok v) :
    bytes.drop a = toLe 8 v++bytes.drop (a+8) := (drop_of_readField (n := 8) rfl h).1

theorem decodeHeader_ok {expected : FormatFamily} {header : FileHeader}
    (h : decodeHeader expected bytes = .ok header) :
    bytes = encodeHeader header++bytes.drop fileHeaderLen ∧ header.magic = fileMagic ∧
      header.family = expected.id ∧ fileHeaderLen ≤ bytes.length ∧
      ∃ spec,require header.family header.version = .ok spec := by
  unfold decodeHeader at h
  split_ifs at h with hshort
  simp only at h
  split_ifs at h with hmagic
  rw [not_not] at hmagic
  obtain ⟨family,hfamily,h⟩ := bind_eq_ok h
  obtain ⟨hexpected,h⟩ := of_ite_ne_error h
  obtain ⟨version,hversion,h⟩ := bind_eq_ok h
  cases hrequire : require family version with
  | error e =>
    rw [hrequire] at h
    cases h
  | ok spec =>
    rw [hrequire] at h
    obtain ⟨flags,hflags,h⟩ := bind_eq_ok h
    obtain ⟨headerLength,hheader,h⟩ := bind_eq_ok h
    obtain ⟨fileLength,hfile,h⟩ := bind_eq_ok h
    by_cases hlen : headerLength.toNat < fileHeaderLen
    · rw [if_pos hlen] at h
      cases h
    · rw [if_neg hlen] at h
      obtain rfl := Except.ok.inj h
      refine ⟨?_,rfl,hexpected,not_lt.mp hshort,spec,hrequire⟩
      have hfixed : bytes.take fileHeaderLen =
          encodeHeader ⟨fileMagic,family,version,flags,headerLength,fileLength⟩ := by
        have hnil : (bytes.take fileHeaderLen).drop 32 = [] :=
          drop_eq_nil_of_le (length_take_le _ _)
        calc bytes.take fileHeaderLen
            = (bytes.take fileHeaderLen).take 8++(bytes.take fileHeaderLen).drop 8 :=
              (take_append_drop ..).symm
          _ = _ := by
            rw [hmagic,drop_of_readU16 hfamily,drop_of_readU16 hversion,
              drop_of_readU32 hflags,drop_of_readU64 hheader,drop_of_readU64 hfile,hnil,
              append_nil]
            rfl
      rw [← hfixed,take_append_drop]

def zeros (n : ℕ) : Bytes := List.replicate n 0

@[simp] theorem zeros_length (n : ℕ) : (zeros n).length = n := length_replicate

def allZero (bytes : Bytes) : Bool := bytes.all fun b => b = 0

theorem allZero_zeros (n : ℕ) : allZero (zeros n) = true := by
  simp [allZero,zeros]

theorem eq_zeros_of_allZero (h : allZero bytes = true) : bytes = zeros bytes.length := by
  refine eq_replicate_iff.mpr ⟨rfl,fun b hb => ?_⟩
  exact of_decide_eq_true (all_eq_true.mp h b hb)

end Fields

/-! format/frame.rs -/

def fileTrailerLen : ℕ := 8

def blockHeader (family : FormatFamily) (version : U16) (flags : U32) (payload : Bytes) :
    FileHeader :=
  ⟨fileMagic,family.id,version,flags,BitVec.ofNat 64 fileHeaderLen,
    BitVec.ofNat 64 (fileHeaderLen+16+payload.length+fileTrailerLen)⟩

structure DecodedArtifact where
  header : FileHeader
  payload : Bytes
  deriving DecidableEq

section Checksum
variable (xxh3 : Bytes → U64)

def framedBlock (header : FileHeader) (payload : Bytes) : Bytes :=
  encodeHeader header++(toLe 8 (BitVec.ofNat 64 payload.length)++(payload++
    toLe 8 (xxh3 payload)))

def encodeArtifactVersion (family : FormatFamily) (version : U16) (flags : U32)
    (payload : Bytes) : Bytes :=
  let body:=framedBlock xxh3 (blockHeader family version flags payload) payload
  body++toLe 8 (xxh3 body)

def decodeArtifact (expected : FormatFamily) (bytes : Bytes) : Except FormatError DecodedArtifact := do
  let header ← decodeHeader expected bytes
  if header.fileLength.toNat ≠ bytes.length then .error ⟨.fileLength,.none,none⟩
  else if header.headerLength.toNat ≠ fileHeaderLen then .error ⟨.headerLength,.none,none⟩
  else if bytes.length < fileTrailerLen then .error ⟨.length,.none,none⟩
  else
    let trailerStart:=bytes.length-fileTrailerLen
    let fileChecksum ← readU64 bytes trailerStart
    if xxh3 (bytes.take trailerStart) ≠ fileChecksum then
      .error ⟨.fileChecksum,.checksum fileChecksum (xxh3 (bytes.take trailerStart)),none⟩
    else
      let length ← readU64 bytes fileHeaderLen
      let payloadEnd:=fileHeaderLen+8+length.toNat
      if payloadEnd+8 ≠ trailerStart then .error ⟨.blockLength,.none,none⟩
      else
        let payload:=(bytes.drop (fileHeaderLen+8)).take length.toNat
        let blockChecksum ← readU64 bytes payloadEnd
        if xxh3 payload ≠ blockChecksum then
          .error ⟨.blockChecksum,.checksum blockChecksum (xxh3 payload),none⟩
        else .ok ⟨header,payload⟩

variable {xxh3} {family : FormatFamily} {version : U16} {flags : U32} {payload bytes : Bytes}

theorem framedBlock_length (header : FileHeader) (h : header.magic.length = 8) :
    (framedBlock xxh3 header payload).length = 48+payload.length := by
  simp only [framedBlock,length_append,toLe_length,encodeHeader_length header h,
    fileHeaderLen]
  omega

theorem encodeArtifactVersion_length :
    (encodeArtifactVersion xxh3 family version flags payload).length = 56+payload.length := by
  simp only [encodeArtifactVersion,length_append,toLe_length,
    framedBlock_length (blockHeader family version flags payload) rfl]
  omega

theorem decodeArtifact_encode {spec : FamilySpec} (hversion : require family.id version = .ok spec)
    (hsize : 56+payload.length < 2^64) :
    decodeArtifact xxh3 family (encodeArtifactVersion xxh3 family version flags payload) =
      .ok ⟨blockHeader family version flags payload,payload⟩ := by
  set header := blockHeader family version flags payload with hheader
  set body := framedBlock xxh3 header payload with hbody
  have hlength : (encodeArtifactVersion xxh3 family version flags payload).length =
      56+payload.length := encodeArtifactVersion_length
  have hbodylength : body.length = 48+payload.length := framedBlock_length header rfl
  have heq : encodeArtifactVersion xxh3 family version flags payload = encodeHeader header++
      (toLe 8 (BitVec.ofNat 64 payload.length)++(payload++(toLe 8 (xxh3 payload)++
        toLe 8 (xxh3 body)))) := by
    simp only [encodeArtifactVersion,← hheader,← hbody]
    rw [hbody]
    simp only [framedBlock,append_assoc]
  have hdecode : decodeHeader family (encodeArtifactVersion xxh3 family version flags payload) =
      .ok header := by
    rw [heq]
    exact decodeHeader_encodeHeader family header _ rfl rfl spec hversion (le_refl 32)
  set bytes := encodeArtifactVersion xxh3 family version flags payload with hbytes
  have h0 : bytes.drop 0 = encodeHeader header++(toLe 8 (BitVec.ofNat 64 payload.length)++
      (payload++(toLe 8 (xxh3 payload)++toLe 8 (xxh3 body)))) := by rw [drop_zero,heq]
  have h32:=drop_behind h0 (encodeHeader_length header rfl)
  have h40:=drop_behind h32 (toLe_length 8 _)
  have hend:=drop_behind h40 rfl
  have htrailer : bytes.drop (48+payload.length) = toLe 8 (xxh3 body)++[] := by
    rw [hbytes,encodeArtifactVersion,← hheader,← hbody,← hbodylength,drop_left,
      append_nil]
  have hchecked : bytes.take (48+payload.length) = body := by
    rw [hbytes,encodeArtifactVersion,← hheader,← hbody,← hbodylength,take_left]
  rw [Nat.zero_add] at h32 h40 hend
  have hword : (BitVec.ofNat 64 payload.length).toNat = payload.length := by
    rw [BitVec.toNat_ofNat]
    omega
  have hfile : header.fileLength.toNat = bytes.length := by
    rw [hlength,hheader,blockHeader]
    simp only [BitVec.toNat_ofNat,fileHeaderLen,fileTrailerLen]
    omega
  have hheaderLength : header.headerLength.toNat = fileHeaderLen := rfl
  unfold decodeArtifact
  rw [hdecode,ok_bind,if_neg (not_not.mpr hfile),if_neg (not_not.mpr hheaderLength),
    if_neg (by rw [hlength,fileTrailerLen]; omega)]
  simp only
  rw [hlength,show 56+payload.length-fileTrailerLen = 48+payload.length by
    simp only [fileTrailerLen]; omega,readU64_of_drop htrailer,ok_bind,hchecked,
    if_neg (not_not.mpr rfl),readU64_of_drop h32,ok_bind,hword,
    if_neg (by simp only [fileHeaderLen]; omega),readU64_of_drop hend,ok_bind,h40,
    take_left' rfl,if_neg (not_not.mpr rfl)]

theorem decodeArtifact_ok {out : DecodedArtifact} (h : decodeArtifact xxh3 family bytes = .ok out) :
    bytes.length = 56+out.payload.length ∧ bytes.length < 2^64 ∧
      ∃ spec,require family.id out.header.version = .ok spec := by
  obtain ⟨header,hheader,h⟩ := bind_eq_ok h
  obtain ⟨-,-,hfamily,-,spec,hspec⟩ := decodeHeader_ok hheader
  split_ifs at h with hfile hheaderLength hshort
  obtain ⟨fileChecksum,-,h⟩ := bind_eq_ok h
  split_ifs at h with hchecksum
  obtain ⟨length,-,h⟩ := bind_eq_ok h
  simp only at h
  split_ifs at h with hend
  obtain ⟨blockChecksum,-,h⟩ := bind_eq_ok h
  split_ifs at h with hblock
  obtain rfl := Except.ok.inj h
  rw [hfamily] at hspec
  rw [not_not] at hfile hend
  refine ⟨?_,?_,spec,hspec⟩
  · simp only [length_take,length_drop,fileHeaderLen,fileTrailerLen] at *
    omega
  · rw [← hfile]
    exact header.fileLength.isLt

end Checksum

end Zeppelin.Format
