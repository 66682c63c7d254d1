import Zeppelin.Bytes.LittleEndian

/-! format/mod.rs, format/frame.rs -/

namespace Zeppelin.Format
open List

/-- Persisted artifact families (`format/mod.rs:9-50`). -/
inductive FormatFamily where
  | frame | segment | vectorCodes | vectorFactors | vectorRescore | columns | alive | postings
  | checksumTable | manifest | wal | graphNodeBlocks | documentVersions | storedMetadata
  | purgeIntent | storedText | nativeGraphObject | nativeGraphRoot | nativeGraphWal
  deriving DecidableEq

def FormatFamily.id : FormatFamily → U16
  | .frame => 1 | .segment => 2 | .vectorCodes => 3 | .vectorFactors => 4 | .vectorRescore => 5
  | .columns => 6 | .alive => 7 | .postings => 8 | .checksumTable => 9 | .manifest => 10
  | .wal => 11 | .graphNodeBlocks => 12 | .documentVersions => 13 | .storedMetadata => 14
  | .purgeIntent => 15 | .storedText => 16 | .nativeGraphObject => 17 | .nativeGraphRoot => 18
  | .nativeGraphWal => 19

structure FamilySpec where
  family : FormatFamily
  currentVersion : U16
  minimumAcceptedVersion : U16
  maximumAcceptedVersion : U16
  deriving DecidableEq

inductive RegistryError where
  | unknownFamily (family : U16)
  | unsupportedVersion (family version minimum maximum : U16)
  deriving DecidableEq

def versionOne (family : FormatFamily) : FamilySpec := ⟨family,1,1,1⟩

/-- The static registry (`format/mod.rs:145-260`); manifests alone have more
than one accepted version. -/
def families : List FamilySpec :=
  [versionOne .frame,versionOne .segment,versionOne .vectorCodes,versionOne .vectorFactors,
   versionOne .vectorRescore,versionOne .columns,versionOne .alive,versionOne .postings,
   versionOne .checksumTable,⟨.manifest,2,2,3⟩,versionOne .wal,versionOne .graphNodeBlocks,
   versionOne .documentVersions,versionOne .storedMetadata,versionOne .purgeIntent,
   versionOne .storedText,versionOne .nativeGraphObject,versionOne .nativeGraphRoot,
   versionOne .nativeGraphWal]

def require (family version : U16) : Except RegistryError FamilySpec :=
  match families.find? (fun candidate => candidate.family.id == family) with
  | none => .error (.unknownFamily family)
  | some spec =>
    if version < spec.minimumAcceptedVersion ∨ version > spec.maximumAcceptedVersion then
      .error (.unsupportedVersion family version spec.minimumAcceptedVersion
        spec.maximumAcceptedVersion)
    else .ok spec

def fileHeaderLen : ℕ := 32

/-- `ZEPEMBED` in ASCII. -/
def fileMagic : Bytes := [0x5A,0x45,0x50,0x45,0x4D,0x42,0x45,0x44]

structure FileHeader where
  magic : Bytes
  family : U16
  version : U16
  flags : U32
  headerLength : U64
  fileLength : U64
  deriving DecidableEq

/-- The validation check that rejected an artifact (`format/frame.rs:38-60`). -/
inductive FormatCheck where
  | length | magic | family | version | headerLength | fileLength | blockLength | blockChecksum
  | fileChecksum | objectIdentity
  deriving DecidableEq

inductive FormatValues where
  | none
  | family (expected actual : U16)
  | checksum (expected actual : U64)
  deriving DecidableEq

structure FormatError where
  check : FormatCheck
  values : FormatValues := .none
  versionRange : Option (U16 × U16 × U16) := none
  deriving DecidableEq

/-- `registry_error`: every registry refusal is a version failure. -/
def registryError : RegistryError → FormatError
  | .unsupportedVersion _ version minimum maximum =>
    ⟨.version,.none,some (version,minimum,maximum)⟩
  | .unknownFamily _ => ⟨.version,.none,none⟩

def encodeHeader (h : FileHeader) : Bytes :=
  h.magic++(toLe 2 h.family++(toLe 2 h.version++(toLe 4 h.flags++
    (toLe 8 h.headerLength++toLe 8 h.fileLength))))

/-- Little-endian field of `n` bytes at `offset` (`read_u16`, `read_u32`, `read_u64`). -/
def readField (w n : ℕ) (bytes : Bytes) (offset : ℕ) : Except FormatError (BitVec w) :=
  match slice? bytes offset (offset+n) with
  | none => .error ⟨.length,.none,none⟩
  | some raw => .ok (ofLe w raw)

def readU16 (bytes : Bytes) (offset : ℕ) : Except FormatError U16 := readField 16 2 bytes offset
def readU32 (bytes : Bytes) (offset : ℕ) : Except FormatError U32 := readField 32 4 bytes offset
def readU64 (bytes : Bytes) (offset : ℕ) : Except FormatError U64 := readField 64 8 bytes offset

/-- Parses the fixed 32-byte header and validates its registry declaration
(`format/frame.rs:238-283`). -/
def decodeHeader (expected : FormatFamily) (bytes : Bytes) : Except FormatError FileHeader :=
  if bytes.length < fileHeaderLen then .error ⟨.length,.none,none⟩ else
  let fixed:=bytes.take fileHeaderLen
  if fixed.take 8 ≠ fileMagic then .error ⟨.magic,.none,none⟩ else do
    let family ← readU16 fixed 8
    if family ≠ expected.id then throw ⟨.family,.family expected.id family,none⟩
    let version ← readU16 fixed 10
    match require family version with
    | .error e => throw (registryError e)
    | .ok _ => pure ()
    let flags ← readU32 fixed 12
    let headerLength ← readU64 fixed 16
    let fileLength ← readU64 fixed 24
    if headerLength.toNat < fileHeaderLen then throw ⟨.headerLength,.none,none⟩
    return ⟨fileMagic,family,version,flags,headerLength,fileLength⟩

@[simp] theorem fileMagic_length : fileMagic.length = 8 := rfl

theorem encodeHeader_length (h : FileHeader) (hm : h.magic.length = 8) :
    (encodeHeader h).length = fileHeaderLen := by
  simp only [encodeHeader,length_append,hm,toLe_length,fileHeaderLen]

theorem readField_append (w n : ℕ) (xs ys zs : Bytes) (offset : ℕ) (hs : xs.length = offset)
    (hn : ys.length = n) : readField w n (xs++(ys++zs)) offset = .ok (ofLe w ys) := by
  unfold readField
  rw [slice?_append hs (by omega)]

theorem readField_of_length (w n : ℕ) (bytes : Bytes) (offset : ℕ)
    (h : offset+n ≤ bytes.length) :
    readField w n bytes offset = .ok (ofLe w ((bytes.drop offset).take n)) := by
  unfold readField
  rw [slice?_eq_some (by omega) h,Nat.add_sub_cancel_left]

/-- A header with the permanent magic and a registered family and version
decodes to itself, whatever follows it. -/
theorem decodeHeader_encodeHeader (expected : FormatFamily) (h : FileHeader) (rest : Bytes)
    (hm : h.magic = fileMagic) (hf : h.family = expected.id) (spec : FamilySpec)
    (hv : require h.family h.version = .ok spec) (hl : fileHeaderLen ≤ h.headerLength.toNat) :
    decodeHeader expected (encodeHeader h++rest) = .ok h := by
  have hlen : (encodeHeader h).length = fileHeaderLen := encodeHeader_length h (by rw [hm]; rfl)
  have hfix : (encodeHeader h++rest).take fileHeaderLen = encodeHeader h := by
    rw [← hlen,take_left]
  have hshort : ¬ (encodeHeader h++rest).length < fileHeaderLen := by
    rw [length_append,hlen]
    omega
  have hmag : (encodeHeader h).take 8 = fileMagic := by
    simp only [encodeHeader,hm]
    exact take_left' rfl
  have hm8 : h.magic.length = 8 := by rw [hm]; rfl
  have h8 : readU16 (encodeHeader h) 8 = .ok h.family := by
    have hr:=readField_append 16 2 h.magic (toLe 2 h.family) (toLe 2 h.version++
      (toLe 4 h.flags++(toLe 8 h.headerLength++toLe 8 h.fileLength))) 8 hm8 (toLe_length 2 _)
    simpa only [readU16,encodeHeader,ofLe_toLe_16] using hr
  have h10 : readU16 (encodeHeader h) 10 = .ok h.version := by
    have hr:=readField_append 16 2 (h.magic++toLe 2 h.family) (toLe 2 h.version)
      (toLe 4 h.flags++(toLe 8 h.headerLength++toLe 8 h.fileLength)) 10
      (by simp only [length_append,hm8,toLe_length]) (toLe_length 2 _)
    simpa only [readU16,encodeHeader,ofLe_toLe_16,append_assoc] using hr
  have h12 : readU32 (encodeHeader h) 12 = .ok h.flags := by
    have hr:=readField_append 32 4 (h.magic++(toLe 2 h.family++toLe 2 h.version))
      (toLe 4 h.flags) (toLe 8 h.headerLength++toLe 8 h.fileLength) 12
      (by simp only [length_append,hm8,toLe_length]) (toLe_length 4 _)
    simpa only [readU32,encodeHeader,ofLe_toLe_32,append_assoc] using hr
  have h16 : readU64 (encodeHeader h) 16 = .ok h.headerLength := by
    have hr:=readField_append 64 8
      (h.magic++(toLe 2 h.family++(toLe 2 h.version++toLe 4 h.flags)))
      (toLe 8 h.headerLength) (toLe 8 h.fileLength) 16
      (by simp only [length_append,hm8,toLe_length]) (toLe_length 8 _)
    simpa only [readU64,encodeHeader,ofLe_toLe_64,append_assoc] using hr
  have h24 : readU64 (encodeHeader h) 24 = .ok h.fileLength := by
    have hr:=readField_append 64 8
      (h.magic++(toLe 2 h.family++(toLe 2 h.version++(toLe 4 h.flags++
        toLe 8 h.headerLength)))) (toLe 8 h.fileLength) [] 24
      (by simp only [length_append,hm8,toLe_length]) (toLe_length 8 _)
    simpa only [readU64,encodeHeader,ofLe_toLe_64,append_assoc,append_nil] using hr
  have hhl : ¬ h.headerLength.toNat < fileHeaderLen := by omega
  simp only [decodeHeader,if_neg hshort,hfix,hmag,ne_eq,not_true_eq_false,ite_false,h8,h10,
    h12,h16,h24,bind,Except.bind,hf,pure,Except.pure,hhl]
  rw [← hf,hv,← hm]

end Zeppelin.Format
