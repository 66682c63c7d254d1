import Zeppelin.Machine.Except
import Zeppelin.PropertyGraph.Identity

/-! property_graph/wal/codec.rs, wal/mod.rs -/

namespace Zeppelin.GraphWal
open PropertyGraph List

inductive WalError where
  | unsupported | malformed | checksum | store | sequence | highWater | capacity | workLimit
  | cancelled | missingArtifact | participant | failed
  deriving DecidableEq

def maxEnvelopeBytes : ℕ := 16*1024*1024
def maxArtifactBytes : ℕ := 4*1024*1024
def maxGraphInputBytes : ℕ := 8*1024*1024
def maxGraphChanges : ℕ := 16384

@[ext] structure NonzeroId where
  get : U128
  nonzero : get ≠ 0
  deriving Repr

instance NonzeroId.decidableEq : DecidableEq NonzeroId := fun _ _ =>
  decidable_of_iff _ NonzeroId.ext_iff.symm

theorem one_nonzero : (1 : U128) ≠ 0 := by decide
theorem two_nonzero : (2 : U128) ≠ 0 := by decide
theorem seven_nonzero : (7 : U128) ≠ 0 := by decide

def NonzeroId.new (value : U128) : Except WalError NonzeroId :=
  if h : value = 0 then .error .malformed else .ok ⟨value,h⟩

abbrev BatchId := NonzeroId
abbrev StoreInstanceId := NonzeroId
abbrev ArtifactId := NonzeroId

structure ArtifactDescriptor where
  store : StoreInstanceId
  artifact : ArtifactId
  generation : GraphGeneration
  serial : U64
  bytes : U32
  family : U16
  version : U16
  checksum : U64
  deriving DecidableEq

inductive BlockKind where
  | treePage | nodeRecord | relRecord | canonicalImage | storedText | storedVector | overflowKey
  | extentList | checkpointPayload | commitParticipant | payloadChunk | operationProvenance
  | adjacencyBase | adjacencyDelta | retrievalRows | retrievalLexical | retrievalLiveRows
  | retrievalVectorIndex
  deriving DecidableEq

def BlockKind.id : BlockKind → U16
  | .treePage => 1 | .nodeRecord => 2 | .relRecord => 3 | .canonicalImage => 4 | .storedText => 5
  | .storedVector => 6 | .overflowKey => 7 | .extentList => 8 | .checkpointPayload => 9
  | .commitParticipant => 10 | .payloadChunk => 11 | .operationProvenance => 12
  | .adjacencyBase => 13 | .adjacencyDelta => 14 | .retrievalRows => 15 | .retrievalLexical => 16
  | .retrievalLiveRows => 17 | .retrievalVectorIndex => 18

def blockKind (value : U16) : Except WalError BlockKind :=
  if value = 1 then .ok .treePage
  else if value = 2 then .ok .nodeRecord
  else if value = 3 then .ok .relRecord
  else if value = 4 then .ok .canonicalImage
  else if value = 5 then .ok .storedText
  else if value = 6 then .ok .storedVector
  else if value = 7 then .ok .overflowKey
  else if value = 8 then .ok .extentList
  else if value = 9 then .ok .checkpointPayload
  else if value = 10 then .ok .commitParticipant
  else if value = 13 then .ok .adjacencyBase
  else if value = 14 then .ok .adjacencyDelta
  else .error .unsupported

structure PhysicalRef where
  artifact : ArtifactId
  offset : U64
  length : U32
  kind : BlockKind
  version : U16
  deriving DecidableEq

structure RequiredRef where
  object : ArtifactDescriptor
  block : PhysicalRef
  deriving DecidableEq

def take (n : ℕ) (bytes : Bytes) : Except WalError (Bytes × Bytes) :=
  if n ≤ bytes.length then .ok (bytes.take n,bytes.drop n) else .error .malformed

def word (w n : ℕ) (bytes : Bytes) : Except WalError (BitVec w × Bytes) := do
  let (field,rest) ← take n bytes
  return (ofLe w field,rest)

def u8 (bytes : Bytes) : Except WalError (U8 × Bytes) := word 8 1 bytes
def u16 (bytes : Bytes) : Except WalError (U16 × Bytes) := word 16 2 bytes
def u32 (bytes : Bytes) : Except WalError (U32 × Bytes) := word 32 4 bytes
def u64 (bytes : Bytes) : Except WalError (U64 × Bytes) := word 64 8 bytes
def u128 (bytes : Bytes) : Except WalError (U128 × Bytes) := word 128 16 bytes

def zeros (n : ℕ) : Bytes := List.replicate n 0

def zero (n : ℕ) (bytes : Bytes) : Except WalError Bytes := do
  let (field,rest) ← take n bytes
  if field.any (· ≠ 0) then .error .malformed else .ok rest

def finish : Bytes → Except WalError Unit
  | [] => .ok ()
  | _::_ => .error .malformed

def readMany {α : Type} (read : Bytes → Except WalError (α × Bytes)) :
    ℕ → Bytes → Except WalError (List α × Bytes)
  | 0,bytes => .ok ([],bytes)
  | n+1,bytes => do
    let (x,rest) ← read bytes
    let (xs,rest) ← readMany read n rest
    return (x::xs,rest)

def readRows {α : Type} (width : ℕ) (read : Bytes → Except WalError (α × Bytes)) (n : ℕ)
    (bytes : Bytes) : Except WalError (List α × Bytes) := do
  let (rows,rest) ← take (n*width) bytes
  let (xs,_) ← readMany read n rows
  return (xs,rest)

def putMany {α : Type} (put : α → Except WalError Bytes) : List α → Except WalError Bytes
  | [] => .ok []
  | x::xs => do
    let bytes ← put x
    let rest ← putMany put xs
    return bytes++rest

def descriptor (v : ArtifactDescriptor) : Except WalError Unit :=
  if v.family ≠ 17 ∨ v.version ≠ 1 then .error .unsupported
  else if v.bytes.toNat < 104 ∨ maxArtifactBytes < v.bytes.toNat ∨ v.serial = 0 then
    .error .malformed
  else .ok ()

def putDescriptor (v : ArtifactDescriptor) : Except WalError Bytes := do
  descriptor v
  return toLe 16 v.store.get++(toLe 16 v.artifact.get++(toLe 8 v.generation++
    (toLe 8 v.serial++(toLe 4 v.bytes++(toLe 2 v.family++(toLe 2 v.version++
      toLe 8 v.checksum))))))

def getDescriptor (bytes : Bytes) : Except WalError (ArtifactDescriptor × Bytes) := do
  let (store,rest) ← u128 bytes
  let store ← NonzeroId.new store
  let (artifact,rest) ← u128 rest
  let artifact ← NonzeroId.new artifact
  let (generation,rest) ← u64 rest
  let (serial,rest) ← u64 rest
  let (length,rest) ← u32 rest
  let (family,rest) ← u16 rest
  let (version,rest) ← u16 rest
  let (checksum,rest) ← u64 rest
  descriptor ⟨store,artifact,generation,serial,length,family,version,checksum⟩
  return (⟨store,artifact,generation,serial,length,family,version,checksum⟩,rest)

def reference (v : RequiredRef) : Except WalError Unit :=
  if v.object.artifact ≠ v.block.artifact ∨ v.block.offset.toNat < 96 ∨ v.block.length.toNat < 24 ∨
      v.block.version ≠ 1 ∨ 2^64 ≤ v.block.offset.toNat+v.block.length.toNat ∨
      v.object.bytes.toNat < v.block.offset.toNat+v.block.length.toNat then .error .malformed
  else .ok ()

def putRef (v : RequiredRef) : Except WalError Bytes := do
  reference v
  let object ← putDescriptor v.object
  return object++(toLe 16 v.block.artifact.get++(toLe 8 v.block.offset++
    (toLe 4 v.block.length++(toLe 2 v.block.kind.id++toLe 2 v.block.version))))

def getRef (bytes : Bytes) : Except WalError (RequiredRef × Bytes) := do
  let (object,rest) ← getDescriptor bytes
  let (artifact,rest) ← u128 rest
  let artifact ← NonzeroId.new artifact
  let (offset,rest) ← u64 rest
  let (length,rest) ← u32 rest
  let (kind,rest) ← u16 rest
  let kind ← blockKind kind
  let (version,rest) ← u16 rest
  reference ⟨object,⟨artifact,offset,length,kind,version⟩⟩
  return (⟨object,⟨artifact,offset,length,kind,version⟩⟩,rest)

def putOptional : Option RequiredRef → Except WalError Bytes
  | none => .ok (toLe 1 (0 : U8)++zeros 7)
  | some v => do
    let bytes ← putRef v
    return toLe 1 (1 : U8)++(zeros 7++bytes)

def getOptional (bytes : Bytes) : Except WalError (Option RequiredRef × Bytes) := do
  let (tag,rest) ← u8 bytes
  let rest ← zero 7 rest
  if tag = 0 then return (none,rest)
  else if tag = 1 then
    let (v,rest) ← getRef rest
    return (some v,rest)
  else .error .malformed

theorem take_append (xs ys : Bytes) (n : ℕ) (h : xs.length = n) :
    take n (xs++ys) = .ok (xs,ys) := by
  subst h
  rw [take,if_pos (by simp),take_left,drop_left]

theorem word_append {w : ℕ} (n : ℕ) (hw : w = 8*n) (v : BitVec w) (ys : Bytes) :
    word w n (toLe n v++ys) = .ok (v,ys) := by
  rw [word,take_append _ _ n (toLe_length n v)]
  simp only [ok_bind,ofLe_toLe n hw]
  rfl

@[simp] theorem u8_append (v : U8) (ys : Bytes) : u8 (toLe 1 v++ys) = .ok (v,ys) :=
  word_append 1 rfl v ys

@[simp] theorem u16_append (v : U16) (ys : Bytes) : u16 (toLe 2 v++ys) = .ok (v,ys) :=
  word_append 2 rfl v ys

@[simp] theorem u32_append (v : U32) (ys : Bytes) : u32 (toLe 4 v++ys) = .ok (v,ys) :=
  word_append 4 rfl v ys

@[simp] theorem u64_append (v : U64) (ys : Bytes) : u64 (toLe 8 v++ys) = .ok (v,ys) :=
  word_append 8 rfl v ys

@[simp] theorem u128_append (v : U128) (ys : Bytes) : u128 (toLe 16 v++ys) = .ok (v,ys) :=
  word_append 16 rfl v ys

@[simp] theorem zeros_length (n : ℕ) : (zeros n).length = n := length_replicate

@[simp] theorem zero_append (n : ℕ) (ys : Bytes) : zero n (zeros n++ys) = .ok ys := by
  rw [zero,take_append _ _ n (zeros_length n),ok_bind]
  simp [zeros]

@[simp] theorem finish_nil : finish [] = .ok () := rfl

@[simp] theorem NonzeroId.new_get (v : NonzeroId) : NonzeroId.new v.get = .ok v := by
  rw [NonzeroId.new,dif_neg v.nonzero]

def RoundTrip {α : Type} (put : α → Except WalError Bytes)
    (read : Bytes → Except WalError (α × Bytes)) (v : α) : Prop :=
  ∀ bytes,put v = .ok bytes → ∀ rest,read (bytes++rest) = .ok (v,rest)

variable {α : Type} {width : ℕ}

variable {put : α → Except WalError Bytes} {read : Bytes → Except WalError (α × Bytes)}
  {xs : List α}

theorem readMany_putMany
    (h : ∀ x ∈ xs,RoundTrip put read x) : RoundTrip (putMany put) (readMany read xs.length) xs := by
  induction xs with
  | nil =>
    rintro bytes hbytes rest
    obtain rfl := Except.ok.inj hbytes
    rfl
  | cons x xs ih =>
    intro bytes hbytes rest
    obtain ⟨first,hfirst,hbytes⟩ := bind_eq_ok hbytes
    obtain ⟨others,hothers,rfl⟩ := bind_pure_eq_ok hbytes
    rw [length_cons,readMany,append_assoc,
      h x mem_cons_self first hfirst,ok_bind]
    simp only
    rw [ih (fun x hx => h x (mem_cons_of_mem _ hx)) others hothers rest,ok_bind]
    rfl

theorem putMany_length (h : ∀ x bytes,put x = .ok bytes → bytes.length = width) {bytes : Bytes}
    (hbytes : putMany put xs = .ok bytes) : bytes.length = xs.length*width := by
  induction xs generalizing bytes with
  | nil =>
    obtain rfl := Except.ok.inj hbytes
    simp
  | cons x xs ih =>
    obtain ⟨first,hfirst,hbytes⟩ := bind_eq_ok hbytes
    obtain ⟨others,hothers,rfl⟩ := bind_pure_eq_ok hbytes
    rw [length_append,h x first hfirst,ih hothers,length_cons]
    ring

theorem readRows_putMany (hwidth : ∀ x bytes,put x = .ok bytes → bytes.length = width)
    (h : ∀ x ∈ xs,RoundTrip put read x) :
    RoundTrip (putMany put) (readRows width read xs.length) xs := by
  intro bytes hbytes rest
  have hmany:=readMany_putMany h bytes hbytes []
  rw [append_nil] at hmany
  rw [readRows,take_append _ _ _ (putMany_length hwidth hbytes),ok_bind]
  simp only
  rw [hmany,ok_bind]
  rfl

theorem getDescriptor_put (v : ArtifactDescriptor) : RoundTrip putDescriptor getDescriptor v := by
  intro bytes h rest
  obtain ⟨⟨⟩,hvalid,rfl⟩ := bind_pure_eq_ok h
  simp only [getDescriptor,append_assoc,u128_append,u64_append,u32_append,u16_append,
    ok_bind,NonzeroId.new_get,hvalid]
  rfl

theorem putDescriptor_length (v : ArtifactDescriptor) (bytes : Bytes)
    (h : putDescriptor v = .ok bytes) : bytes.length = 64 := by
  obtain ⟨⟨⟩,hvalid,rfl⟩ := bind_pure_eq_ok h
  simp

theorem putRef_length (v : RequiredRef) (bytes : Bytes) (h : putRef v = .ok bytes) :
    bytes.length = 96 := by
  obtain ⟨⟨⟩,-,h⟩ := bind_eq_ok h
  obtain ⟨object,hobject,rfl⟩ := bind_pure_eq_ok h
  simp [putDescriptor_length _ _ hobject]

theorem getRef_put {v : RequiredRef} (hkind : blockKind v.block.kind.id = .ok v.block.kind) :
    RoundTrip putRef getRef v := by
  intro bytes h rest
  obtain ⟨⟨⟩,hvalid,h⟩ := bind_eq_ok h
  obtain ⟨object,hobject,rfl⟩ := bind_pure_eq_ok h
  simp only [getRef,append_assoc,getDescriptor_put v.object object hobject,u128_append,
    u64_append,u32_append,u16_append,ok_bind,NonzeroId.new_get,hkind,hvalid]
  rfl

theorem getOptional_put {v : Option RequiredRef}
    (hkind : ∀ r ∈ v,blockKind r.block.kind.id = .ok r.block.kind) :
    RoundTrip putOptional getOptional v := by
  intro bytes h rest
  cases v with
  | none =>
    obtain rfl := Except.ok.inj h
    simp only [getOptional,append_assoc,u8_append,zero_append,ok_bind]
    rfl
  | some r =>
    obtain ⟨inner,hinner,rfl⟩ := bind_pure_eq_ok h
    simp only [getOptional,append_assoc,u8_append,zero_append,ok_bind]
    rw [if_neg (by decide),if_pos trivial,getRef_put (hkind r rfl) inner hinner,ok_bind]
    rfl

end Zeppelin.GraphWal
