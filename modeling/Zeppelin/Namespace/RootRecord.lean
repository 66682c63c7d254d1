import Zeppelin.Collections.SortedMap
import Zeppelin.Ingest.PayloadCodec
import Mathlib.Data.String.Basic

/-! lifecycle/namespace_batch.rs, namespace_batch/portable.rs -/

namespace Zeppelin.Namespace
open Ingest

/-- An `InvalidData` error: the file it is about and its text. -/
inductive NamespaceError where
  | invalid (path message : String)
  deriving DecidableEq

def ensure (p : Prop) [Decidable p] (path message : String) : Except NamespaceError Unit :=
  if p then .ok () else .error (.invalid path message)

def record : String := ".ze-namespaces"
def reference : String := ".ze-namespace-root"

def magic : Bytes := utf8Bytes "ZENS0001"
def stagedMagic : Bytes := utf8Bytes "ZENS0002"
def logicalStagedMagic : Bytes := utf8Bytes "ZENS0003"
def rootMagic : Bytes := utf8Bytes "ZENS0003"
def participantMagic : Bytes := utf8Bytes "ZENSPID1"

def maxRecord : ℕ := 1024*1024

abbrev Routes := SortedMap String String

structure StagedSelection where
  logicalDelete : Bool
  manifest : String
  binding : TransactionBinding
  deriving DecidableEq

structure StagedDescriptor where
  selections : SortedMap String StagedSelection
  routes : Routes
  deriving DecidableEq

inductive RootDescriptor where
  | legacy (routes : Routes)
  | staged (descriptor : StagedDescriptor)
  deriving DecidableEq

structure NamespaceRootId where
  value : U128
  nonzero : value ≠ 0
  deriving DecidableEq

def NamespaceRootId.new (path : String) (value : U128) : Except NamespaceError NamespaceRootId :=
  if h : value = 0 then .error (.invalid path "zero namespace root identity") else .ok ⟨value,h⟩

def startsWith (text start : String) : Bool := start.toList.isPrefixOf text.toList

def containsDots : List Char → Bool
  | c::d::cs => (c = '.' && d = '.') || containsDots (d::cs)
  | _ => false

def nameValid (name : String) : Bool :=
  name.toList.head?.any Char.isAlphanum && name.utf8ByteSize ≤ 255 &&
    name.toList.all fun c => c.isAlphanum || c = '.' || c = '_' || c = '-'

def transactionValid (transaction : String) : Bool :=
  startsWith transaction ".ze-batch-" &&
    (transaction.toList.all fun c => c.isAlphanum || c = '-' || c = '.') &&
    !containsDots transaction.toList

def splitText (sep : Char) (text : String) : Option (String × String) :=
  (splitOnce sep text.toList).map fun p => (String.ofList p.1,String.ofList p.2)

def lines (text : String) : List String :=
  (splitTerminator '\n' text.toList).map String.ofList

section Checksum
variable (xxh3 : Bytes → U64)

/-- Everything before the checksum, once size, magic and checksum are right. -/
def checkedFront (path short bad : String) (magics : List Bytes) (bytes : Bytes) :
    Except NamespaceError Bytes :=
  if bytes.length < 8 then .error (.invalid path short)
  else
    let front:=bytes.take (bytes.length-8)
    if bytes.length > maxRecord ∨ ¬ magics.any (fun m => m.isPrefixOf front) ∨
        bytes.drop (bytes.length-8) ≠ toLe 8 (xxh3 front) then .error (.invalid path bad)
    else .ok front

def withChecksum (front : Bytes) : Bytes := front++toLe 8 (xxh3 front)

def envelope (body : Bytes) : Bytes := withChecksum xxh3 (magic++body)

def body (path : String) (bytes : Bytes) : Except NamespaceError Bytes := do
  let front ← checkedFront xxh3 path "short namespace record" "namespace record checksum/version" [magic]
    bytes
  return front.drop magic.length

/-- `take`, with the message of the file kind it reads. -/
def takeBytes (path truncated : String) (n : ℕ) (bytes : Bytes) :
    Except NamespaceError (Bytes × Bytes) :=
  if n ≤ bytes.length then .ok (bytes.take n,bytes.drop n) else .error (.invalid path truncated)

def routesText (entries : List (String × String)) : String :=
  String.ofList (entries.flatMap fun e => e.1.toList ++ '\t' :: e.2.toList++['\n'])

def encode (routes : Routes) : Bytes := envelope xxh3 (utf8Bytes (routesText routes.entries))

def decodeRoute (path : String) (routes : Routes) (line : String) : Except NamespaceError Routes :=
  match splitText '\t' line with
  | none => .error (.invalid path "namespace route")
  | some (name,destination) =>
    match splitText '/' destination with
    | none => .error (.invalid path "namespace destination")
    | some (transaction,child) =>
      if ¬ nameValid name ∨ child ≠ name ∨ ¬ transactionValid transaction ∨
          (routes.insert name destination).1.isSome then
        .error (.invalid path "invalid or duplicate namespace route")
      else .ok (routes.insert name destination).2

def decodeRoutes (path : String) (bytes : Bytes) : Except NamespaceError Routes := do
  let raw ← body xxh3 path bytes
  match fromUtf8 raw with
  | none => .error (.invalid path "namespace record UTF-8")
  | some text => do
    let result ← (lines text).foldlM (decodeRoute path) .empty
    if encode xxh3 result ≠ bytes then .error (.invalid path "noncanonical namespace record")
    else return result

def encodeText (text : String) : Except NamespaceError Bytes :=
  if text.utf8ByteSize < 2^16 then
    .ok (toLe 2 (BitVec.ofNat 16 text.utf8ByteSize)++utf8Bytes text)
  else .error (.invalid record "selection length")

def encodeBinding (binding : TransactionBinding) : Except NamespaceError Bytes :=
  match binding.encode with
  | .ok bytes => .ok bytes
  | .error _ => .error (.invalid record "transaction binding")

/-- The participants from here on: `transaction` and `identities` are those of
the participants before. -/
def encodeSelections (logicalDelete : Bool) : Option U128 → List U128 →
    List (String × StagedSelection) → Except NamespaceError Bytes
  | _,_,[] => .ok []
  | transaction,identities,(name,selection)::rest =>
    if selection.logicalDelete ≠ logicalDelete ∨ ¬ nameValid name ∨
        ¬ startsWith selection.manifest ".ze-manifest-" ∨
        ¬ nameValid (String.ofList (selection.manifest.toList.dropWhile (· = '.'))) ∨
        containsDots selection.manifest.toList ∨
        transaction.any (· ≠ selection.binding.transaction) ∨
        selection.binding.participant ∈ identities then
      .error (.invalid record "staged participant identity or manifest")
    else do
      let nameBytes ← encodeText name
      let manifestBytes ← encodeText selection.manifest
      let binding ← encodeBinding selection.binding
      let rest ← encodeSelections logicalDelete (some selection.binding.transaction)
        (selection.binding.participant::identities) rest
      return nameBytes++manifestBytes++binding++rest

def StagedDescriptor.logicalDelete (d : StagedDescriptor) : Bool :=
  d.selections.entries.head?.any fun e => e.2.logicalDelete

def magicOf (logicalDelete : Bool) : Bytes :=
  if logicalDelete then logicalStagedMagic else stagedMagic

def encodeStaged (d : StagedDescriptor) : Except NamespaceError Bytes :=
  if ¬ d.selections.entries.length < 2^32 then .error (.invalid record "participant count")
  else if d.selections.entries.length = 0 then .error (.invalid record "empty staged decision")
  else do
    let participants ← encodeSelections d.logicalDelete none [] d.selections.entries
    let routes:=encode xxh3 d.routes
    ensure (routes.length < 2^32) record "route table length"
    let bytes:=withChecksum xxh3 (magicOf d.logicalDelete++
      toLe 4 (BitVec.ofNat 32 d.selections.entries.length)++participants++
      toLe 4 (BitVec.ofNat 32 routes.length)++routes)
    ensure (bytes.length ≤ maxRecord) record "staged decision too large"
    return bytes

def truncatedStaged : String := "truncated staged decision"

def decodeText (path : String) (bytes : Bytes) : Except NamespaceError (String × Bytes) := do
  let (length,bytes) ← takeBytes path truncatedStaged 2 bytes
  let (text,bytes) ← takeBytes path truncatedStaged (ofLe 16 length).toNat bytes
  match fromUtf8 text with
  | none => .error (.invalid path "selection UTF-8")
  | some text => .ok (text,bytes)

def decodeSelections (path : String) (logicalDelete : Bool) : ℕ →
    SortedMap String StagedSelection → Bytes →
    Except NamespaceError (SortedMap String StagedSelection × Bytes)
  | 0,result,bytes => .ok (result,bytes)
  | count+1,result,bytes => do
    let (name,bytes) ← decodeText path bytes
    let (manifest,bytes) ← decodeText path bytes
    let (evidence,bytes) ← takeBytes path truncatedStaged 64 bytes
    match TransactionBinding.decode evidence with
    | .error _ => .error (.invalid path "transaction binding")
    | .ok binding =>
      let inserted:=result.insert name ⟨logicalDelete,manifest,binding⟩
      if inserted.1.isSome then .error (.invalid path "duplicate participant")
      else decodeSelections path logicalDelete count inserted.2 bytes

def decodeStaged (path : String) (bytes : Bytes) : Except NamespaceError StagedDescriptor := do
  let front ← checkedFront xxh3 path "short staged decision" "staged checksum/version"
    [stagedMagic,logicalStagedMagic] bytes
  let (count,remaining) ← takeBytes path truncatedStaged 4 (front.drop 8)
  let (selections,remaining) ← decodeSelections path (logicalStagedMagic.isPrefixOf front)
    (ofLe 32 count).toNat .empty remaining
  let (length,remaining) ← takeBytes path truncatedStaged 4 remaining
  let (table,remaining) ← takeBytes path truncatedStaged (ofLe 32 length).toNat remaining
  let routes ← decodeRoutes xxh3 path table
  let descriptor:=StagedDescriptor.mk selections routes
  ensure (remaining = []) path "noncanonical staged decision"
  let again ← encodeStaged xxh3 descriptor
  ensure (again = bytes) path "noncanonical staged decision"
  return descriptor

def decodeDescriptor (path : String) (bytes : Bytes) : Except NamespaceError RootDescriptor :=
  if stagedMagic.isPrefixOf bytes ∨ logicalStagedMagic.isPrefixOf bytes then
    .staged <$> decodeStaged xxh3 path bytes
  else .legacy <$> decodeRoutes xxh3 path bytes

section Identity
variable (xxh3Wide : Bytes → U128)

def participantId (id : NamespaceRootId) (name : String) : Except NamespaceError U128 :=
  if ¬ nameValid name then .error (.invalid reference "portable namespace name")
  else if ¬ name.utf8ByteSize < 2^16 then .error (.invalid reference "portable name length")
  else
    let identity:=xxh3Wide (participantMagic++toLe 16 id.value++
      toLe 2 (BitVec.ofNat 16 name.utf8ByteSize)++utf8Bytes name)
    if identity = 0 then .error (.invalid reference "zero portable participant identity")
    else .ok identity

def checkParticipants (id : NamespaceRootId) :
    List (String × StagedSelection) → Except NamespaceError Unit
  | [] => .ok ()
  | (name,selection)::rest => do
    let identity ← participantId xxh3Wide id name
    ensure (selection.binding.participant = identity) record "portable staged participant identity"
    checkParticipants id rest

def encodeNested (id : NamespaceRootId) : RootDescriptor → Except NamespaceError Bytes
  | .legacy routes => do
    let _ ← decodeRoutes xxh3 record (encode xxh3 routes)
    return encode xxh3 routes
  | .staged staged => do
    checkParticipants xxh3Wide id staged.selections.entries
    encodeStaged xxh3 staged

def encodeRoot (id : NamespaceRootId) (descriptor : RootDescriptor) :
    Except NamespaceError Bytes := do
  let nested ← encodeNested xxh3 xxh3Wide id descriptor
  ensure (nested.length < 2^32) record "portable descriptor length"
  let bytes:=withChecksum xxh3 (rootMagic++toLe 16 id.value++
    toLe 4 (BitVec.ofNat 32 nested.length)++nested)
  ensure (bytes.length ≤ maxRecord) record "portable root too large"
  return bytes

def truncatedPortable : String := "truncated portable record"

def decodeRoot (path : String) (bytes : Bytes) :
    Except NamespaceError (NamespaceRootId × RootDescriptor) := do
  let front ← checkedFront xxh3 path "short portable record" "portable record checksum/version"
    [rootMagic] bytes
  let (idBytes,remaining) ← takeBytes path truncatedPortable 16 (front.drop rootMagic.length)
  let id ← NamespaceRootId.new path (ofLe 128 idBytes)
  let (length,remaining) ← takeBytes path truncatedPortable 4 remaining
  let (nested,remaining) ← takeBytes path truncatedPortable (ofLe 32 length).toNat remaining
  let descriptor ← decodeDescriptor xxh3 path nested
  ensure (remaining = []) path "noncanonical portable root"
  let again ← encodeRoot xxh3 xxh3Wide id descriptor
  ensure (again = bytes) path "noncanonical portable root"
  return (id,descriptor)

def encodeRootRecord (id : Option NamespaceRootId) (descriptor : RootDescriptor) :
    Except NamespaceError Bytes :=
  match id with
  | some id => encodeRoot xxh3 xxh3Wide id descriptor
  | none =>
    match descriptor with
    | .legacy routes => .ok (encode xxh3 routes)
    | .staged staged => encodeStaged xxh3 staged

def rootRecord (path : String) (file : Option Bytes) :
    Except NamespaceError (Option NamespaceRootId × RootDescriptor) :=
  match file with
  | none => .ok (none,.legacy .empty)
  | some bytes =>
    if bytes.length > maxRecord then .error (.invalid path "namespace record too large")
    else if rootMagic.isPrefixOf bytes then
      (fun p => (some p.1,p.2)) <$> decodeRoot xxh3 xxh3Wide path bytes
    else (fun d => (none,d)) <$> decodeDescriptor xxh3 path bytes

end Identity

end Checksum

end Zeppelin.Namespace
