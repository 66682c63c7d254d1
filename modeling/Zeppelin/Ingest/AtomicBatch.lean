import Zeppelin.Ingest.PayloadCodec
import Zeppelin.Wal.Writer

/-! ingest/atomic_batch.rs -/

namespace Zeppelin.Wal

inductive VisibleRecordError where
  | invalidEncodedRange (start stop available : ℕ)
  | record (error : RecordError)
  deriving DecidableEq

/-- `VisibleRecord::payload`: the frame is decoded and checked again. -/
def VisibleRecord.payload (xxh3 : Bytes → U64) (r : VisibleRecord) :
    Except VisibleRecordError Bytes :=
  match slice? r.encoded r.start r.stop with
  | none => .error (.invalidEncodedRange r.start r.stop r.encoded.length)
  | some encoded =>
    match decodeRecord xxh3 encoded with
    | .error e => .error (.record e)
    | .ok decoded => .ok decoded.record.payload

end Zeppelin.Wal

namespace Zeppelin.Ingest
open Wal

/-- The `StoreError` variants of ingest and WAL recovery. -/
inductive StoreError where
  | walRecord (seq : LogSeq) (source : VisibleRecordError)
  | walMutation (seq : LogSeq) (op : U16) (source : PayloadError)
  | unsupportedWalMutation (seq : LogSeq) (op : U16)
  | walRevisionOrder (seq : LogSeq) (docId : DocId) (current attempted : Revision)
  | manifestDecode (message : String)
  | generationOverflow
  | activeRowOverflow
  | dimensionMismatch (expected actual : ℕ)
  | synchronization (component : String)
  | walVector (seq : LogSeq) (source : QuantError)
  | walWrite (error : WalWriteError)
  deriving DecidableEq

def frameMembers (count : U32) : U32 → List (ℕ × U16 × Bytes) →
    Except PayloadError (List (ℕ × U16 × Bytes))
  | _,[] => .ok []
  | index,(row,op,payload)::rest =>
    if op ≠ upsertV2 then .error (.unknownOperation op)
    else do
      let member ← encodeUpsertV2BatchMember index count payload
      let members ← frameMembers count (index+1) rest
      return (row,upsertV2BatchMember,member)::members

def frameBatch (records : List (ℕ × U16 × Bytes)) : Except PayloadError (List (ℕ × U16 × Bytes)) :=
  if records.length < 2 then .ok records
  else do
    let count ← lengthField records.length
    frameMembers count 0 records

structure CommittedBatch where
  lastSeq : LogSeq
  members : List (LogSeq × U16 × MutationPayload)
  deriving DecidableEq

structure Recovery where
  preparedRun : List (LogSeq × PreparedMutation)
  committed : List CommittedBatch
  run : List (LogSeq × U16 × MutationPayload)
  runCount : U32
  runOp : U16
  deriving DecidableEq

def Recovery.start : Recovery := ⟨[],[],[],0,0⟩

section Decision
variable (xxh3 : Bytes → U64) (validateEnvelope : Bytes → Except GraphWalError Unit)
  (decision : TransactionBinding → Option TransactionBinding)

def decisionOf (binding : TransactionBinding) : TransactionDecision :=
  transactionDecision binding (decision binding)

def preparedCommitted (preparedRun : List (LogSeq × PreparedMutation)) : Bool :=
  preparedRun.head?.any fun m => decisionOf decision m.2.binding == .committed

def recoverPrepared (s : Recovery) (seq : LogSeq) (op : U16) (payload : Bytes) :
    Except StoreError Recovery :=
  match decodePrepared validateEnvelope payload with
  | .error source => .error (.walMutation seq op source)
  | .ok member =>
    let mismatch : Except StoreError Recovery := .error (.walMutation seq op .transactionBinding)
    if checkedAdd member.binding.firstSeq (member.index.setWidth 64) ≠ some seq then mismatch
    else if member.index = 0 ∧ preparedCommitted decision s.preparedRun then mismatch
    else
      let preparedRun:=if member.index = 0 then [] else s.preparedRun
      if member.index.toNat ≠ preparedRun.length ∨
          preparedRun.head?.any (fun m => m.2.binding ≠ member.binding) then mismatch
      else
        let status:=decisionOf decision member.binding
        if status = .mismatch then mismatch
        else
          let preparedRun:=preparedRun++[(seq,member)]
          if checkedAdd member.index 1 = some member.count then
            .ok { s with
              run := []
              preparedRun := []
              committed := if status = .committed then s.committed++
                [⟨seq,preparedRun.map fun m => (m.1,m.2.op,m.2.mutation)⟩] else s.committed }
          else .ok { s with run := [],preparedRun := preparedRun }

/-- A member of a local run, of either kind (`atomic_batch.rs:281-303`). -/
def recoverMember (s : Recovery) (seq : LogSeq) (recordOp : U16) (index count : U32) (op : U16)
    (mutation : MutationPayload) : Except StoreError Recovery :=
  let opened:=if index = 0 then { s with run := [],runCount := count,runOp := recordOp } else s
  if index ≠ 0 ∧ (recordOp ≠ s.runOp ∨ count ≠ s.runCount ∨ index.toNat ≠ s.run.length) then
    .error (.walMutation seq recordOp (.orphanBatchMember index count))
  else
    let run:=opened.run++[(seq,op,mutation)]
    if checkedAdd index 1 = some count then
      .ok { opened with run := [],committed := s.committed++[⟨seq,run⟩] }
    else .ok { opened with run := run }

/-- Any other record (`atomic_batch.rs:244-304`). -/
def recoverLocal (s : Recovery) (seq : LogSeq) (op : U16) (payload : Bytes) :
    Except StoreError Recovery :=
  if preparedCommitted decision s.preparedRun then .error (.walMutation seq op .transactionBinding)
  else
    let s:={ s with preparedRun := [] }
    match decodeMutation validateEnvelope op payload with
    | .error source => .error (.walMutation seq op source)
    | .ok (.batchMember index count document) =>
      recoverMember s seq op index count op (.upsert document)
    | .ok (.mixedBatchMember index count innerOp mutation) =>
      recoverMember s seq op index count innerOp mutation
    | .ok mutation =>
      .ok { s with run := [],committed := s.committed++[⟨seq,[(seq,op,mutation)]⟩] }

def recoverRecord (absorbedThrough : U64) (s : Recovery) (r : VisibleRecord) :
    Except StoreError Recovery :=
  if r.seq ≤ absorbedThrough then .ok s
  else match r.payload xxh3 with
    | .error source => .error (.walRecord r.seq source)
    | .ok payload =>
      if r.op = preparedMutationV1 then
        recoverPrepared validateEnvelope decision s r.seq r.op payload
      else recoverLocal validateEnvelope decision s r.seq r.op payload

def finishRecovery (s : Recovery) : Except StoreError (List CommittedBatch) :=
  match s.preparedRun.head? with
  | some (seq,member) =>
    if decisionOf decision member.binding = .committed then
      .error (.walMutation seq preparedMutationV1 .transactionBinding)
    else .ok s.committed
  | none => .ok s.committed

def committedBatches (records : List VisibleRecord) (absorbedThrough : U64) :
    Except StoreError (List CommittedBatch) := do
  let s ← records.foldlM (recoverRecord xxh3 validateEnvelope decision absorbedThrough) .start
  finishRecovery decision s

end Decision

end Zeppelin.Ingest
