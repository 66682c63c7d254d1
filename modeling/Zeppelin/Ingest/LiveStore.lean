import Zeppelin.Ingest.ActiveSegment
import Zeppelin.Ingest.ReplayTail

/-! ingest/mod.rs, ingest/revise.rs -/

namespace Zeppelin.Ingest
open Wal Fts

structure SealedView where
  versions : List DocumentVersion
  liveRevision : DocId → Option Revision
  absorbedThrough : U64

structure ResolvedRevision where
  version : DocumentVersion
  seq : LogSeq
  activeRow : Option ℕ
  deriving DecidableEq

def resolveRevision (active : ActiveSegment) (sealedView : SealedView) (docId : DocId) :
    Option ResolvedRevision :=
  let existing:=active.existing docId
  let activeRow:=existing.map fun found => found.1
  (sealedView.versions.filter fun version => version.docId = docId).foldl
    (fun resolved version =>
      if resolved.all fun current => version.revision > current.version.revision then
        some ⟨version,sealedView.absorbedThrough,activeRow⟩
      else resolved)
    (existing.map fun found => ⟨found.2.1,found.2.2,activeRow⟩)

inductive RevisionDecision where
  | insert
  | replay (seq : LogSeq)
  | replace
  | reject (current : Revision)
  deriving DecidableEq

def classifyRevision (existing : Option (DocumentVersion × LogSeq)) (attempted : DocumentVersion) :
    RevisionDecision :=
  match existing with
  | none => .insert
  | some (current,seq) =>
    if attempted.revision < current.revision then .reject current.revision
    else if attempted.revision = current.revision then .replay seq
    else .replace

def liveRevision (active : ActiveSegment) (sealedView : SealedView) (docId : DocId) :
    Option Revision :=
  match active.existing docId with
  | some (row,version,_) =>
    if active.isTombstoned row then sealedView.liveRevision docId else some version.revision
  | none => sealedView.liveRevision docId

def conditionHolds (current : Option Revision) : ExpectedRevision → Bool
  | .exactly revision => current = some revision
  | .absent => current.isNone

def checkRevisionConditions (active : ActiveSegment) (sealedView : SealedView) :
    List (ℕ × DocId × Option ExpectedRevision) → Except IngestError Unit
  | [] => .ok ()
  | (_,_,none)::rest => checkRevisionConditions active sealedView rest
  | (index,docId,some expected)::rest =>
    let current:=liveRevision active sealedView docId
    if conditionHolds current expected then checkRevisionConditions active sealedView rest
    else .error (.revisionConflict index docId expected current)

/-- `commit_many` of a healthy writer: the sequence after the last record. -/
def commitMany (nextSeq : LogSeq) (records : List (U16 × Bytes)) : Except StoreError LogSeq :=
  match encodedLengths records with
  | .error error => .error (.walWrite (.record error))
  | .ok _ =>
    if 2^64 ≤ records.length then .error (.walWrite .sequenceExhausted)
    else match checkedAdd nextSeq (BitVec.ofNat 64 records.length) with
      | none => .error (.walWrite .sequenceExhausted)
      | some stop => .ok stop

structure ActiveState where
  generation : U64
  segment : ActiveSegment
  deriving DecidableEq

structure LiveStore where
  active : ActiveState
  first : LogSeq
  log : List (U16 × Bytes)
  deriving DecidableEq

def LiveStore.nextSeq (s : LiveStore) : LogSeq := s.first+BitVec.ofNat 64 s.log.length

/-- A store whose rows are all sealed: its log continues at `first`. -/
def LiveStore.start (generation : U64) (first : LogSeq) : LiveStore :=
  ⟨⟨generation,.empty⟩,first,[]⟩

structure IngestAck where
  seq : LogSeq
  generation : U64
  deriving DecidableEq

def setSequences : LogSeq → List ℕ → ActiveSegment → Except StoreError ActiveSegment
  | _,[],segment => .ok segment
  | seq,row::rows,segment => do
    let segment ← segment.setSequence row seq
    setSequences (seq+1) rows segment

structure RevisionProgress where
  working : Option ActiveSegment
  records : List (ℕ × U16 × Bytes)
  replaySeq : Option LogSeq
  sealedTombstones : List DocId
  deriving DecidableEq

def RevisionProgress.start : RevisionProgress := ⟨none,[],none,[]⟩

section Engine
variable (quantizeBit4 : List U32 → Bytes → Except QuantError (Bytes × Bit4Factors))
  (analyze : String → List Token)
  (pushRow : U64 → List (ColumnId × PredicateValue) → Except String Unit)

def validateDocumentColumns (d : IngestDocument) : Except String Unit := pushRow d.timestamp d.columns

def validateDocuments : List IngestDocument → Except IngestError Unit
  | [] => .ok ()
  | d::ds => do
    Except.mapError .columns (validateDocumentColumns pushRow d)
    validateDocuments ds

def RevisionProgress.workingCopy (progress : RevisionProgress) (current : ActiveSegment)
    (d : IngestDocument) (remaining : List IngestDocument) : Except IngestError ActiveSegment :=
  match progress.working with
  | some working => .ok working
  | none => current.copyForBatch d remaining

def writeRow (segment : ActiveSegment) (row : Option ℕ) (d : IngestDocument) :
    Except IngestError (ActiveSegment × ℕ) :=
  match row with
  | some row => do
    let segment ← segment.replaceInPlace quantizeBit4 analyze row d
    return (segment,row)
  | none => segment.insertInPlace quantizeBit4 analyze d

def RevisionProgress.write (progress : RevisionProgress) (current : ActiveSegment)
    (d : IngestDocument) (remaining : List IngestDocument) (row : Option ℕ) :
    Except IngestError RevisionProgress := do
  let working ← progress.workingCopy current d remaining
  let (working,row) ← writeRow quantizeBit4 analyze working row d
  let payload ← Except.mapError .payload (encodeUpsertV2 d)
  return { progress with
    working := some working
    records := progress.records++[(row,upsertV2,payload)] }

/-- A document that replaces sealed copies asks for their tombstones once. -/
def RevisionProgress.tombstoneSealed (progress : RevisionProgress) (sealedView : SealedView)
    (docId : DocId) : RevisionProgress :=
  if (sealedView.versions.any fun version => version.docId = docId) &&
      !progress.sealedTombstones.contains docId then
    { progress with sealedTombstones := progress.sealedTombstones++[docId] }
  else progress

def applyRevisionDecision (current : ActiveSegment) (sealedView : SealedView) (d : IngestDocument)
    (remaining : List IngestDocument) (progress : RevisionProgress) :
    Except IngestError RevisionProgress :=
  let segment:=progress.working.getD current
  let existing:=resolveRevision segment sealedView d.version.docId
  match classifyRevision (existing.map fun resolved => (resolved.version,resolved.seq)) d.version with
  | .replace => do
    let progress ← progress.write quantizeBit4 analyze current d remaining
      (existing.bind ResolvedRevision.activeRow)
    return progress.tombstoneSealed sealedView d.version.docId
  | .insert => progress.write quantizeBit4 analyze current d remaining none
  | .replay seq => .ok { progress with
      replaySeq := some (progress.replaySeq.elim seq fun current => maxWord current seq) }
  | .reject revision => .error (.staleRevision d.version.docId revision d.version.revision)

def applyRevisions (current : ActiveSegment) (sealedView : SealedView) :
    List IngestDocument → RevisionProgress → Except IngestError RevisionProgress
  | [],progress => .ok progress
  | d::ds,progress => do
    let progress ← applyRevisionDecision quantizeBit4 analyze current sealedView d (d::ds) progress
    applyRevisions current sealedView ds progress

/-- `ingest_attempt`. -/
def LiveStore.ingest (s : LiveStore) (sealedView : SealedView) (documents : List IngestDocument) :
    Except IngestError (IngestAck × LiveStore) := do
  if documents = [] then throw .emptyBatch
  validateDocuments pushRow documents
  checkRevisionConditions s.active.segment sealedView
    (documents.zipIdx.map fun (d,index) => (index,d.version.docId,d.expectedRevision))
  let progress ← applyRevisions quantizeBit4 analyze s.active.segment sealedView documents .start
  match progress.working with
  | none =>
    match progress.replaySeq with
    | none => throw (.store (.synchronization "nonempty ingest replay sequence"))
    | some seq => return (⟨seq,s.active.generation⟩,s)
  | some next => do
    let records ← Except.mapError .payload (frameBatch progress.records)
    let generation ← Except.mapError .store (addGeneration s.active.generation 1)
    let framed:=records.map fun record => record.2
    let stop ← Except.mapError .store (commitMany s.nextSeq framed)
    let next ← Except.mapError .store
      (setSequences s.nextSeq (records.map fun record => record.1) next)
    return (⟨BitVec.ofNat 64 (stop.toNat-1),generation⟩,
      { s with active := ⟨generation,next⟩,log := s.log++framed })

/-- `delete_with_writer`. -/
def LiveStore.delete (s : LiveStore) (sealedView : SealedView) (docIds : List DocId)
    (expected : List (Option ExpectedRevision)) : Except IngestError (IngestAck × LiveStore) := do
  if docIds = [] then throw .emptyBatch
  checkRevisionConditions s.active.segment sealedView
    (docIds.zipIdx.map fun (docId,index) => (index,docId,(expected[index]?).join))
  let generation ← Except.mapError .store (addGeneration s.active.generation 1)
  let (next,rows) ← s.active.segment.tombstone docIds
  let payload ← Except.mapError .payload (encodeDelete docIds)
  let _ ← Except.mapError .store (commitMany s.nextSeq [(deleteV1,payload)])
  let next ← Except.mapError .store (rows.foldlM (fun next row => next.setSequence row s.nextSeq) next)
  return (⟨s.nextSeq,generation⟩,
    { s with active := ⟨generation,next⟩,log := s.log++[(deleteV1,payload)] })

inductive Operation where
  | ingest (sealedView : SealedView) (documents : List IngestDocument)
  | delete (sealedView : SealedView) (docIds : List DocId) (expected : List (Option ExpectedRevision))

def liveStep (s : LiveStore) : Operation → Option LiveStore
  | .ingest sealedView documents =>
    ((s.ingest quantizeBit4 analyze pushRow sealedView documents).toOption).map Prod.snd
  | .delete sealedView docIds expected =>
    ((s.delete sealedView docIds expected).toOption).map Prod.snd

end Engine

/-! ingest/active.rs -/

def recoveryApplyError (seq : LogSeq) (op : U16) : IngestError → StoreError
  | .store error => error
  | .emptyBatch | .revisionConflict .. => .unsupportedWalMutation seq op
  | .staleRevision docId current attempted => .walRevisionOrder seq docId current attempted
  | .vector source => .walVector seq source
  | .lexical source => .walMutation seq op (.lexical source.message)
  | .columns source => .walMutation seq op (.columns source)
  | .payload source => .walMutation seq op source

structure SealedTombstoneDemand where
  docId : DocId
  below : Option Revision
  deriving DecidableEq

structure ReplayState where
  segment : ActiveSegment
  rows : ActiveRows
  sealedTombstones : List SealedTombstoneDemand
  deriving DecidableEq

def replayDocuments (steps : List (LogSeq × U16 × ReplayStep)) : List IngestDocument :=
  steps.filterMap fun step => match step.2.2 with
    | .upsert document => some document
    | .delete _ => none

def replayDeleteId (seq : LogSeq) (s : ReplayState) (docId : DocId) :
    Except StoreError ReplayState :=
  match s.rows.lookup docId with
  | none => .ok s
  | some row =>
    if 2^32 ≤ row then .error .activeRowOverflow
    else do
      let tombstones:=s.segment.tombstones
      let tombstones:=if tombstones.contains (BitVec.ofNat 32 row) then tombstones
        else tombstones++[BitVec.ofNat 32 row]
      let segment ← { s.segment with tombstones }.setSequence row seq
      return { s with segment }

section Engine
variable (quantizeBit4 : List U32 → Bytes → Except QuantError (Bytes × Bit4Factors))
  (analyze : String → List Token)

def replayRow (seq : LogSeq) (op : U16) (s : ReplayState) (d : IngestDocument) :
    Except StoreError (ActiveSegment × ActiveRows × ℕ) :=
  match s.rows.lookup d.version.docId with
  | some row =>
    match s.segment.document row with
    | none => .error .activeRowOverflow
    | some current =>
      if d.version.revision ≤ current.revision then
        .error (.walRevisionOrder seq d.version.docId current.revision d.version.revision)
      else do
        let segment ← Except.mapError (recoveryApplyError seq op)
          (s.segment.replaceRowInPlace quantizeBit4 row d)
        return (segment,s.rows,row)
  | none => do
    let (segment,row) ← Except.mapError (recoveryApplyError seq op)
      (s.segment.insertRowInPlace quantizeBit4 d)
    return (segment,s.rows.insert d.version.docId row,row)

def replayUpsert (seq : LogSeq) (op : U16) (s : ReplayState) (d : IngestDocument) :
    Except StoreError ReplayState := do
  let (segment,rows,row) ← replayRow quantizeBit4 seq op s d
  let segment ← segment.setSequence row seq
  return ⟨segment,rows,
    s.sealedTombstones++[⟨d.version.docId,some d.version.revision⟩]⟩

def replayStep (s : ReplayState) (step : LogSeq × U16 × ReplayStep) :
    Except StoreError ReplayState :=
  match step.2.2 with
  | .upsert d => replayUpsert quantizeBit4 step.1 step.2.1 s d
  | .delete docIds => do
    let s ← docIds.foldlM (replayDeleteId step.1) s
    return { s with
      sealedTombstones := s.sealedTombstones++docIds.map fun docId => ⟨docId,none⟩ }

def workingSegment (steps : List (LogSeq × U16 × ReplayStep)) : Except StoreError ActiveSegment :=
  match (replayDocuments steps).head?,steps.head? with
  | some first,some (seq,op,_) =>
    Except.mapError (recoveryApplyError seq op)
      (ActiveSegment.empty.copyForBatch first (replayDocuments steps))
  | _,_ => .ok .empty

def indexReplayed (steps : List (LogSeq × U16 × ReplayStep)) (segment : ActiveSegment) :
    Except StoreError ActiveSegment :=
  match steps.getLast? with
  | none => .ok segment
  | some (seq,op,_) =>
    if segment.tracksText then do
      let lexical ← Except.mapError (recoveryApplyError seq op) (segment.rebuildLexical analyze)
      return { segment with lexical }
    else .ok segment

def replaySegment (steps : List (LogSeq × U16 × ReplayStep)) :
    Except StoreError (ActiveSegment × List SealedTombstoneDemand) := do
  let segment ← workingSegment steps
  let s ← steps.foldlM (replayStep quantizeBit4) ⟨segment,[],[]⟩
  let segment ← indexReplayed analyze steps s.segment
  return (segment,s.sealedTombstones)

structure RecoveredState where
  active : ActiveState
  tombstones : List SealedTombstoneDemand
  graph : List RecoveredGraphCommit
  deriving DecidableEq

section Log
variable (xxh3 : Bytes → U64) (validateEnvelope : Bytes → Except GraphWalError Unit)
  (pushRow : U64 → List (ColumnId × PredicateValue) → Except String Unit)

def replay (generation absorbedThrough graphAbsorbedThrough : U64)
    (graphManifest : Option GraphManifest) (graphEnabled : Bool) (records : List VisibleRecord)
    (nextSeq : U64) (decisions : List TransactionBinding) : Except StoreError RecoveredState := do
  let tail ← replayTail xxh3 validateEnvelope (validateDocumentColumns pushRow) generation
    absorbedThrough graphAbsorbedThrough graphManifest graphEnabled records nextSeq decisions
  let (segment,tombstones) ← replaySegment quantizeBit4 analyze tail.steps
  return ⟨⟨tail.generation,segment⟩,tombstones,tail.graph⟩

end Log

end Engine

end Zeppelin.Ingest
