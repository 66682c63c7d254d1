import Zeppelin.Machine.Run
import Zeppelin.Wal.Image

/-! wal/mod.rs -/

namespace Zeppelin.Wal
open Format Machine

structure VisibleRecord where
  seq : LogSeq
  op : U16
  encoded : Bytes
  start : ℕ
  stop : ℕ
  deriving DecidableEq

structure EncodedChunk where
  encoded : Bytes
  start : ℕ
  stop : ℕ
  deriving DecidableEq

def EncodedChunk.bytes (c : EncodedChunk) : Option Bytes := slice? c.encoded c.start c.stop

structure Group where
  chunks : List EncodedChunk
  encodedBytes : ℕ
  records : ℕ
  lastSeq : Option LogSeq
  deriving DecidableEq

structure CompletedGroup where
  records : ℕ
  encodedBytes : ℕ
  deriving DecidableEq

def groupSizeHistogramBuckets : ℕ := 18
def recentGroupLimit : ℕ := 64

def histogramBucket (records : ℕ) : ℕ :=
  if records = 0 then 0 else min records.log2 (groupSizeHistogramBuckets-1)

def histogramRecord (buckets : List ℕ) (records : ℕ) : List ℕ :=
  buckets.modify (histogramBucket records) (· + 1)

structure WriterState where
  nextSeq : LogSeq
  visible : List VisibleRecord
  retainedBytes : ℕ
  durableEnd : Option LogSeq
  pendingGroups : List Group
  spareChunks : List EncodedChunk
  barrierInFlight : Bool
  failure : Option Failure
  completedGroups : ℕ
  completedRecords : ℕ
  completedBytes : ℕ
  encodedBufferAllocations : ℕ
  groupSizeHistogram : List ℕ
  recentGroups : List CompletedGroup
  deriving DecidableEq

/-- Group bound of an opened writer. Creation refuses a bound below the header
length, and resuming uses one of the two default bounds. -/
structure GroupBound where
  bytes : ℕ
  header_le : walHeaderLen ≤ bytes

theorem GroupBound.pos (bound : GroupBound) : 0 < bound.bytes := by
  have h:=bound.header_le
  simp only [walHeaderLen,fileHeaderLen] at h
  omega

def pushEmptyPendingGroup (st : WriterState) : WriterState :=
  { st with
    pendingGroups := st.pendingGroups++[⟨st.spareChunks,0,0,none⟩]
    spareChunks := [] }

def ensurePendingGroup (st : WriterState) : WriterState :=
  if st.pendingGroups = [] then pushEmptyPendingGroup st else st

def modifyBack (f : Group → Group) (st : WriterState) : WriterState :=
  match st.pendingGroups.getLast? with
  | none => st
  | some g => { st with pendingGroups := st.pendingGroups.dropLast++[f g] }

/-- Outcome of one attempt of `stage` under the lock. -/
inductive StageOutcome where
  | staged (seq : LogSeq) (leader : Bool)
  | refused (error : WalWriteError)
  | waiting
  deriving DecidableEq

/-- Outcome of `stage_many`: the half-open sequence range and leadership. -/
inductive StageManyOutcome where
  | staged (first last : LogSeq) (leader : Bool)
  | refused (error : WalWriteError)
  deriving DecidableEq

def claimBarrier (st : WriterState) : Bool × WriterState :=
  let leader:=!st.barrierInFlight
  (leader,if leader then { st with barrierInFlight := true } else st)

section Checksum
variable (xxh3 : Bytes → U64) (bound : GroupBound)

/-- One pass of the loop in `stage` (`mod.rs:808-874`). -/
def stage (op : U16) (payload : Bytes) (st : WriterState) : StageOutcome × WriterState :=
  match encodedRecordLen payload.length with
  | .error e => (.refused (.record e),st)
  | .ok encodedLen =>
    match st.failure with
    | some failure => (.refused (.failed failure),st)
    | none =>
      let st:=ensurePendingGroup st
      let seq:=st.nextSeq
      match st.pendingGroups.getLast? with
      | none => (.refused (.poisoned "pending WAL group"),st)
      | some group =>
        let required:=group.encodedBytes+encodedLen
        if required ≤ bound.bytes then
          match checkedAdd st.nextSeq 1 with
          | none => (.refused .sequenceExhausted,st)
          | some nextSeq =>
            match encodeRecordInto xxh3 ⟨seq,op,payload⟩ with
            | .error e => (.refused (.record e),st)
            | .ok encoded =>
              let st:=modifyBack (fun g => ⟨g.chunks++[⟨encoded,0,encodedLen⟩],required,
                g.records+1,some seq⟩) st
              let (leader,st) := claimBarrier { st with
                nextSeq := nextSeq
                encodedBufferAllocations := st.encodedBufferAllocations+1
                retainedBytes := st.retainedBytes+encodedLen
                visible := st.visible++[⟨seq,op,encoded,0,encodedLen⟩] }
              (.staged seq leader,st)
        else if group.records = 0 then (.refused (.groupTooLarge required bound.bytes),st)
        else (.waiting,st)

/-- A record encoder of `stage_many_with_encoder`: call index, record, storage. -/
abbrev Encoder := ℕ → WalRecord → Bytes → Except RecordEncodeError Bytes

/-- The encoder `stage_many` passes. -/
def appendEncoder : Encoder := fun _ r storage => appendRecordInto xxh3 r storage

/-- The encoding loop: every record behind the previous one in one buffer. -/
def encodeBatch (encode : Encoder) : ℕ → LogSeq → List (U16 × Bytes) → Bytes →
    Except RecordEncodeError Bytes
  | _,_,[],storage => .ok storage
  | call,seq,(op,payload)::rs,storage =>
    match encode call ⟨seq,op,payload⟩ storage with
    | .error e => .error e
    | .ok storage => encodeBatch encode (call+1) (saturatingAdd seq 1) rs storage

/-- Position of the splitting loop: bytes placed so far and the first byte not
yet covered by a chunk. -/
structure SplitCursor where
  offset : ℕ
  chunkStart : ℕ
  deriving DecidableEq

def closeBackGroup (encoded : Bytes) (cur : SplitCursor) (st : WriterState) : WriterState :=
  pushEmptyPendingGroup
    (if cur.chunkStart < cur.offset then
      modifyBack (fun g => { g with chunks := g.chunks++[⟨encoded,cur.chunkStart,cur.offset⟩] })
        st
    else st)

/-- The `while offset < record_end` loop of one record (`mod.rs:564-584`): fill
the back group, open the next one when it is full. -/
def placeRecord (encoded : Bytes) (recordEnd : ℕ) (cur : SplitCursor) (st : WriterState) :
    Except WalWriteError SplitCursor × WriterState :=
  if _ : cur.offset < recordEnd then
    match _ : st.pendingGroups.getLast? with
    | none => (.error (.poisoned "pending WAL group"),st)
    | some group =>
      let available:=bound.bytes-group.encodedBytes
      if _ : available = 0 then
        placeRecord encoded recordEnd ⟨cur.offset,cur.offset⟩ (closeBackGroup encoded cur st)
      else
        let written:=min available (recordEnd-cur.offset)
        placeRecord encoded recordEnd ⟨cur.offset+written,cur.chunkStart⟩
          (modifyBack (fun g => { g with encodedBytes := g.encodedBytes+written }) st)
  else (.ok cur,st)
termination_by (recordEnd-cur.offset,
  bound.bytes-(bound.bytes-((st.pendingGroups.getLast?).elim 0 (·.encodedBytes))))
decreasing_by
  · apply Prod.Lex.right
    rename_i hlast _
    have hpos:=bound.pos
    have hnew : (closeBackGroup encoded cur st).pendingGroups.getLast? =
        some ⟨(if cur.chunkStart < cur.offset then modifyBack (fun g => { g with chunks :=
          g.chunks++[⟨encoded,cur.chunkStart,cur.offset⟩] }) st else st).spareChunks,0,0,
          none⟩ := by
      simp only [closeBackGroup,pushEmptyPendingGroup,List.getLast?_concat]
    rw [hnew,hlast]
    simp only [Option.elim_some]
    omega
  · apply Prod.Lex.left
    omega

/-- The outer splitting loop (`mod.rs:558-601`). -/
def splitBatch (encoded : Bytes) : LogSeq → List (U16 × ℕ) → SplitCursor → WriterState →
    Except WalWriteError SplitCursor × WriterState
  | _,[],cur,st => (.ok cur,st)
  | seq,(op,encodedLen)::rs,cur,st =>
    let recordStart:=cur.offset
    let recordEnd:=cur.offset+encodedLen
    match placeRecord bound encoded recordEnd cur st with
    | (.error e,st) => (.error e,st)
    | (.ok cur,st) =>
      let st:=modifyBack (fun g => { g with records := g.records+1,lastSeq := some seq }) st
      splitBatch encoded (saturatingAdd seq 1) rs cur { st with
        retainedBytes := st.retainedBytes+encodedLen
        visible := st.visible++[⟨seq,op,encoded,recordStart,recordEnd⟩] }

/-- Framed lengths of a batch, or the first payload that does not fit `u32`. -/
def encodedLengths : List (U16 × Bytes) → Except RecordEncodeError (List (U16 × ℕ))
  | [] => .ok []
  | (op,payload)::rs =>
    match encodedRecordLen payload.length with
    | .error e => .error e
    | .ok encodedLen =>
      match encodedLengths rs with
      | .error e => .error e
      | .ok lengths => .ok ((op,encodedLen)::lengths)

/-- `stage_many_with_encoder` (`mod.rs:478-612`). -/
def stageManyWithEncoder (encode : Encoder) (records : List (U16 × Bytes)) (st : WriterState) :
    StageManyOutcome × WriterState :=
  match records with
  | [] =>
    match st.failure with
    | some failure => (.refused (.failed failure),st)
    | none => (.staged st.nextSeq st.nextSeq false,st)
  | (_,firstPayload)::_ =>
    match encodedLengths records with
    | .error e => (.refused (.record e),st)
    | .ok lengths =>
      match lengths.find? (fun r => bound.bytes < r.2) with
      | some (_,encodedBytes) => (.refused (.groupTooLarge encodedBytes bound.bytes),st)
      | none =>
        match st.failure with
        | some failure => (.refused (.failed failure),st)
        | none =>
          let st:=ensurePendingGroup st
          match st.pendingGroups.getLast? with
          | none => (.refused (.poisoned "pending WAL group"),st)
          | some group =>
            let firstRequired:=group.encodedBytes+(minRecordLen+firstPayload.length)
            if group.records = 0 ∧ bound.bytes < firstRequired then
              (.refused (.groupTooLarge firstRequired bound.bytes),st)
            else if 2^64 ≤ records.length then (.refused .sequenceExhausted,st)
            else
              let start:=st.nextSeq
              match checkedAdd start (BitVec.ofNat 64 records.length) with
              | none => (.refused .sequenceExhausted,st)
              | some stop =>
                match encodeBatch encode 0 start records [] with
                | .error e => (.refused (.record e),st)
                | .ok encoded =>
                  match splitBatch bound encoded start lengths ⟨0,0⟩ st with
                  | (.error e,st) => (.refused e,st)
                  | (.ok cur,st) =>
                    let st:=modifyBack (fun g => { g with
                      chunks := g.chunks++[⟨encoded,cur.chunkStart,cur.offset⟩] }) st
                    let (leader,st) := claimBarrier { st with
                      nextSeq := stop
                      encodedBufferAllocations := st.encodedBufferAllocations+1 }
                    (.staged start stop leader,st)

def stageMany (records : List (U16 × Bytes)) (st : WriterState) : StageManyOutcome × WriterState :=
  stageManyWithEncoder bound (appendEncoder xxh3) records st

end Checksum

inductive FlushOutcome where
  | done
  | refused (error : WalWriteError)
  | waitFor (target : LogSeq) (leader : Bool)
  deriving DecidableEq

/-- The critical section of `flush` (`mod.rs:665-696`). -/
def flush (st : WriterState) : FlushOutcome × WriterState :=
  match st.failure with
  | some failure => (.refused (.failed failure),st)
  | none =>
    match st.visible.getLast? with
    | none => (.done,st)
    | some record =>
      if (st.durableEnd.elim false fun durableEnd => decide (record.seq ≤ durableEnd)) then
        (.done,st)
      else if st.barrierInFlight then (.waitFor record.seq false,st)
      else if st.pendingGroups.any (fun group => group.records ≠ 0) then
        (.waitFor record.seq true,{ st with barrierInFlight := true })
      else (.refused (.poisoned
        "non-durable WAL record has neither a pending group nor a leader"),st)

inductive PopOutcome where
  | popped (group : Group) (lastSeq : LogSeq)
  | refused (error : WalWriteError)
  deriving DecidableEq

/-- Pops the next group (`mod.rs:878-890`). A group without a sequence is popped
all the same, and the leader returns with `barrier_in_flight` still set. -/
def popGroup (st : WriterState) : PopOutcome × WriterState :=
  match st.pendingGroups with
  | [] => (.refused (.poisoned "WAL leader found no pending group"),st)
  | group::rest =>
    let st:={ st with pendingGroups := rest }
    match group.lastSeq with
    | none => (.refused (.poisoned "WAL leader found no pending sequence"),st)
    | some lastSeq => (.popped group lastSeq,st)

def Group.content (g : Group) : Option Bytes := (g.chunks.mapM EncodedChunk.bytes).map List.flatten

/-- What the file system did with a group append: everything, or an error after
some of the bytes reached the file. -/
inductive WriteFault where
  | none
  | after (written : ℕ) (failure : Failure)
  deriving DecidableEq

/-- `write_group`: the bytes that reach the file and the reported failure. -/
def writeGroup (g : Group) (fault : WriteFault) : Bytes × Option Failure :=
  match g.content with
  | .none => ([],some ⟨"Other","invalid WAL pending chunk range"⟩)
  | .some bytes =>
    match fault with
    | .none => (bytes,.none)
    | .after written failure => (bytes.take written,some failure)

/-- Completes a group (`mod.rs:897-936`); false when the leader returns. -/
def completeGroup (group : Group) (lastSeq : LogSeq) (failure : Option Failure) (st : WriterState) :
    Bool × WriterState :=
  let st:={ st with spareChunks := [] }
  match failure with
  | none =>
    let st:={ st with
      durableEnd := some lastSeq
      completedGroups := st.completedGroups+1
      completedRecords := st.completedRecords+group.records
      completedBytes := st.completedBytes+group.encodedBytes
      groupSizeHistogram := histogramRecord st.groupSizeHistogram group.records
      recentGroups := (if st.recentGroups.length = recentGroupLimit then st.recentGroups.tail
        else st.recentGroups)++[⟨group.records,group.encodedBytes⟩] }
    if st.pendingGroups = [] then (false,{ st with barrierInFlight := false }) else (true,st)
  | some failure => (false,{ st with failure := some failure,barrierInFlight := false })

/-- Where a thread inside `flush_as_leader` stands. -/
inductive LeaderPhase where
  | ready
  | popped (group : Group) (lastSeq : LogSeq)
  | written (group : Group) (lastSeq : LogSeq) (failure : Option Failure)
  deriving DecidableEq

structure System where
  writer : WriterState
  file : Bytes
  leaders : List LeaderPhase
  /-- Records of the calls that returned success, in sequence order. -/
  staged : List WalRecord
  deriving DecidableEq

inductive Event where
  | stage (op : U16) (payload : Bytes)
  | stageMany (encode : Encoder) (records : List (U16 × Bytes))
  | flush
  | pop (leader : ℕ)
  | write (leader : ℕ) (fault : WriteFault)
  | complete (leader : ℕ)

/-- A call that took leadership continues in `flush_as_leader`. -/
def addLeader (leader : Bool) (leaders : List LeaderPhase) : List LeaderPhase :=
  if leader then leaders++[.ready] else leaders

section Checksum
variable (xxh3 : Bytes → U64) (bound : GroupBound)

/-- One event; `none` when the named leader is not at that point of its loop. -/
def step (s : System) : Event → Option System
  | .stage op payload =>
    match stage xxh3 bound op payload s.writer with
    | (.staged seq leader,writer) => some { s with
        writer := writer
        leaders := addLeader leader s.leaders
        staged := s.staged++[⟨seq,op,payload⟩] }
    | (_,writer) => some { s with writer := writer }
  | .stageMany encode records =>
    match stageManyWithEncoder bound encode records s.writer with
    | (.staged first _ leader,writer) => some { s with
        writer := writer
        leaders := addLeader leader s.leaders
        staged := s.staged++numbered first records }
    | (.refused _,writer) => some { s with writer := writer }
  | .flush =>
    match flush s.writer with
    | (.waitFor _ leader,writer) => some { s with
        writer := writer,leaders := addLeader leader s.leaders }
    | (_,writer) => some { s with writer := writer }
  | .pop i =>
    match s.leaders[i]? with
    | some .ready =>
      match popGroup s.writer with
      | (.popped group lastSeq,writer) => some { s with
          writer := writer,leaders := s.leaders.set i (.popped group lastSeq) }
      | (.refused _,writer) => some { s with
          writer := writer,leaders := s.leaders.eraseIdx i }
    | _ => none
  | .write i fault =>
    match s.leaders[i]? with
    | some (.popped group lastSeq) =>
      let (bytes,failure) := writeGroup group fault
      some { s with
        file := s.file++bytes,leaders := s.leaders.set i (.written group lastSeq failure) }
    | _ => none
  | .complete i =>
    match s.leaders[i]? with
    | some (.written group lastSeq failure) =>
      match completeGroup group lastSeq failure s.writer with
      | (true,writer) => some { s with writer := writer,leaders := s.leaders.set i .ready }
      | (false,writer) => some { s with writer := writer,leaders := s.leaders.eraseIdx i }
    | _ => none

end Checksum

/-- `create_with_max_group_bytes` over a new path: the header waits in the first
pending group. -/
def createState (firstSeq : LogSeq) : WriterState where
  nextSeq := firstSeq
  visible := []
  retainedBytes := 0
  durableEnd := none
  pendingGroups := [⟨[⟨headerBytes firstSeq,0,walHeaderLen⟩],walHeaderLen,0,none⟩]
  spareChunks := []
  barrierInFlight := false
  failure := none
  completedGroups := 0
  completedRecords := 0
  completedBytes := 0
  encodedBufferAllocations := 0
  groupSizeHistogram := List.replicate groupSizeHistogramBuckets 0
  recentGroups := []

def created (firstSeq : LogSeq) : System := ⟨createState firstSeq,[],[],[]⟩

/-- `resume` over a cleanly replayed log: no pending group, everything durable. -/
def resumeState (nextSeq : LogSeq) (durableEnd : Option LogSeq) (visible : List VisibleRecord) :
    WriterState where
  nextSeq := nextSeq
  visible := visible
  retainedBytes := (visible.map fun r => r.stop-r.start).sum
  durableEnd := durableEnd
  pendingGroups := []
  spareChunks := []
  barrierInFlight := false
  failure := none
  completedGroups := 0
  completedRecords := 0
  completedBytes := 0
  encodedBufferAllocations := 0
  groupSizeHistogram := List.replicate groupSizeHistogramBuckets 0
  recentGroups := []

def resumed (file : Bytes) (recovered : List WalRecord) (nextSeq : LogSeq)
    (durableEnd : Option LogSeq) (visible : List VisibleRecord) : System :=
  ⟨resumeState nextSeq durableEnd visible,file,[],recovered⟩

end Zeppelin.Wal
