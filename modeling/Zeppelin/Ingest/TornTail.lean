import Zeppelin.Ingest.StoreMachine
import Zeppelin.Machine.Stateful

/-! ingest/atomic_batch.rs, wal/mod.rs -/

namespace Zeppelin.Ingest
open Wal Machine List

def defaultMaxGroupBytesDurable : ℕ := 16*1048576

/-- A record torn by the end of the file, of a length that a store writer appends. -/
def interruptedAppend : RecordError → Bool
  | .headerTruncated .. => true
  | .bodyTruncated _ needed _ => needed ≤ defaultMaxGroupBytesDurable
  | .lengthOverflow .. | .checksumMismatch .. => false

inductive CutError (ι : Type) where
  | io (source : ι)
  | synchronization (component : String)

structure Directory where
  wal : Option Bytes
  temporary : Option Bytes

/-- What the calls give: a read may fault or give other bytes, the others may fail. -/
structure Vfs (ι : Type) where
  openWal : Option ι
  readWal : Bytes → Except ι Bytes
  write : Option ι
  sync : Option ι
  readTemporary : Bytes → Except ι Bytes
  rename : Option ι
  syncDirectory : Option ι

def Vfs.healthy (ι : Type) : Vfs ι where
  openWal := none
  readWal := .ok
  write := none
  sync := none
  readTemporary := .ok
  rename := none
  syncDirectory := none

section Cut
variable {ι : Type} (xxh3 : Bytes → U64) (vfs : Vfs ι)

abbrev Cutting (ι α : Type) := Stateful (CutError ι) Directory α

def call (fault : Option ι) : Cutting ι Unit :=
  match fault with
  | none => pure ()
  | some source => Stateful.fail (.io source)

def given {α : Type} (outcome : Except ι α) : Cutting ι α :=
  match outcome with
  | .ok value => pure value
  | .error source => Stateful.fail (.io source)

def interruptedAt (bytes : Bytes) : Option ℕ :=
  match (Wal.replay xxh3 bytes).terminator with
  | .corruptAt offset (.record .tail error) => if interruptedAppend error then some offset else none
  | _ => none

/-- The prefix takes the place of the log once the temporary reads back. -/
def replaceWal (kept : Bytes) : Cutting ι Bool := do
  call vfs.write
  Stateful.update fun directory => { directory with temporary := some kept }
  call vfs.sync
  let back ← given (vfs.readTemporary kept)
  if back ≠ kept then return false
  else do
    call vfs.rename
    Stateful.update fun _ => ⟨some kept,none⟩
    call vfs.syncDirectory
    return true

def cutWal (file : Bytes) : Cutting ι Bool := do
  call vfs.openWal
  let bytes ← given (vfs.readWal file)
  if bytes.length ≠ file.length then return false
  else match interruptedAt xxh3 bytes with
    | none => return false
    | some offset => do
      Stateful.require (offset ≤ bytes.length) (.synchronization "interrupted WAL append offset")
      replaceWal vfs (bytes.take offset)

def cutInterruptedAppend : Cutting ι Bool := do
  let directory ← Stateful.read id
  match directory.wal with
  | none => return false
  | some file => cutWal xxh3 vfs file

end Cut

structure WalReader where
  records : List WalRecord
  nextSeq : U64
  durableEnd : U64
  terminator : Option ReplayTerminator

structure CleanWalReader where
  records : List WalRecord
  nextSeq : U64
  durableEnd : U64

inductive WalRecoveryError where
  | missingFile
  | invalidHeader (error : WalHeaderError)
  | corruptAt (offset : ℕ) (reason : CorruptionReason)

section Reader
variable (xxh3 : Bytes → U64)

/-- `WalReader::open` of a log that is there, with the records that it ranges over. -/
def WalReader.open (bytes : Bytes) : WalReader :=
  match decodeHeader bytes with
  | .error error => ⟨[],0,0,some (.invalidHeader error)⟩
  | .ok header =>
    let replayed:=Wal.replay xxh3 bytes
    let last:=replayed.records.getLast?
    ⟨replayed.records,
      last.elim header.firstSeq fun record => saturatingAdd record.seq 1,
      last.elim (header.firstSeq-(if header.firstSeq = 0 then 0 else 1)) WalRecord.seq,
      some replayed.terminator⟩

def WalReader.intoClean (reader : WalReader) : Except WalRecoveryError CleanWalReader :=
  match reader.terminator with
  | some .cleanEnd => .ok ⟨reader.records,reader.nextSeq,reader.durableEnd⟩
  | some (.invalidHeader error) => .error (.invalidHeader error)
  | some (.corruptAt offset reason) => .error (.corruptAt offset reason)
  | none => .error .missingFile

/-- Only a torn body counts as the end of the log here. -/
def WalReader.intoGraphPrefix (reader : WalReader) : Except WalRecoveryError CleanWalReader :=
  match reader.terminator with
  | some (.corruptAt _ (.record .tail (.bodyTruncated _ needed _))) =>
    if needed ≤ defaultMaxGroupBytesDurable then
      WalReader.intoClean { reader with terminator := some .cleanEnd }
    else reader.intoClean
  | _ => reader.intoClean

end Reader

section Checksum
variable {ι : Type} (xxh3 : Bytes → U64)

theorem same_chained : Chained fun s t : Directory => t = s where
  refl := fun _ => rfl
  trans := fun _ _ _ h h' => h'.trans h

theorem call_framed (fault : Option ι) (s : Directory) :
    Framed (fun s t => t = s) (call fault) s fun _ _ => True := by
  cases fault with
  | none => exact .done same_chained trivial
  | some source => exact ⟨rfl,nofun⟩

theorem given_framed {α : Type} (outcome : Except ι α) (s : Directory) :
    Framed (fun s t => t = s) (given outcome) s fun value _ => outcome = .ok value := by
  cases outcome with
  | error source => exact ⟨rfl,nofun⟩
  | ok value => exact .done same_chained rfl

theorem cut_unchanged (vfs : Vfs ι) {directory : Directory}
    (h : ∀ file bytes,directory.wal = some file → vfs.readWal file = .ok bytes →
      bytes.length = file.length → interruptedAt xxh3 bytes = none) :
    ((cutInterruptedAppend xxh3 vfs).run directory).2 = directory := by
  have hframed : Framed (fun s t => t = s) (cutInterruptedAppend xxh3 vfs) directory
      fun _ _ => True := by
    unfold cutInterruptedAppend
    apply (Framed.read same_chained _).bind same_chained
    intro found s hs ⟨hfound,_⟩
    have hsame : found = directory := hfound
    rw [hs,hsame]
    cases hwal : directory.wal with
    | none => exact .done same_chained trivial
    | some file =>
      dsimp only
      unfold cutWal
      apply (call_framed _ _).bind same_chained
      intro _ s hs _
      subst hs
      apply (given_framed _ _).bind same_chained
      intro bytes s hs hread
      subst hs
      split_ifs with hlength
      · exact .done same_chained trivial
      · rw [h file bytes hwal hread (not_not.mp hlength)]
        exact .done same_chained trivial
  exact hframed.frame

variable {bytes : Bytes} {temporary : Option Bytes}

theorem cut_healthy {offset : ℕ}
    (h : interruptedAt xxh3 bytes = some offset) (hle : offset ≤ bytes.length) :
    (cutInterruptedAppend xxh3 (Vfs.healthy ι)).run ⟨some bytes,temporary⟩ =
      (.ok true,⟨some (bytes.take offset),none⟩) := by
  have hrun : (cutWal xxh3 (Vfs.healthy ι) bytes).run ⟨some bytes,temporary⟩ =
      (.ok true,⟨some (bytes.take offset),none⟩) := by
    unfold cutWal
    rw [Stateful.run_bind (a := ()) (t := ⟨some bytes,temporary⟩) rfl,
      Stateful.run_bind (a := bytes) (t := ⟨some bytes,temporary⟩) rfl,
      if_neg (not_not.mpr rfl),h]
    dsimp only
    rw [Stateful.run_bind (a := ()) (t := ⟨some bytes,temporary⟩) (by
      unfold Stateful.require
      dsimp only
      rw [if_pos hle])]
    unfold replaceWal
    rw [Stateful.run_bind (a := ()) (t := ⟨some bytes,temporary⟩) rfl,
      Stateful.run_bind (a := ()) (t := ⟨some bytes,some (bytes.take offset)⟩) rfl,
      Stateful.run_bind (a := ()) (t := ⟨some bytes,some (bytes.take offset)⟩) rfl,
      Stateful.run_bind (a := bytes.take offset) (t := ⟨some bytes,some (bytes.take offset)⟩) rfl,
      if_neg (not_not.mpr rfl)]
    rfl
  exact hrun

theorem cut_healthy_none (h : interruptedAt xxh3 bytes = none) :
    (cutInterruptedAppend xxh3 (Vfs.healthy ι)).run ⟨some bytes,temporary⟩ =
      (.ok false,⟨some bytes,temporary⟩) := by
  have hrun : (cutWal xxh3 (Vfs.healthy ι) bytes).run ⟨some bytes,temporary⟩ =
      (.ok false,⟨some bytes,temporary⟩) := by
    unfold cutWal
    rw [Stateful.run_bind (a := ()) (t := ⟨some bytes,temporary⟩) rfl,
      Stateful.run_bind (a := bytes) (t := ⟨some bytes,temporary⟩) rfl,
      if_neg (not_not.mpr rfl),h]
    rfl
  exact hrun

/-- The graph reader reads the records that the cut would leave. -/
def GraphReads (bytes : Bytes) (records : List WalRecord) : Prop :=
  ∃ clean,(WalReader.open xxh3 bytes).intoGraphPrefix = .ok clean ∧ clean.records = records

/-- The file ends inside a record: behind a valid header and whole records in sequence stand
bytes too few for a record header, or for the length in their own length field. -/
structure EndsInside (bytes : Bytes) (first : LogSeq) (rs : List WalRecord) (rest : Bytes) :
    Prop where
  header : decodeHeader bytes = .ok ⟨first⟩
  split : bytes.drop walHeaderLen = framesBytes xxh3 rs++rest
  framable : Framable rs
  follows : Follows first rs
  begun : rest ≠ []
  short : rest.length < recordHeaderLen ∨
    (rest.length < minRecordLen+(ofLe 32 (rest.take 4)).toNat ∧
      minRecordLen+(ofLe 32 (rest.take 4)).toNat ≤ defaultMaxGroupBytesDurable)

section Ends
variable {bytes rest : Bytes} {first : LogSeq} {rs : List WalRecord}

theorem replay_follows (hheader : decodeHeader bytes = .ok ⟨first⟩)
    (hsplit : bytes.drop walHeaderLen = framesBytes xxh3 rs++rest) (hframable : Framable rs)
    (hfollows : Follows first rs) :
    Wal.replay xxh3 bytes = replayLoop xxh3 bytes (walHeaderLen+(framesBytes xxh3 rs).length)
        (expectedAfter first rs) rs ∧
      bytes.drop (walHeaderLen+(framesBytes xxh3 rs).length) = rest := by
  constructor
  · rw [Wal.replay,hheader]
    exact replayLoop_follows xxh3 rs bytes walHeaderLen first [] rest hsplit hframable hfollows
  · rw [← drop_drop,hsplit,drop_left]

theorem EndsInside.replayed (h : EndsInside xxh3 bytes first rs rest) :
    Wal.replay xxh3 bytes = ⟨rs,.corruptAt (walHeaderLen+(framesBytes xxh3 rs).length)
      (.record .tail (if rest.length < recordHeaderLen then
          .headerTruncated recordHeaderLen rest.length
        else .bodyTruncated (ofLe 32 (rest.take 4))
          (minRecordLen+(ofLe 32 (rest.take 4)).toNat) rest.length))⟩ := by
  obtain ⟨hrun,hrest⟩ := replay_follows xxh3 h.header h.split h.framable h.follows
  have hdecode:=decodeRecord_eq xxh3 rest
  have hne:=h.begun
  rw [hrun]
  by_cases hshort : rest.length < recordHeaderLen
  · rw [if_pos hshort] at hdecode ⊢
    rw [← hrest] at hne hdecode
    rw [replayLoop_error xxh3 hne hdecode,hrest]
    rfl
  · have hbody:=(h.short.resolve_left hshort).1
    rw [if_neg hshort,if_pos hbody] at hdecode
    rw [if_neg hshort]
    rw [← hrest] at hne hdecode
    rw [replayLoop_error xxh3 hne hdecode,hrest]
    rfl

theorem EndsInside.interrupted (h : EndsInside xxh3 bytes first rs rest) :
    interruptedAt xxh3 bytes = some (walHeaderLen+(framesBytes xxh3 rs).length) := by
  rw [interruptedAt,h.replayed]
  dsimp only
  by_cases hshort : rest.length < recordHeaderLen
  · rw [if_pos hshort]
    rfl
  · rw [if_neg hshort,interruptedAppend,decide_eq_true (h.short.resolve_left hshort).2]
    rfl

/-- By cases on what stands behind the records of the replay. -/
theorem endsInside_of_interrupted {offset : ℕ} (h : interruptedAt xxh3 bytes = some offset) :
    ∃ first rs rest,EndsInside xxh3 bytes first rs rest := by
  cases hheader : decodeHeader bytes with
  | error error =>
    rw [interruptedAt,Wal.replay,hheader] at h
    cases h
  | ok header =>
    obtain ⟨rest,hsplit,hframable,hfollows,hend⟩ := replay_shape xxh3 hheader
    obtain ⟨hrun,hrest⟩ := replay_follows xxh3 hheader hsplit hframable hfollows
    refine ⟨header.firstSeq,(Wal.replay xxh3 bytes).records,rest,?_⟩
    rcases hend with ⟨-, hclean⟩ | ⟨hne,hstops,-⟩
    · rw [interruptedAt, hclean] at h
      cases h
    · refine ⟨hheader,hsplit,hframable,hfollows,hne,?_⟩
      have hdecode:=decodeRecord_eq xxh3 rest
      by_cases hshort : rest.length < recordHeaderLen
      · exact .inl hshort
      rw [if_neg hshort] at hdecode
      dsimp only at hdecode
      rw [interruptedAt,hrun] at h
      rw [← hrest] at hne
      by_cases hbody : rest.length < minRecordLen+(ofLe 32 (rest.take 4)).toNat
      · rw [if_pos hbody,← hrest] at hdecode
        rw [replayLoop_error xxh3 hne hdecode,hrest] at h
        by_cases hgroup : minRecordLen+(ofLe 32 (rest.take 4)).toNat ≤ defaultMaxGroupBytesDurable
        · exact .inr ⟨hbody,hgroup⟩
        · simp [RecordError.framedLength,interruptedAppend,hgroup] at h
      · rw [if_neg hbody] at hdecode
        split_ifs at hdecode with hchecksum
        · rw [← hrest] at hdecode
          rw [replayLoop_error xxh3 hne hdecode] at h
          dsimp only at h
          split at h
          · rename_i hreason
            simp only [ReplayTerminator.corruptAt.injEq,CorruptionReason.record.injEq] at hreason
            obtain ⟨-,-,rfl⟩ := hreason
            simp [interruptedAppend] at h
          · cases h
        · rw [StopsAt,hdecode] at hstops
          rw [← hrest] at hdecode
          rw [replayLoop_mismatch xxh3 hne hdecode (by rw [hrest]; exact hstops)] at h
          unfold sequenceReason at h
          split_ifs at h

theorem EndsInside.cut_run {ι : Type} (h : EndsInside xxh3 bytes first rs rest)
    (temporary : Option Bytes) :
    (cutInterruptedAppend xxh3 (Vfs.healthy ι)).run ⟨some bytes,temporary⟩ =
      (.ok true,⟨some (bytes.take walHeaderLen++framesBytes xxh3 rs),none⟩) := by
  have hlength:=congrArg List.length h.split
  have hheader:=decodeHeader_ok_length h.header
  rw [length_drop,length_append] at hlength
  rw [cut_healthy xxh3 h.interrupted (by omega),take_add,h.split,take_left]

theorem EndsInside.graph_prefix (h : EndsInside xxh3 bytes first rs rest) :
    (WalReader.open xxh3 bytes).intoGraphPrefix =
      if rest.length < recordHeaderLen then
        .error (.corruptAt (walHeaderLen+(framesBytes xxh3 rs).length)
          (.record .tail (.headerTruncated recordHeaderLen rest.length)))
      else .ok ⟨rs,(WalReader.open xxh3 bytes).nextSeq,(WalReader.open xxh3 bytes).durableEnd⟩ := by
  have hrecords : (WalReader.open xxh3 bytes).records = rs := by
    rw [WalReader.open,h.header]
    dsimp only
    rw [h.replayed]
  have hterminator : (WalReader.open xxh3 bytes).terminator =
      some (Wal.replay xxh3 bytes).terminator := by
    rw [WalReader.open,h.header]
  rw [h.replayed] at hterminator
  rw [WalReader.intoGraphPrefix]
  by_cases hshort : rest.length < recordHeaderLen
  · rw [if_pos hshort] at hterminator
    rw [hterminator,if_pos hshort]
    dsimp only
    rw [WalReader.intoClean,hterminator]
  · rw [if_neg hshort] at hterminator
    rw [hterminator,if_neg hshort]
    dsimp only
    rw [if_pos (h.short.resolve_left hshort).2, WalReader.intoClean,hrecords]

theorem EndsInside.graph_iff (h : EndsInside xxh3 bytes first rs rest) :
    GraphReads xxh3 bytes rs ↔ recordHeaderLen ≤ rest.length := by
  rw [GraphReads, h.graph_prefix]
  split_ifs with hshort
  · constructor
    · rintro ⟨clean, hclean,-⟩
      cases hclean
    · intro hlong
      omega
  · exact ⟨fun _ => by omega,fun _ => ⟨_,rfl,rfl⟩⟩

end Ends

variable {first : LogSeq} {frames : List (U16 × Bytes)} {image : Bytes} {n : ℕ}

theorem numbered_take (first : LogSeq) (frames : List (U16 × Bytes)) (k : ℕ) :
    (numbered first frames).take k = numbered first (frames.take k) := by
  induction k generalizing first frames with
  | zero => rfl
  | succ k ih =>
    cases frames with
    | nil => rfl
    | cons frame frames =>
      rw [take_succ_cons,numbered,numbered,take_succ_cons,ih]

theorem encodeWalImage_take (himage : encodeWalImage xxh3 first frames = .ok image) (k : ℕ) :
    encodeWalImage xxh3 first (frames.take k) =
      .ok (headerBytes first++framesBytes xxh3 ((numbered first frames).take k)) := by
  obtain ⟨-,hframable,hroom⟩ := encodeWalImage_ok xxh3 himage
  have hinitial : Framable (numbered first (frames.take k)) := by
    rw [← numbered_take]
    intro r hr
    exact hframable r (mem_of_mem_take hr)
  have hlength:=length_take_le' k frames
  rw [encodeWalImage,encodeHeader_eq]
  dsimp only
  rw [appendImage_eq xxh3 _ hinitial (by omega),numbered_take]

theorem truncated_cases (himage : encodeWalImage xxh3 first frames = .ok image)
    (hlo : walHeaderLen ≤ n) (hhi : n ≤ image.length) :
    ∃ k ≤ frames.length,(n = boundary xxh3 (numbered first frames) k ∧
      image.take n = headerBytes first++framesBytes xxh3 ((numbered first frames).take k)) ∨
      ∃ r j,(numbered first frames)[k]? = some r ∧ 0 < j ∧ j < (recordBytes xxh3 r).length ∧
        n = boundary xxh3 (numbered first frames) k+j ∧
        image.take n = headerBytes first++
          (framesBytes xxh3 ((numbered first frames).take k)++(recordBytes xxh3 r).take j) := by
  obtain ⟨rfl,-,-⟩ := encodeWalImage_ok xxh3 himage
  obtain ⟨k,hk,hle,hnext⟩ := exists_boundary xxh3 (numbered first frames) n _ hlo
  obtain ⟨torn,htake,htorn,hshape⟩ := take_image xxh3 first (numbered first frames) n k hk hle
    hnext hhi
  rw [numbered_length] at hk
  refine ⟨k,hk,?_⟩
  by_cases hnil : torn = []
  · refine .inl ⟨htorn.mp hnil,?_⟩
    rw [htake,hnil,append_nil]
  · obtain ⟨r,j,hr,hj,rfl⟩ := hshape.resolve_left hnil
    have hlength:=congrArg List.length htake
    rw [length_take,Nat.min_eq_left hhi,length_append,length_append,
      headerBytes_length,length_take,Nat.min_eq_left hj.le] at hlength
    have hpos : 0 < j := by
      rcases Nat.eq_zero_or_pos j with rfl | hpos
      · exact absurd take_zero hnil
      · exact hpos
    refine .inr ⟨r,j,hr,hpos,hj,?_,htake⟩
    rw [boundary]
    omega

theorem torn_inside (himage : encodeWalImage xxh3 first frames = .ok image)
    (hgroup : ∀ frame ∈ frames,minRecordLen+frame.2.length ≤ defaultMaxGroupBytesDurable)
    {k j : ℕ} {r : WalRecord} (hr : (numbered first frames)[k]? = some r) (hpos : 0 < j)
    (hj : j < (recordBytes xxh3 r).length) {bytes : Bytes}
    (hbytes : bytes = headerBytes first++(framesBytes xxh3 ((numbered first frames).take k)++
      (recordBytes xxh3 r).take j)) :
    EndsInside xxh3 bytes first ((numbered first frames).take k) ((recordBytes xxh3 r).take j) := by
  obtain ⟨-,hframable,hroom⟩ := encodeWalImage_ok xxh3 himage
  have hlength : ((recordBytes xxh3 r).take j).length = j := by
    rw [length_take,Nat.min_eq_left hj.le]
  have hframe:=(numbered_range (mem_of_getElem? hr) hroom.le).2.2
  have hneeded : minRecordLen+r.payload.length ≤ defaultMaxGroupBytesDurable :=
    hgroup (r.op,r.payload) hframe
  have hfits:=hframable r (mem_of_getElem? hr)
  refine ⟨?_,?_,fun q hq => hframable q (mem_of_mem_take hq),?_,?_,?_⟩
  · rw [hbytes]
    exact decodeHeader_headerBytes first _
  · rw [hbytes]
    exact drop_left' (headerBytes_length first)
  · rw [numbered_take]
    exact (consecutive_numbered (by rw [length_take]; omega)).follows
  · intro hnil
    rw [hnil,length_nil] at hlength
    omega
  · rw [hlength]
    by_cases hshort : j < recordHeaderLen
    · exact .inl hshort
    · have hfield : ((recordBytes xxh3 r).take j).take 4 =
          toLe 4 (BitVec.ofNat 32 r.payload.length) := by
        rw [recordHeaderLen] at hshort
        rw [take_take,Nat.min_eq_left (by omega),recordBytes, recordPrefix,append_assoc]
        exact take_left' (toLe_length 4 _)
      rw [recordBytes_length] at hj
      rw [hfield,ofLe_toLe_32,BitVec.toNat_ofNat,Nat.mod_eq_of_lt hfits]
      exact .inr ⟨hj,hneeded⟩

theorem torn_nowhere (himage : encodeWalImage xxh3 first frames = .ok image) (k : ℕ) {bytes : Bytes}
    (hbytes : bytes = headerBytes first++framesBytes xxh3 ((numbered first frames).take k)) :
    Wal.replay xxh3 bytes = ⟨(numbered first frames).take k,.cleanEnd⟩ ∧
      interruptedAt xxh3 bytes = none ∧
      ∃ clean,(WalReader.open xxh3 bytes).intoGraphPrefix = .ok clean ∧
        clean.records = (numbered first frames).take k := by
  obtain ⟨-,hframable,hroom⟩ := encodeWalImage_ok xxh3 himage
  have hconsecutive : Consecutive first (numbered first frames) := consecutive_numbered hroom.le
  have hreplay:=replay_whole xxh3 first (numbered first frames) k hframable hconsecutive
  have hheader : decodeHeader bytes = .ok ⟨first⟩ := by
    rw [hbytes]
    exact decodeHeader_headerBytes first _
  rw [← hbytes] at hreplay
  refine ⟨hreplay,?_,?_⟩
  · rw [interruptedAt,hreplay]
  · rw [WalReader.open,hheader]
    dsimp only
    rw [hreplay]
    exact ⟨_,rfl,rfl⟩

/-- What the cut and both ways to read say about a truncation behind `k` whole records. -/
structure CutExact (xxh3 : Bytes → U64) (first : LogSeq) (frames : List (U16 × Bytes)) (k : ℕ)
    (bytes kept : Bytes) : Prop where
  encoded : encodeWalImage xxh3 first (frames.take k) = .ok kept
  cut : ∀ temporary,∃ cut,((cutInterruptedAppend xxh3 (Vfs.healthy Unit)).run
    ⟨some bytes,temporary⟩).1 = .ok cut
  left : ∀ temporary,((cutInterruptedAppend xxh3 (Vfs.healthy Unit)).run
    ⟨some bytes,temporary⟩).2.wal = some kept
  again : ∀ directory,directory.wal = some kept →
    ((cutInterruptedAppend xxh3 (Vfs.healthy Unit)).run directory).2 = directory
  replayed : Wal.replay xxh3 kept = ⟨numbered first (frames.take k),.cleanEnd⟩

/-- What the cut and the graph reader make of any file, whatever has damaged it. -/
structure DamageExact (xxh3 : Bytes → U64) (bytes : Bytes) : Prop where
  identical : ∀ temporary,((cutInterruptedAppend xxh3 (Vfs.healthy Unit)).run
      ⟨some bytes,temporary⟩).2.wal = some bytes ↔
    ∀ first rs rest,¬ EndsInside xxh3 bytes first rs rest
  unread : ∀ (vfs : Vfs Unit) (directory : Directory) (file : Bytes),directory.wal = some file →
    vfs.readWal file = .ok bytes → bytes.length ≠ file.length →
    ((cutInterruptedAppend xxh3 vfs).run directory).2 = directory
  graph : ∀ first rs rest,EndsInside xxh3 bytes first rs rest →
    (GraphReads xxh3 bytes rs ↔ recordHeaderLen ≤ rest.length)

theorem damage_exact (bytes : Bytes) : DamageExact xxh3 bytes := by
  refine ⟨?_,?_,fun first rs rest h => h.graph_iff xxh3⟩
  · intro temporary
    constructor
    · intro hsame first rs rest h
      rw [h.cut_run xxh3] at hsame
      have hlength:=congrArg List.length (Option.some.inj hsame)
      have hsplit:=congrArg List.length h.split
      have hbegun:=length_pos_iff.mpr h.begun
      rw [length_append,length_take] at hlength
      rw [length_drop,length_append] at hsplit
      omega
    · intro hnone
      cases hcut : interruptedAt xxh3 bytes with
      | none => rw [cut_healthy_none xxh3 hcut]
      | some offset =>
        obtain ⟨first,rs,rest,h⟩ := endsInside_of_interrupted xxh3 hcut
        exact absurd h (hnone first rs rest)
  · intro vfs directory file hwal hread hlength
    apply cut_unchanged
    intro file' bytes' hwal' hread' hsame
    obtain rfl := Option.some.inj (hwal.symm.trans hwal')
    obtain rfl := Except.ok.inj (hread.symm.trans hread')
    exact absurd hsame hlength

theorem cut_untorn (himage : encodeWalImage xxh3 first frames = .ok image) (k : ℕ) :
    CutExact xxh3 first frames k
      (headerBytes first++framesBytes xxh3 ((numbered first frames).take k))
      (headerBytes first++framesBytes xxh3 ((numbered first frames).take k)) := by
  obtain ⟨hreplay,hnone,-⟩ := torn_nowhere xxh3 himage k rfl
  have hagain : ∀ directory : Directory,directory.wal =
      some (headerBytes first++framesBytes xxh3 ((numbered first frames).take k)) →
      ((cutInterruptedAppend xxh3 (Vfs.healthy Unit)).run directory).2 = directory := by
    intro directory hwal
    apply cut_unchanged
    intro file bytes hfile hread _
    obtain rfl := Except.ok.inj hread
    obtain rfl := Option.some.inj (hwal.symm.trans hfile)
    exact hnone
  refine ⟨encodeWalImage_take xxh3 himage k,?_,?_,hagain,?_⟩
  · intro temporary
    exact ⟨false,by rw [cut_healthy_none xxh3 hnone]⟩
  · intro temporary
    rw [hagain _ rfl]
  · rw [hreplay,numbered_take]

/-- The cut is exact for every truncation of an image, and leaves any other file alone unless
it ends inside a record; the graph reader agrees with it unless the file ends within the fixed
header of a record. -/
theorem cut_exact (himage : encodeWalImage xxh3 first frames = .ok image)
    (hgroup : ∀ frame ∈ frames,minRecordLen+frame.2.length ≤ defaultMaxGroupBytesDurable)
    (hlo : walHeaderLen ≤ n) (hhi : n ≤ image.length) :
    (∃ k ≤ frames.length,∃ kept,boundary xxh3 (numbered first frames) k ≤ n ∧
      (k < frames.length → n < boundary xxh3 (numbered first frames) (k+1)) ∧
      CutExact xxh3 first frames k (image.take n) kept ∧
      (GraphReads xxh3 (image.take n) (numbered first (frames.take k)) ↔
        ¬ (boundary xxh3 (numbered first frames) k < n ∧
          n < boundary xxh3 (numbered first frames) k+recordHeaderLen))) ∧
    ∀ bytes,DamageExact xxh3 bytes := by
  refine ⟨?_,damage_exact xxh3⟩
  obtain ⟨k,hk,hcase⟩ := truncated_cases xxh3 himage hlo hhi
  refine ⟨k,hk,headerBytes first++framesBytes xxh3 ((numbered first frames).take k),?_⟩
  rw [← numbered_take]
  rcases hcase with ⟨hn,htake⟩ | ⟨r,j,hr,hpos,hj,hn,htake⟩
  · obtain ⟨-,-,hgraph⟩ := torn_nowhere xxh3 himage k htake
    refine ⟨hn.ge,?_,?_,?_⟩
    · intro hlt
      rw [hn]
      exact boundary_lt_succ xxh3 _ k (by rw [numbered_length]; exact hlt)
    · rw [htake]
      exact cut_untorn xxh3 himage k
    · exact ⟨fun _ h => absurd h.1 (by omega),fun _ => hgraph⟩
  · have hinside:=torn_inside xxh3 himage hgroup hr hpos hj htake
    have hheader : (image.take n).take walHeaderLen = headerBytes first := by
      rw [htake]
      exact take_left' (headerBytes_length first)
    have huntorn:=cut_untorn xxh3 himage k
    have hlength : ((recordBytes xxh3 r).take j).length = j := by
      rw [length_take,Nat.min_eq_left hj.le]
    refine ⟨by omega,?_,⟨huntorn.encoded,?_,?_,huntorn.again,huntorn.replayed⟩,?_⟩
    · intro _
      rw [boundary_succ xxh3 _ k r hr]
      omega
    · intro temporary
      exact ⟨true,by rw [hinside.cut_run xxh3]⟩
    · intro temporary
      rw [hinside.cut_run xxh3,hheader]
    · rw [hinside.graph_iff xxh3,hlength]
      omega

end Checksum

def oneRecord : List (U16 × Bytes) := [(1,[7])]

def oneRecordImage : Bytes :=
  headerBytes 1++framesBytes (fun _ => 0) (numbered 1 oneRecord)

theorem oneRecord_encoded : encodeWalImage (fun _ => 0) 1 oneRecord = .ok oneRecordImage := by
  decide +kernel

theorem oneRecord_bounded :
    ∀ frame ∈ oneRecord,minRecordLen+frame.2.length ≤ defaultMaxGroupBytesDurable := by
  decide +kernel

/-- A body that is torn is cut and read alike. -/
theorem cut_exact_body : (∃ k ≤ oneRecord.length,∃ kept,
      boundary (fun _ => 0) (numbered 1 oneRecord) k ≤ walHeaderLen+15 ∧
      (k < oneRecord.length →
        walHeaderLen+15 < boundary (fun _ => 0) (numbered 1 oneRecord) (k+1)) ∧
      CutExact (fun _ => 0) 1 oneRecord k (oneRecordImage.take (walHeaderLen+15)) kept ∧
      (GraphReads (fun _ => 0) (oneRecordImage.take (walHeaderLen+15))
          (numbered 1 (oneRecord.take k)) ↔
        ¬ (boundary (fun _ => 0) (numbered 1 oneRecord) k < walHeaderLen+15 ∧
          walHeaderLen+15 < boundary (fun _ => 0) (numbered 1 oneRecord) k+recordHeaderLen))) ∧
    ∀ bytes,DamageExact (fun _ => 0) bytes :=
  cut_exact (fun _ => 0) oneRecord_encoded oneRecord_bounded (by decide +kernel)
    (by decide +kernel)

def twoRecords : List (U16 × Bytes) := [(1,[7]),(1,[8])]

def twoRecordsImage : Bytes :=
  headerBytes 1++framesBytes (fun _ => 0) (numbered 1 twoRecords)

/-- The length field of the first record is raised by 256. -/
def damagedLength : Bytes := twoRecordsImage.set (walHeaderLen+1) 1

/-- Three bytes of a record: the writer cuts them off, the graph reader gives an error. One
damaged byte in a whole file of two records: the writer cuts both off. -/
theorem torn_header_refused :
    ((cutInterruptedAppend (fun _ => 0) (Vfs.healthy Unit)).run
        ⟨some (oneRecordImage.take (walHeaderLen+3)),none⟩ =
      (.ok true,⟨some (headerBytes 1),none⟩) ∧
    ∀ clean,(WalReader.open (fun _ => 0)
      (oneRecordImage.take (walHeaderLen+3))).intoGraphPrefix ≠ .ok clean) ∧
    encodeWalImage (fun _ => 0) 1 twoRecords = .ok twoRecordsImage ∧
    (cutInterruptedAppend (fun _ => 0) (Vfs.healthy Unit)).run ⟨some damagedLength,none⟩ =
      (.ok true,⟨some (headerBytes 1),none⟩) := by
  have htorn : EndsInside (fun _ => 0) (oneRecordImage.take (walHeaderLen+3)) 1 []
      ((recordBytes (fun _ => 0) ⟨1,1,[7]⟩).take 3) :=
    torn_inside (fun _ => 0) oneRecord_encoded oneRecord_bounded (k := 0) (j := 3)
      (r := ⟨1,1,[7]⟩) rfl (by decide) (by decide +kernel) (by decide +kernel)
  have hdamaged : EndsInside (fun _ => 0) damagedLength 1 []
      (damagedLength.drop walHeaderLen) :=
    ⟨by decide +kernel,rfl,nofun,trivial,by decide +kernel,by decide +kernel⟩
  have hheader : (oneRecordImage.take (walHeaderLen+3)).take walHeaderLen = headerBytes 1 := by
    decide +kernel
  have hdamagedHeader : damagedLength.take walHeaderLen = headerBytes 1 := by
    decide +kernel
  refine ⟨⟨?_,?_⟩,by decide +kernel,?_⟩
  · rw [htorn.cut_run,hheader,framesBytes_nil,append_nil]
  · intro clean
    rw [htorn.graph_prefix,if_pos (by decide +kernel)]
    nofun
  · rw [hdamaged.cut_run,hdamagedHeader,framesBytes_nil,append_nil]

end Zeppelin.Ingest
