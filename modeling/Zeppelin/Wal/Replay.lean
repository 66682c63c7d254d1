import Zeppelin.Wal.Record

/-! wal/replay.rs, wal/mod.rs -/

namespace Zeppelin.Wal
open Format List

inductive CorruptionLocation where
  | tail
  | middle
  deriving DecidableEq

inductive CorruptionReason where
  | record (location : CorruptionLocation) (error : RecordError)
  | firstSequenceMismatch (expected actual : LogSeq) (location : CorruptionLocation)
  | sequenceGap (expected actual : LogSeq) (location : CorruptionLocation)
  | sequenceRegression (expected actual : LogSeq) (location : CorruptionLocation)
  deriving DecidableEq

inductive ReplayTerminator where
  | invalidHeader (error : WalHeaderError)
  | cleanEnd
  | corruptAt (offset : ℕ) (reason : CorruptionReason)
  deriving DecidableEq

@[ext] structure ReplayResult where
  records : List WalRecord
  terminator : ReplayTerminator
  deriving DecidableEq

section Checksum
variable (xxh3 : Bytes → U64)

/-- Whether a checksum-valid record begins at `offset`. -/
def successorLocation (bytes : Bytes) (offset : ℕ) : CorruptionLocation :=
  if bytes.drop offset = [] then .tail
  else match decodeRecord xxh3 (bytes.drop offset) with
    | .ok _ => .middle
    | .error _ => .tail

/-- Reason reported for a checked record whose sequence is not the expected one. -/
def sequenceReason (first : Bool) (expected actual : LogSeq) (location : CorruptionLocation) :
    CorruptionReason :=
  if first then .firstSequenceMismatch expected actual location
  else if actual > expected then .sequenceGap expected actual location
  else .sequenceRegression expected actual location

def replayLoop (bytes : Bytes) (offset : ℕ) (expected : LogSeq) (records : List WalRecord) :
    ReplayResult :=
  if _ : bytes.drop offset = [] then ⟨records,.cleanEnd⟩
  else match _ : decodeRecord xxh3 (bytes.drop offset) with
    | .error error =>
      let location:=error.framedLength.elim .tail
        (fun length => successorLocation xxh3 bytes (offset+length))
      ⟨records,.corruptAt offset (.record location error)⟩
    | .ok decoded =>
      let next:=offset+decoded.encodedLen
      if decoded.record.seq ≠ expected then
        ⟨records,.corruptAt offset (sequenceReason records.isEmpty expected decoded.record.seq
          (successorLocation xxh3 bytes next))⟩
      else replayLoop bytes next (saturatingAdd expected 1) (records++[decoded.record])
termination_by bytes.length-offset
decreasing_by
  rename_i hne hd _
  obtain ⟨-,-,hlen,-⟩ := decodeRecord_ok xxh3 hd
  have hpos : offset < bytes.length := by
    by_contra hcon
    exact hne (drop_eq_nil_of_le (by omega))
  simp only [minRecordLen,recordHeaderLen,recordChecksumLen] at hlen
  omega

def replay (bytes : Bytes) : ReplayResult :=
  match decodeHeader bytes with
  | .error error => ⟨[],.invalidHeader error⟩
  | .ok header => replayLoop xxh3 bytes walHeaderLen header.firstSeq []

/-- The sequence check of the loop over a run of records: each record carries
the expected sequence, which then saturates upwards by one. -/
def Follows : LogSeq → List WalRecord → Prop
  | _,[] => True
  | expected,r::rs => r.seq = expected ∧ Follows (saturatingAdd expected 1) rs

def expectedAfter : LogSeq → List WalRecord → LogSeq
  | expected,[] => expected
  | expected,_::rs => expectedAfter (saturatingAdd expected 1) rs

def framesBytes (rs : List WalRecord) : Bytes := rs.flatMap (recordBytes xxh3)

/-- Every payload length fits the persisted `u32` field. -/
def Framable (rs : List WalRecord) : Prop := ∀ r ∈ rs,r.payload.length < 2^32

@[simp] theorem framesBytes_nil : framesBytes xxh3 [] = [] := rfl

@[simp] theorem framesBytes_cons (r : WalRecord) (rs : List WalRecord) :
    framesBytes xxh3 (r::rs) = recordBytes xxh3 r++framesBytes xxh3 rs := rfl

@[simp] theorem framesBytes_append (rs ss : List WalRecord) :
    framesBytes xxh3 (rs++ss) = framesBytes xxh3 rs++framesBytes xxh3 ss := by
  simp only [framesBytes,flatMap_append]

theorem recordBytes_ne_nil (r : WalRecord) : recordBytes xxh3 r ≠ [] := by
  intro h
  have hl:=recordBytes_length xxh3 r
  rw [h] at hl
  simp only [length_nil,minRecordLen,recordHeaderLen,recordChecksumLen] at hl
  omega

theorem replayLoop_step (bytes : Bytes) (offset : ℕ) (expected : LogSeq) (acc : List WalRecord)
    (r : WalRecord) (rest : Bytes) (hb : bytes.drop offset = recordBytes xxh3 r++rest)
    (hp : r.payload.length < 2^32) (hs : r.seq = expected) :
    replayLoop xxh3 bytes offset expected acc =
      replayLoop xxh3 bytes (offset+(recordBytes xxh3 r).length) (saturatingAdd expected 1)
        (acc++[r]) := by
  have hne : bytes.drop offset ≠ [] := by
    rw [hb]
    simp [recordBytes_ne_nil]
  have hd : decodeRecord xxh3 (bytes.drop offset) = .ok ⟨r,minRecordLen+r.payload.length⟩ := by
    rw [hb]
    exact decodeRecord_recordBytes xxh3 r rest hp
  rw [replayLoop,dif_neg hne]
  split
  · rename_i e he
    rw [hd] at he
    cases he
  · rename_i d he
    rw [hd] at he
    obtain rfl := Except.ok.inj he
    simp only [hs,ne_eq,not_true_eq_false,ite_false,recordBytes_length]

theorem replayLoop_follows (rs : List WalRecord) (bytes : Bytes) (offset : ℕ) (expected : LogSeq)
    (acc : List WalRecord) (rest : Bytes) (hb : bytes.drop offset = framesBytes xxh3 rs++rest)
    (hp : Framable rs) (hf : Follows expected rs) :
    replayLoop xxh3 bytes offset expected acc =
      replayLoop xxh3 bytes (offset+(framesBytes xxh3 rs).length) (expectedAfter expected rs)
        (acc++rs) := by
  induction rs generalizing offset expected acc with
  | nil => simp [expectedAfter]
  | cons r rs ih =>
    obtain ⟨hseq,hrest⟩ := hf
    have hb1 : bytes.drop offset = recordBytes xxh3 r++(framesBytes xxh3 rs++rest) := by
      rw [hb,framesBytes_cons,append_assoc]
    have hb2 : bytes.drop (offset+(recordBytes xxh3 r).length) = framesBytes xxh3 rs++rest := by
      rw [← drop_drop,hb1,drop_left]
    have hps : Framable rs := fun s hs => hp s (mem_cons_of_mem _ hs)
    rw [replayLoop_step xxh3 bytes offset expected acc r _ hb1 (hp r (mem_cons_self ..)) hseq,
      ih _ _ _ hb2 hps hrest]
    simp only [framesBytes_cons,length_append,expectedAfter,append_assoc,
      singleton_append,Nat.add_assoc]

theorem replayLoop_error {bytes : Bytes} {offset : ℕ} {e : RecordError}
    (hne : bytes.drop offset ≠ []) (hd : decodeRecord xxh3 (bytes.drop offset) = .error e)
    (expected : LogSeq) (acc : List WalRecord) :
    replayLoop xxh3 bytes offset expected acc = ⟨acc,.corruptAt offset (.record
      (e.framedLength.elim .tail fun length => successorLocation xxh3 bytes (offset+length))
      e)⟩ := by
  rw [replayLoop,dif_neg hne]
  split
  · rename_i e' he
    rw [hd] at he
    obtain rfl := Except.error.inj he
    rfl
  · rename_i d he
    rw [hd] at he
    cases he

theorem replayLoop_mismatch {bytes : Bytes} {offset : ℕ} {d : DecodedRecord} {expected : LogSeq}
    (hne : bytes.drop offset ≠ []) (hd : decodeRecord xxh3 (bytes.drop offset) = .ok d)
    (hs : d.record.seq ≠ expected) (acc : List WalRecord) :
    replayLoop xxh3 bytes offset expected acc = ⟨acc,.corruptAt offset
      (sequenceReason acc.isEmpty expected d.record.seq
        (successorLocation xxh3 bytes (offset+d.encodedLen)))⟩ := by
  rw [replayLoop,dif_neg hne]
  split
  · rename_i e he
    rw [hd] at he
    cases he
  · rename_i d' he
    rw [hd] at he
    obtain rfl := Except.ok.inj he
    simp only [ne_eq,hs,not_false_eq_true,ite_true]

/-- `rest` does not start with a record carrying sequence `expected`. -/
def StopsAt (expected : LogSeq) (rest : Bytes) : Prop :=
  match decodeRecord xxh3 rest with
  | .error _ => True
  | .ok d => d.record.seq ≠ expected

/-- What the loop returns on any bytes: a run of frames in expected order, then
either the end of the file or a record that stops it. -/
theorem replayLoop_shape (bytes : Bytes) (offset : ℕ) (expected : LogSeq) (acc : List WalRecord) :
    ∃ rs rest,(replayLoop xxh3 bytes offset expected acc).records = acc++rs ∧
      bytes.drop offset = framesBytes xxh3 rs++rest ∧ Framable rs ∧ Follows expected rs ∧
      ((rest = [] ∧ (replayLoop xxh3 bytes offset expected acc).terminator = .cleanEnd) ∨
        (rest ≠ [] ∧ StopsAt xxh3 (expectedAfter expected rs) rest ∧
          ∃ reason,(replayLoop xxh3 bytes offset expected acc).terminator =
            .corruptAt (offset+(framesBytes xxh3 rs).length) reason)) := by
  induction hk : bytes.length-offset using Nat.strong_induction_on
    generalizing offset expected acc with
  | _ k ih =>
    by_cases hne : bytes.drop offset = []
    · rw [replayLoop,dif_pos hne]
      exact ⟨[],[],by simp,by simpa using hne,by simp [Framable],trivial,Or.inl ⟨rfl,rfl⟩⟩
    cases hd : decodeRecord xxh3 (bytes.drop offset) with
    | error e =>
      have hstop : StopsAt xxh3 expected (bytes.drop offset) := by simp only [StopsAt,hd]
      rw [replayLoop_error xxh3 hne hd]
      exact ⟨[],bytes.drop offset,by simp,by simp,by simp [Framable],trivial,
        Or.inr ⟨hne,hstop,_,rfl⟩⟩
    | ok d =>
      obtain ⟨hsplit,hp,hlen,hle⟩ := decodeRecord_ok xxh3 hd
      by_cases hs : d.record.seq = expected
      · have hrl : (recordBytes xxh3 d.record).length = d.encodedLen := by
          rw [recordBytes_length,hlen]
        have hpos : offset < bytes.length := by
          by_contra hcon
          exact hne (drop_eq_nil_of_le (by omega))
        have hk' : bytes.length-(offset+d.encodedLen) < k := by
          simp only [minRecordLen,recordHeaderLen,recordChecksumLen] at hlen
          omega
        obtain ⟨rs,rest,hrec,hbytes,hfr,hfol,hend⟩ :=
          ih _ hk' (offset+d.encodedLen) (saturatingAdd expected 1) (acc++[d.record]) rfl
        have hstep:=replayLoop_step xxh3 bytes offset expected acc d.record _ hsplit hp hs
        rw [hrl] at hstep
        rw [hstep]
        refine ⟨d.record::rs,rest,?_,?_,?_,⟨hs,hfol⟩,?_⟩
        · rw [hrec]
          simp
        · rw [framesBytes_cons,append_assoc,← hbytes,← drop_drop]
          exact hsplit
        · intro r hr
          rcases mem_cons.mp hr with rfl | hr
          · exact hp
          · exact hfr r hr
        · have hoff : offset+(framesBytes xxh3 (d.record::rs)).length =
              offset+d.encodedLen+(framesBytes xxh3 rs).length := by
            rw [framesBytes_cons,length_append,hrl]
            omega
          rw [hoff]
          exact hend
      · have hstop : StopsAt xxh3 expected (bytes.drop offset) := by
          simp only [StopsAt,hd]
          exact hs
        rw [replayLoop_mismatch xxh3 hne hd hs]
        exact ⟨[],bytes.drop offset,by simp,by simp,by simp [Framable],trivial,
          Or.inr ⟨hne,hstop,_,rfl⟩⟩

end Checksum

end Zeppelin.Wal
