import Zeppelin.Ingest.LiveRuns
import Zeppelin.Ingest.LogLives

/-! lifecycle/mod.rs, ingest/active.rs -/

namespace Zeppelin.Ingest
open Fts Wal Machine List

def LiveStore.records (s : LiveStore) : List WalRecord := numbered s.first s.log

structure ActiveState.Resembles (a b : ActiveState) : Prop where
  generation : a.generation = b.generation
  segment : a.segment = { b.segment with lexical := a.segment.lexical }
  postings : ∀ term field,
    a.segment.lexical.postingList term field = b.segment.lexical.postingList term field

section Engine
variable (quantizeBit4 : List U32 → Bytes → Except QuantError (Bytes × Bit4Factors))
  (analyze : String → List Token)
  (pushRow : U64 → List (ColumnId × PredicateValue) → Except String Unit) (xxh3 : Bytes → U64)
  (validateEnvelope : Bytes → Except GraphWalError Unit)
  (generation absorbedThrough graphAbsorbedThrough : U64)

/-- An operation whose records are not all among the first `k`, and the store before it. -/
def Interrupts (first : LogSeq) (operations : List Operation) (k : ℕ) (s : LiveStore) : Prop :=
  ∃ done operation later next,operations = done++operation::later ∧
    Run (liveStep quantizeBit4 analyze pushRow) anyEvent (.start generation first) done s ∧
    liveStep quantizeBit4 analyze pushRow s operation = some next ∧
    s.log.length ≤ k ∧ k < next.log.length

/-- `ActiveState::recover` in a process that opens a log of which `kept` bytes are left. -/
def recover (s : LiveStore) (kept : ℕ) (temporary : Option Bytes) : Option ActiveState :=
  (reopen xxh3 ((headerBytes s.first++framesBytes xxh3 s.records).take kept) temporary).bind
    fun system =>
      (replay quantizeBit4 analyze xxh3 validateEnvelope pushRow generation absorbedThrough
        graphAbsorbedThrough none false system.writer.visible system.writer.nextSeq []).toOption.map
        RecoveredState.active

variable {quantizeBit4 analyze pushRow xxh3 validateEnvelope}
  {generation absorbedThrough graphAbsorbedThrough} {s next : LiveStore} {log : List Appended}
  {r r' : ReplayState} {texts texts' : List (Option String)} {a : Appended} {first : LogSeq}
  {operations : List Operation}

theorem recoveredFrom_frames (front : Bytes) (records : List WalRecord) :
    recoveredFrom (front++framesBytes xxh3 records) front.length records =
      records.map (showRecord xxh3) := by
  induction records generalizing front with
  | nil => rfl
  | cons r records ih =>
    have hrest:=ih (front++recordBytes xxh3 r)
    rw [length_append,recordBytes_length,append_assoc] at hrest
    have hframe : Wal.segment (front++(recordBytes xxh3 r++framesBytes xxh3 records)) front.length
        (front.length+(minRecordLen+r.payload.length)) = recordBytes xxh3 r := by
      rw [Wal.segment,drop_left,Nat.add_sub_cancel_left,← recordBytes_length xxh3 r,take_left]
    rw [framesBytes_cons,recoveredFrom,hrest,hframe]
    rfl

/-- A crash while a batch was written. -/
theorem LiveInv.interrupted
    (h : LiveInv quantizeBit4 analyze pushRow validateEnvelope generation s log r texts)
    (hnext : LiveInv quantizeBit4 analyze pushRow validateEnvelope generation next (log++[a]) r'
      texts') (hfirst : next.first = s.first) {p : ℕ} (hp : s.log.length+p < next.log.length) :
    LiveInv quantizeBit4 analyze pushRow validateEnvelope generation
      { s with log := next.log.take (s.log.length+p) } (log++[{ a with present := p }]) r
      texts := by
  have hwhole : next.log = s.log++a.records := by
    rw [← hnext.records,logRecords_append,h.records,logRecords,flatMap_singleton]
  have hvalid:=hnext.valid.append.2.1
  rw [← h.valid.records_length,hfirst] at hvalid
  have hlength:=hvalid.records_length
  have hpresent:=hvalid.present_le
  rw [hwhole,length_append,hlength] at hp
  have hrecords : logRecords (log++[{ a with present := p }]) =
      next.log.take (s.log.length+p) := by
    rw [logRecords_append,h.records,logRecords,flatMap_singleton,hwhole,take_length_add_append,
      Appended.records,Appended.records,take_take,Nat.min_eq_left (by omega)]
  have hbatches : liveBatches s.first (log++[{ a with present := p }]) =
      liveBatches s.first log := by
    rw [liveBatches,expectedBatches_append,expectedBatches,if_neg (by dsimp only; omega)]
    exact append_nil _
  have hroom:=hnext.room
  rw [hfirst] at hroom
  refine ⟨hrecords,h.valid.concat ⟨hvalid.frames,hvalid.decodes,hvalid.nonempty,
    hvalid.countable,by dsimp only; omega,fun b ms hb => ⟨(hvalid.binding b ms hb).1,.inl rfl⟩⟩,
    ?_,?_,fun f hf => hnext.ops f (mem_of_mem_take hf),?_,?_,?_,?_,h.trails,h.sound⟩
  · intro f hf
    rw [hrecords] at hf
    exact hnext.fits f (hnext.records ▸ mem_of_mem_take hf)
  · exact (Nat.add_le_add_left (length_take_le' _ _) _).trans_lt hroom
  · rw [hbatches]
    exact h.generation
  · rw [hbatches]
    exact h.replayable
  · rw [liveSteps,hbatches]
    exact h.documents
  · rw [liveSteps,hbatches]
    exact h.replays

variable (xxh3) in
theorem LiveInv.reopens
    (h : LiveInv quantizeBit4 analyze pushRow validateEnvelope generation s log r texts)
    (hfirst : 0 < s.first.toNat)
    (hfits : ∀ record ∈ s.log,minRecordLen+record.2.length ≤ defaultMaxGroupBytesDurable)
    {kept : ℕ} (hkept : walHeaderLen ≤ kept) (temporary : Option Bytes) :
    ∃ system,∃ k ≤ s.log.length,
      reopen xxh3 ((headerBytes s.first++framesBytes xxh3 s.records).take kept) temporary =
        some system ∧
      (k < s.log.length → kept < boundary xxh3 s.records (k+1)) ∧
      system.writer.visible = (numbered s.first (s.log.take k)).map (showRecord xxh3) ∧
      system.writer.nextSeq = s.first+BitVec.ofNat 64 k := by
  have hlength : s.records.length = s.log.length := numbered_length ..
  have hroom:=h.room
  have hframable : Framable s.records := framable_numbered fun f hf => h.fits f (h.records ▸ hf)
  have hordered : Consecutive s.first s.records := consecutive_numbered h.room.le
  obtain ⟨system,hsystem,hopened⟩ := reopen_take hfirst hordered hframable (by omega)
    (fun record hrecord => hfits _ (numbered_range hrecord h.room.le).2.2)
    (le_min hkept (by rw [length_append,headerBytes_length]; omega)) (min_le_right kept _)
    smallBound temporary
  rw [← take_eq_take_min] at hsystem
  obtain ⟨k,hk,hstaged,hmore⟩ := hopened.staged
  rw [LiveStore.records,numbered_take] at hstaged
  refine ⟨system,k,by omega,hsystem,fun hlt => ?_,?_,?_⟩
  · have hnext:=hmore (by omega)
    have hmono:=boundary_mono xxh3 s.records (show k+1 ≤ s.records.length by omega)
    have hall : _ = (headerBytes s.first++framesBytes xxh3 s.records).length := boundary_all _
    omega
  · rw [hopened.visible,hopened.file,← headerBytes_length s.first,recoveredFrom_frames,hstaged]
  · obtain ⟨whole,inflight,hflow⟩ := hopened.durable
    have hnext:=hflow.next
    rw [hstaged,numbered_length,length_take,Nat.min_eq_left (by omega)] at hnext
    exact BitVec.eq_of_toNat_eq (hnext.trans (add_ofNat_toNat (by omega)).symm)

variable (validateEnvelope)

theorem run_live
    (run : Run (liveStep quantizeBit4 analyze pushRow) anyEvent (.start generation first) operations
      s) :
    s.first = first ∧ ∃ log r texts,
      LiveInv quantizeBit4 analyze pushRow validateEnvelope generation s log r texts := by
  induction run with
  | refl => exact ⟨rfl,[],_,[],.start ..⟩
  | snoc _ _ hstep ih =>
    obtain ⟨hfirst,log,r,texts,hlive⟩ := ih
    obtain ⟨hsame,hnext⟩ := liveStep_inv hlive hstep
    exact ⟨hsame.trans hfirst,hnext⟩

theorem run_cut
    (run : Run (liveStep quantizeBit4 analyze pushRow) anyEvent (.start generation first) operations
      s) {k : ℕ} (hk : k ≤ s.log.length) :
    ∃ middle log r texts,middle.first = first ∧
      LiveInv quantizeBit4 analyze pushRow validateEnvelope generation
        { middle with log := s.log.take k } log r texts ∧
      (k = s.log.length ∧ middle = s ∨ k < s.log.length ∧
        Interrupts quantizeBit4 analyze pushRow generation first operations k middle) := by
  induction run with
  | refl =>
    obtain rfl := Nat.le_zero.mp hk
    exact ⟨_,[],_,[],rfl,.start ..,.inl ⟨rfl,rfl⟩⟩
  | @snoc s next operations operation run _ hstep ih =>
    obtain ⟨hsame,log,r,texts,hlive⟩ := run_live validateEnvelope run
    obtain ⟨hfirst,added,r',texts',hnext⟩ := liveStep_added hlive hstep
    have hlog : next.log = s.log++logRecords added.toList := by
      rw [← hnext.records,logRecords_append,hlive.records]
    rcases hk.lt_or_eq with hk | rfl
    · rcases lt_or_ge k s.log.length with hlt | hge
      · obtain ⟨middle,log',r',texts',hmiddle,hcut,⟨heq,-⟩ | ⟨-,hinterrupts⟩⟩ := ih hlt.le
        · omega
        · obtain ⟨done,operation',later,next',rfl,hrest⟩ := hinterrupts
          refine ⟨middle,log',r',texts',hmiddle,?_,.inr ⟨hk,done,operation',
            later++[operation],next',by simp,hrest⟩⟩
          rwa [hlog,take_append_of_le_length hlt.le]
      · cases added with
        | none =>
          rw [hlog,Option.toList_none] at hk
          exact absurd hge (by simpa [logRecords] using hk)
        | some a =>
          -- the cut lies in the batch of this operation
          obtain ⟨p,rfl⟩ := Nat.exists_eq_add_of_le hge
          exact ⟨s,_,r,texts,hsame,hlive.interrupted hnext hfirst hk,
            .inr ⟨hk,operations,operation,[],next,rfl,run,hstep,hge,hk⟩⟩
    · exact ⟨next,_,r',texts',hfirst.trans hsame,by rwa [take_length],.inl ⟨rfl,rfl⟩⟩

/-- Whatever the log of a store is cut to behind its header, the next process opens it, and its state
is the one before the first operation that lost a record. -/
theorem recover_cut (hdoc : absorbedThrough < first) (hgraph : graphAbsorbedThrough < first)
    (run : Run (liveStep quantizeBit4 analyze pushRow) anyEvent (.start generation first) operations
      s) (hfits : ∀ record ∈ s.log,minRecordLen+record.2.length ≤ defaultMaxGroupBytesDurable)
    {kept : ℕ} (hkept : walHeaderLen ≤ kept) (temporary : Option Bytes) :
    ∃ recovered middle,
      recover quantizeBit4 analyze pushRow xxh3 validateEnvelope generation absorbedThrough
        graphAbsorbedThrough s kept temporary = some recovered ∧
      recovered.Resembles middle.active ∧
      (middle = s ∨ ∃ k,kept < boundary xxh3 s.records (k+1) ∧
        Interrupts quantizeBit4 analyze pushRow generation first operations k middle) := by
  obtain ⟨hsame,log,r,texts,hlive⟩ := run_live validateEnvelope run
  have hpos:=BitVec.lt_def.mp hdoc
  obtain ⟨system,k,hk,hreopen,hmore,hvisible,hseq⟩ :=
    hlive.reopens xxh3 (by rw [hsame]; omega) hfits hkept temporary
  obtain ⟨middle,log',r',texts',hmiddle,hcut,hwhere⟩ := run_cut validateEnvelope run hk
  have hfirst:=hmiddle.trans hsame.symm
  rw [← hmiddle] at hdoc hgraph
  obtain ⟨recovered,lexical,hreplay,hactive,hpostings⟩ := hcut.replays_live xxh3 hdoc hgraph
  rw [LiveStore.nextSeq,length_take,Nat.min_eq_left hk,hfirst,← hvisible,← hseq] at hreplay
  refine ⟨recovered.active,middle,?_,?_,?_⟩
  · rw [recover,hreopen,Option.bind_some,hreplay]
    rfl
  · rw [hactive]
    exact ⟨rfl,rfl,hpostings⟩
  · rcases hwhere with ⟨-,hwhole⟩ | ⟨hlt,hinterrupts⟩
    · exact .inl hwhole
    · exact .inr ⟨k,hmore hlt,hinterrupts⟩

end Engine

theorem recover_revisedTwice : ∃ s : LiveStore,s.log.length = 5 ∧ ∀ kept,walHeaderLen ≤ kept →
    ∃ recovered,∃ middle : LiveStore,recover quantizeZero (fun _ => []) (fun _ _ => .ok ())
        (fun _ => 0) (fun _ => .ok ()) 1 0 0 s kept none = some recovered ∧
      recovered.Resembles middle.active := by
  have hsome : (execute (liveStep quantizeZero (fun _ => []) fun _ _ => .ok ()) anyEvent
      (.start 1 1) revisedTwice).map (fun s => (s.log.length,s.log.all fun record =>
        minRecordLen+record.2.length ≤ 16777216)) = some (5,true) := by decide +kernel
  obtain ⟨s,hs,hrows⟩ := Option.map_eq_some_iff.mp hsome
  obtain ⟨hlength,hfits⟩ := Prod.mk.inj hrows
  have hlt : (0 : U64) < 1 := by decide
  exact ⟨s,hlength,fun kept hkept => (recover_cut _ hlt hlt (Run.of_execute hs)
    (fun record hrecord => of_decide_eq_true (all_eq_true.mp hfits record hrecord)) hkept none).imp
      fun _ h => h.imp fun _ h => ⟨h.1,h.2.1⟩⟩

end Zeppelin.Ingest
