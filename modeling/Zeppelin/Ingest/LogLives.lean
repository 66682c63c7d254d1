import Zeppelin.Ingest.TornTail
import Zeppelin.Wal.Durability

/-! wal/mod.rs, ingest/atomic_batch.rs, lifecycle/mod.rs -/

namespace Zeppelin.Ingest
open Wal Machine List

/-- `synced` is the length of the file when the last group completed, or when it was opened. -/
structure Life where
  system : System
  synced : ℕ

inductive LifeEvent where
  | live (event : Event)
  | crash (kept : ℕ) (temporary : Option Bytes)

def completes (after : System) : Event → Bool
  | .complete _ => after.writer.failure.isNone
  | _ => false

/-- The recovered records of `WalReader::open`, with their own bytes. -/
def recoveredFrom (bytes : Bytes) : ℕ → List WalRecord → List VisibleRecord
  | _,[] => []
  | offset,record::records =>
    let stop:=offset+(minRecordLen+record.payload.length)
    let encoded:=segment bytes offset stop
    ⟨record.seq,record.op,encoded,0,encoded.length⟩::recoveredFrom bytes stop records

section Checksum
variable (xxh3 : Bytes → U64) (bound : GroupBound)

/-- `cut_interrupted_append`, `WalReader::open`, `into_clean` and `WalWriter::resume` in turn. -/
def reopen (bytes : Bytes) (temporary : Option Bytes) : Option System :=
  match (cutInterruptedAppend xxh3 (Vfs.healthy Unit)).run ⟨some bytes,temporary⟩ with
  | (.ok _,⟨some file,_⟩) =>
    match (WalReader.open xxh3 file).intoClean with
    | .ok clean => some (resumed file clean.records clean.nextSeq (some clean.durableEnd)
        (recoveredFrom file walHeaderLen clean.records))
    | .error _ => none
  | _ => none

/-- A crash leaves the file cut somewhere, and the next process opens what is left. -/
def lifeStep (life : Life) : LifeEvent → Option Life
  | .live event => (step xxh3 bound life.system event).map fun after =>
    ⟨after,if completes after event then after.file.length else life.synced⟩
  | .crash kept temporary => (reopen xxh3 (life.system.file.take kept) temporary).map fun after =>
    ⟨after,after.file.length⟩

/-- What was synchronised survives. -/
def Survivable (life : Life) : LifeEvent → Prop
  | .live event => FramesRecords xxh3 life.system event
  | .crash kept _ => life.synced ≤ kept

structure Grows (s : System) (event : Event) (t : System) : Prop where
  staged : ∃ new,t.staged = s.staged++new ∧
    ∀ r ∈ new,minRecordLen+r.payload.length ≤ bound.bytes
  file : s.file.length ≤ t.file.length
  durableEnd : completes t event = true ∨ t.writer.durableEnd = s.writer.durableEnd

variable {xxh3 bound} {first : LogSeq} {s t : System}

theorem Grows.same {event : Event} (hstaged : t.staged = s.staged) (hfile : t.file = s.file)
    (hend : t.writer.durableEnd = s.writer.durableEnd) : Grows bound s event t where
  staged := ⟨[],by rw [hstaged,append_nil],by simp⟩
  file := (congrArg length hfile).ge
  durableEnd := .inr hend

theorem stage_grows {op : U16} {payload : Bytes}
    (hstep : step xxh3 bound s (.stage op payload) = some t) :
    Grows bound s (.stage op payload) t := by
  have hend:=(ensurePendingGroup_fields s.writer).2.2.2.1
  cases hs : stage xxh3 bound op payload s.writer with
  | mk out w =>
    simp only [step,hs] at hstep
    rcases stage_cases xxh3 bound hs with ⟨e,rfl,rfl⟩ | ⟨e,rfl,-,rfl,-⟩ | ⟨rfl,rfl⟩ |
      ⟨rfl,front,g,hsucc⟩
    · rw [← Option.some.inj hstep]
      exact .same rfl rfl rfl
    · rw [← Option.some.inj hstep]
      exact .same rfl rfl hend
    · rw [← Option.some.inj hstep]
      exact .same rfl rfl rfl
    · rw [← Option.some.inj hstep]
      refine ⟨⟨_,rfl,?_⟩,le_rfl,.inr ?_⟩
      · intro r hr
        rw [mem_singleton.mp hr]
        exact (Nat.le_add_left _ _).trans hsucc.fits
      · rw [hsucc.result]
        exact hend

theorem stageMany_grows {records : List (U16 × Bytes)} (h : Durable xxh3 bound first s)
    (hstep : step xxh3 bound s (.stageMany (appendEncoder xxh3) records) = some t) :
    Grows bound s (.stageMany (appendEncoder xxh3) records) t := by
  obtain ⟨whole,inflight,h⟩ := h
  have hend:=(ensurePendingGroup_fields s.writer).2.2.2.1
  cases hs : stageManyWithEncoder bound (appendEncoder xxh3) records s.writer with
  | mk out w =>
    simp only [step,hs] at hstep
    rcases stageMany_cases bound hs with ⟨e,rfl,rfl⟩ | ⟨e,rfl,-,rfl,-⟩ |
      ⟨rfl,rfl,rfl,-⟩ | ⟨e,encoded,-,hchk,hsplit⟩ |
      ⟨encoded,cur,mid,leader,rfl,-,hsucc⟩
    · rw [← Option.some.inj hstep]
      exact .same rfl rfl rfl
    · rw [← Option.some.inj hstep]
      exact .same rfl rfl hend
    · rw [← Option.some.inj hstep]
      exact .same (append_nil _) rfl rfl
    · obtain ⟨cur',mid,hrun,-⟩ := h.split hchk
      rw [hrun] at hsplit
      cases hsplit
    · obtain ⟨cur',mid',hrun,-,hext⟩ := h.split hsucc.toStageManyChecked
      rw [hsucc.split,Prod.mk.injEq,Except.ok.injEq] at hrun
      obtain ⟨rfl,rfl⟩ := hrun
      rw [← Option.some.inj hstep]
      refine ⟨⟨_,rfl,?_⟩,le_rfl,.inr (hext w hsucc.result).durableEnd⟩
      intro r hr
      exact hsucc.bounded _ (numbered_range hr hsucc.room.le).2.2

theorem flush_durableEnd (st : WriterState) : (flush st).2.durableEnd = st.durableEnd := by
  rcases flush_cases (Prod.mk.eta (p := flush st)).symm with ⟨hsame,-⟩ | ⟨-,-,-,-,hst,-⟩
  · rw [hsame]
  · rw [hst]

theorem popGroup_durableEnd (st : WriterState) : (popGroup st).2.durableEnd = st.durableEnd := by
  unfold popGroup
  split
  · rfl
  · dsimp only
    split
    · rfl
    · rfl

theorem step_grows {event : Event} (h : Durable xxh3 bound first s)
    (hok : FramesRecords xxh3 s event) (hstep : step xxh3 bound s event = some t) :
    Grows bound s event t := by
  have hflush:=flush_durableEnd s.writer
  have hpop:=popGroup_durableEnd s.writer
  cases event with
  | stage op payload => exact stage_grows hstep
  | stageMany encode records =>
    obtain rfl : encode = appendEncoder xxh3 := hok
    exact stageMany_grows h hstep
  | flush =>
    rw [step] at hstep
    split at hstep
    all_goals
      rename_i hs
      rw [hs] at hflush
      rw [← Option.some.inj hstep]
      exact .same rfl rfl hflush
  | pop i =>
    rw [step] at hstep
    split at hstep
    · split at hstep
      all_goals
        rename_i hs
        rw [hs] at hpop
        rw [← Option.some.inj hstep]
        exact .same rfl rfl hpop
    · cases hstep
  | write i fault =>
    rw [step] at hstep
    split at hstep
    · rw [← Option.some.inj hstep]
      refine ⟨⟨[],(append_nil _).symm,by simp⟩,?_,.inr rfl⟩
      rw [length_append]
      exact Nat.le_add_right _ _
    · cases hstep
  | complete i =>
    obtain ⟨whole,inflight,h⟩ := h
    rw [step] at hstep
    split at hstep
    · rename_i g l failure hi
      have halive:=(h.leader hi).2.2.1
      unfold completeGroup at hstep
      cases failure with
      | none =>
        dsimp only at hstep
        split_ifs at hstep
        all_goals
          rw [← Option.some.inj hstep]
          exact ⟨⟨[],(append_nil _).symm,by simp⟩,le_rfl,.inl (by rw [completes,halive]; rfl)⟩
      | some f =>
        rw [← Option.some.inj hstep]
        exact .same rfl rfl rfl
    · cases hstep

variable {records : List WalRecord}

theorem numbered_frames (h : Consecutive first records) :
    numbered first (records.map fun r => (r.op,r.payload)) = records := by
  induction records generalizing first with
  | nil => rfl
  | cons r rest ih =>
    obtain ⟨hseq,hrest⟩ := consecutive_cons.mp h
    have htail : Consecutive (first+1) rest := by
      intro i q hq
      have hnext:=hrest i q hq
      have hlt:=q.seq.isLt
      rw [toNat_add_one (by omega)]
      exact hnext
    rw [map_cons,numbered,ih htail,← hseq]

variable (xxh3) in
theorem encodeWalImage_frames (h : Consecutive first records) (hframable : Framable records)
    (hroom : first.toNat+records.length < 2^64) :
    encodeWalImage xxh3 first (records.map fun r => (r.op,r.payload)) =
      .ok (headerBytes first++framesBytes xxh3 records) := by
  have hsame:=numbered_frames h
  rw [encodeWalImage,encodeHeader_eq]
  dsimp only
  rw [appendImage_eq xxh3 _ (by rw [hsame]; exact hframable) (by rw [length_map]; exact hroom),hsame]

theorem consecutive_take (h : Consecutive first records) (k : ℕ) :
    Consecutive first (records.take k) := by
  intro i r hr
  rw [getElem?_take] at hr
  split_ifs at hr
  exact h i r hr

theorem boundary_all (records : List WalRecord) :
    boundary xxh3 records records.length =
      (headerBytes first++framesBytes xxh3 records).length := by
  rw [boundary,take_length,length_append,headerBytes_length]

variable (xxh3) in
/-- A whole log opens clean, with the sequence behind its last record. -/
theorem open_whole (hfirst : 0 < first.toNat) (h : Consecutive first records)
    (hframable : Framable records) (hroom : first.toNat+records.length < 2^64) :
    ∃ clean,(WalReader.open xxh3 (headerBytes first++framesBytes xxh3 records)).intoClean =
        .ok clean ∧ clean.records = records ∧
      clean.nextSeq.toNat = first.toNat+records.length ∧
      Covers xxh3 first records clean.durableEnd
        (headerBytes first++framesBytes xxh3 records).length := by
  have hreplay:=replay_whole xxh3 first records records.length hframable h
  rw [take_length] at hreplay
  rw [WalReader.open,decodeHeader_headerBytes]
  dsimp only
  rw [hreplay]
  refine ⟨_,rfl,rfl,?_⟩
  dsimp only
  rcases eq_nil_or_concat' records with rfl | ⟨front,r,rfl⟩
  · have hzero : ¬ first = 0 := by
      rintro rfl
      exact absurd hfirst (by decide)
    refine ⟨rfl,0,le_rfl,?_,?_⟩
    · rw [getLast?_nil,Option.elim_none,if_neg hzero,BitVec.toNat_sub,toNat_one_64]
      have hlt:=first.isLt
      omega
    · exact (boundary_all []).le
  · have hseq : r.seq.toNat = first.toNat+front.length := h front.length r (by simp)
    rw [length_append,length_singleton] at hroom ⊢
    rw [getLast?_append,getLast?_singleton,Option.some_or,Option.elim_some,Option.elim_some,
      saturatingAdd_one (by omega),toNat_add_one (by omega)]
    refine ⟨by omega,front.length+1,?_,by omega,?_⟩
    · rw [length_append,length_singleton]
    · rw [← boundary_all,length_append,length_singleton]

/-- A writer that resumes over a whole log. -/
theorem resumed_durable {nextSeq durableEnd : LogSeq} (h : Consecutive first records)
    (hframable : Framable records) (hnext : nextSeq.toNat = first.toNat+records.length)
    (hend : Covers xxh3 first records durableEnd
      (headerBytes first++framesBytes xxh3 records).length) (visible : List VisibleRecord) :
    Durable xxh3 bound first (resumed (headerBytes first++framesBytes xxh3 records) records nextSeq
      (some durableEnd) visible) := by
  refine ⟨headerBytes first++framesBytes xxh3 records,[],hnext,h,hframable,rfl,?_,trivial,
    prefix_rfl,?_,.idle rfl rfl rfl rfl rfl (.inl rfl)⟩
  · rw [append_nil]
    exact append_nil _
  · intro d hd
    rw [← Option.some.inj hd]
    exact hend

/-- What a process finds after a crash that left the header. -/
structure Reopened (xxh3 : Bytes → U64) (bound : GroupBound) (first : LogSeq)
    (staged : List WalRecord) (size : ℕ) (s : System) : Prop where
  durable : Durable xxh3 bound first s
  staged : ∃ k ≤ staged.length,s.staged = staged.take k ∧
    (k < staged.length → size < boundary xxh3 staged (k+1))
  file : s.file = headerBytes first++framesBytes xxh3 s.staged
  visible : s.writer.visible = recoveredFrom s.file walHeaderLen s.staged

theorem reopen_take (hfirst : 0 < first.toNat) (h : Consecutive first records)
    (hframable : Framable records) (hroom : first.toNat+records.length < 2^64)
    (hfits : ∀ r ∈ records,minRecordLen+r.payload.length ≤ defaultMaxGroupBytesDurable)
    {size : ℕ} (hlo : walHeaderLen ≤ size)
    (hhi : size ≤ (headerBytes first++framesBytes xxh3 records).length)
    (bound : GroupBound) (temporary : Option Bytes) :
    ∃ s,reopen xxh3 ((headerBytes first++framesBytes xxh3 records).take size) temporary = some s ∧
      Reopened xxh3 bound first records size s := by
  have himage:=encodeWalImage_frames xxh3 h hframable hroom
  have hsame:=numbered_frames h
  obtain ⟨k,hk,hcase⟩ := truncated_cases xxh3 himage hlo hhi
  rw [length_map] at hk
  rw [hsame] at hcase
  have hinitial:=consecutive_take h k
  have hlength : (records.take k).length = k := by
    rw [length_take,Nat.min_eq_left hk]
  obtain ⟨clean, hclean,hrecords,hnext,hend⟩ := open_whole xxh3 hfirst hinitial
    (fun r hr => hframable r (mem_of_mem_take hr)) (by omega)
  have hrun : ∃ cut left,(cutInterruptedAppend xxh3 (Vfs.healthy Unit)).run
      ⟨some ((headerBytes first++framesBytes xxh3 records).take size),temporary⟩ =
        (.ok cut,⟨some (headerBytes first++framesBytes xxh3 (records.take k)),left⟩) ∧
      (k < records.length → size < boundary xxh3 records (k+1)) := by
    rcases hcase with ⟨hn,htake⟩ | ⟨r,j,hr,hpos,hj,hn,htake⟩
    · obtain ⟨-,hnone,-⟩ := torn_nowhere xxh3 himage k rfl
      rw [hsame] at hnone
      refine ⟨false,temporary,?_,?_⟩
      · rw [htake]
        exact cut_healthy_none xxh3 hnone
      · intro hlt
        rw [hn]
        exact boundary_lt_succ xxh3 _ k hlt
    · have hgroup : ∀ frame ∈ records.map fun r => (r.op,r.payload),
          minRecordLen+frame.2.length ≤ defaultMaxGroupBytesDurable := by
        intro frame hframe
        obtain ⟨q,hq,rfl⟩ := mem_map.mp hframe
        exact hfits q hq
      have hinside:=torn_inside xxh3 himage hgroup (by rw [hsame]; exact hr) hpos hj rfl
      rw [hsame,← htake] at hinside
      have hheader : ((headerBytes first++framesBytes xxh3 records).take size).take
          walHeaderLen = headerBytes first := by
        rw [htake]
        exact take_left' (headerBytes_length first)
      refine ⟨true,none,?_,?_⟩
      · rw [hinside.cut_run xxh3,hheader]
      · intro _
        rw [boundary_succ xxh3 _ k r hr]
        omega
  obtain ⟨cut,left,hcut,hnextRecord⟩ := hrun
  refine ⟨resumed (headerBytes first++framesBytes xxh3 (records.take k)) (records.take k)
    clean.nextSeq (some clean.durableEnd) (recoveredFrom (headerBytes first++
      framesBytes xxh3 (records.take k)) walHeaderLen (records.take k)),?_,?_,⟨k,hk,rfl,
    hnextRecord⟩,rfl,rfl⟩
  · rw [reopen,hcut]
    dsimp only
    rw [hclean]
    dsimp only
    rw [hrecords]
  · exact resumed_durable hinitial (fun r hr => hframable r (mem_of_mem_take hr)) hnext hend _

variable (xxh3 bound) in
structure Sound (first : LogSeq) (life : Life) : Prop where
  durable : Durable xxh3 bound first life.system
  fits : ∀ r ∈ life.system.staged,minRecordLen+r.payload.length ≤ bound.bytes
  within : life.synced ≤ life.system.file.length
  ends : ∀ d,life.system.writer.durableEnd = some d →
    Covers xxh3 first life.system.staged d life.synced

variable (xxh3) in
/-- Records that are synchronised stay the first of the log. -/
structure Keeps (promised : List WalRecord) (life : Life) : Prop where
  initial : promised <+: life.system.staged
  reached : boundary xxh3 life.system.staged promised.length ≤ life.synced

variable {life after : Life}

theorem live_sound {event : Event} (h : Sound xxh3 bound first life)
    (hok : FramesRecords xxh3 life.system event)
    (hstep : lifeStep xxh3 bound life (.live event) = some after) :
    Sound xxh3 bound first after ∧ life.synced ≤ after.synced ∧
      life.system.staged <+: after.system.staged := by
  obtain ⟨t,ht,rfl⟩ := Option.map_eq_some_iff.mp hstep
  obtain ⟨⟨new,hnew,hfits⟩,hfile,hend⟩ := step_grows h.durable hok ht
  have hdurable:=step_durable h.durable hok ht
  have hwithin:=h.within
  have hsynced : life.synced ≤ (if completes t event then t.file.length else life.synced) ∧
      (if completes t event then t.file.length else life.synced) ≤ t.file.length := by
    split_ifs
    · exact ⟨by omega,le_rfl⟩
    · exact ⟨le_rfl,by omega⟩
  refine ⟨⟨hdurable,?_,hsynced.2,?_⟩,hsynced.1,⟨new,hnew.symm⟩⟩
  · intro r hr
    rw [hnew] at hr
    rcases mem_append.mp hr with hr | hr
    · exact h.fits r hr
    · exact hfits r hr
  · intro d hd
    rcases hend with hcomplete | hsame
    · rw [if_pos hcomplete]
      obtain ⟨whole,inflight,hflow⟩ := hdurable
      exact hflow.durable d hd
    · rw [hsame] at hd
      dsimp only
      rw [hnew]
      exact ((h.ends d hd).append new).mono hsynced.1

/-- The first process to open the log after a crash finds all that was synchronised, and no more
than was staged. -/
theorem crash_reopens (hfirst : 0 < first.toNat)
    (hbound : bound.bytes ≤ defaultMaxGroupBytesDurable) (h : Sound xxh3 bound first life)
    {kept : ℕ} (hkept : life.synced ≤ kept)
    (hheader : walHeaderLen ≤ (life.system.file.take kept).length) (temporary : Option Bytes) :
    ∃ s,reopen xxh3 (life.system.file.take kept) temporary = some s ∧
      s.staged <+: life.system.staged ∧
      s.file = headerBytes first++framesBytes xxh3 s.staged ∧
      (∀ k ≤ life.system.staged.length,boundary xxh3 life.system.staged k ≤ life.synced →
        k ≤ s.staged.length) ∧
      Sound xxh3 bound first ⟨s,s.file.length⟩ := by
  obtain ⟨whole,inflight,hflow⟩ := h.durable
  have himage : life.system.file <+: headerBytes first++framesBytes xxh3 life.system.staged := by
    rw [← hflow.image,append_assoc]
    exact hflow.written.trans (prefix_append _ _)
  have hroom:=hflow.next.symm.trans_lt life.system.writer.nextSeq.isLt
  have hinitial:=( take_prefix kept life.system.file).trans himage
  have htake:=prefix_iff_eq_take.mp hinitial
  obtain ⟨s,hs,hopened⟩ := reopen_take hfirst hflow.ordered hflow.framable hroom
    (fun r hr => (h.fits r hr).trans hbound) hheader hinitial.length_le bound temporary
  rw [← htake] at hs
  obtain ⟨k,hk,hstaged,hnext⟩ := hopened.staged
  have hlength : s.staged.length = k := by
    rw [hstaged,length_take,Nat.min_eq_left hk]
  have hbefore : s.staged <+: life.system.staged := by
    rw [hstaged]
    exact take_prefix _ _
  refine ⟨s,hs,hbefore,hopened.file,?_,⟨hopened.durable,?_,le_rfl,?_⟩⟩
  · intro j hj hreached
    by_contra hlt
    have hbeyond:=hnext (by omega)
    have hmono:=boundary_mono xxh3 life.system.staged (show k+1 ≤ j by omega)
    have hwithin:=h.within
    rw [length_take] at hbeyond
    omega
  · intro r hr
    exact h.fits r (hbefore.subset hr)
  · intro d hd
    obtain ⟨whole',inflight',hflow'⟩ := hopened.durable
    exact hflow'.durable d hd

theorem reopen_header {bytes : Bytes} {temporary : Option Bytes}
    (h : reopen xxh3 bytes temporary = some s) : walHeaderLen ≤ bytes.length := by
  cases hheader : decodeHeader bytes with
  | ok header => exact decodeHeader_ok_length hheader
  | error e =>
    have hreplay : Wal.replay xxh3 bytes = ⟨[],.invalidHeader e⟩ := by
      rw [Wal.replay,hheader]
    have hnone : interruptedAt xxh3 bytes = none := by
      rw [interruptedAt,hreplay]
    rw [reopen,cut_healthy_none xxh3 hnone] at h
    dsimp only at h
    rw [WalReader.open,hheader] at h
    cases h

theorem life_sound (hfirst : 0 < first.toNat) (hbound : bound.bytes ≤ defaultMaxGroupBytesDurable)
    {event : LifeEvent} (h : Sound xxh3 bound first life) (hok : Survivable xxh3 life event)
    (hstep : lifeStep xxh3 bound life event = some after) :
    Sound xxh3 bound first after ∧
      ∀ promised,Keeps xxh3 promised life → Keeps xxh3 promised after := by
  cases event with
  | live event =>
    obtain ⟨hsound,hsynced,new,hnew⟩ := live_sound h hok hstep
    refine ⟨hsound,fun promised hpromised => ⟨hpromised.initial.trans ⟨new,hnew⟩,?_⟩⟩
    rw [← hnew,boundary_append xxh3 _ _ hpromised.initial.length_le]
    exact hpromised.reached.trans hsynced
  | crash kept temporary =>
    obtain ⟨t,ht,rfl⟩ := Option.map_eq_some_iff.mp hstep
    obtain ⟨s,hs,hbefore,hfile,hlong,hsound⟩ := crash_reopens hfirst hbound h hok
      (reopen_header ht) temporary
    obtain rfl := Option.some.inj (hs.symm.trans ht)
    refine ⟨hsound,fun promised hpromised => ?_⟩
    have hlength:=hlong _ hpromised.initial.length_le hpromised.reached
    refine ⟨prefix_of_prefix_length_le hpromised.initial hbefore hlength,?_⟩
    dsimp only
    rw [hfile,← boundary_all]
    exact boundary_mono xxh3 _ hlength

theorem created_sound (first : LogSeq) : Sound xxh3 bound first ⟨created first,0⟩ where
  durable := created_durable xxh3 bound first
  fits := fun _ hr => absurd hr not_mem_nil
  within := le_rfl
  ends := fun _ hd => absurd hd (by simp [created,createState])

/-- Over any number of lives with write failures and crashes, a record that was once durable stays in
the log at its place, and the next process opens the log whatever a crash leaves behind what is
synchronised. -/
theorem lives_keep_durable {life after : Life} {es later : List LifeEvent} {d : LogSeq}
    (hfirst : 0 < first.toNat) (hbound : bound.bytes ≤ defaultMaxGroupBytesDurable)
    (before : Run (lifeStep xxh3 bound) (Survivable xxh3) ⟨created first,0⟩ es life)
    (hend : life.system.writer.durableEnd = some d)
    (onward : Run (lifeStep xxh3 bound) (Survivable xxh3) life later after) :
    ∃ k ≤ life.system.staged.length,d.toNat+1 = first.toNat+k ∧
      life.system.staged.take k <+: after.system.staged ∧
      ∀ kept temporary,after.synced ≤ kept →
        ∃ s,reopen xxh3 (after.system.file.take kept) temporary = some s ∧
          life.system.staged.take k <+: s.staged ∧ s.staged <+: after.system.staged ∧
          s.file = headerBytes first++framesBytes xxh3 s.staged ∧
          s.writer.nextSeq.toNat = first.toNat+s.staged.length := by
  have hsound : Sound xxh3 bound first life :=
    before.invariant _ (created_sound first) fun _ _ _ h hok hstep =>
      (life_sound hfirst hbound h hok hstep).1
  obtain ⟨k,hk,hdk,hcovered⟩ := hsound.ends d hend
  have hlength : (life.system.staged.take k).length = k := by
    rw [length_take,Nat.min_eq_left hk]
  have hkept : Sound xxh3 bound first after ∧ Keeps xxh3 (life.system.staged.take k) after := by
    apply onward.invariant fun life' => Sound xxh3 bound first life' ∧
      Keeps xxh3 (life.system.staged.take k) life'
    · exact ⟨hsound, take_prefix _ _,by rw [hlength]; exact hcovered⟩
    · intro _ _ _ h hok hstep
      have hnext:=life_sound hfirst hbound h.1 hok hstep
      exact ⟨hnext.1,hnext.2 _ h.2⟩
  obtain ⟨hafter,hinitial,hreached⟩ := hkept
  refine ⟨k,hk,hdk,hinitial,fun kept temporary hle => ?_⟩
  have hheader : walHeaderLen ≤ (after.system.file.take kept).length := by
    have hzero:=boundary_mono xxh3 after.system.staged
      (Nat.zero_le (life.system.staged.take k).length)
    have hwithin:=hafter.within
    rw [boundary_zero] at hzero
    rw [length_take]
    omega
  obtain ⟨s,hs,hbefore,hfile,hlong,hopened⟩ := crash_reopens hfirst hbound hafter hle hheader
    temporary
  obtain ⟨whole,inflight,hflow⟩ := hopened.durable
  exact ⟨s,hs,prefix_of_prefix_length_le hinitial hbefore
    (hlong _ hinitial.length_le hreached),hbefore,hfile,hflow.next⟩

end Checksum

/-- What a run that is written out has to show of its crashes. -/
def KeepsSynced (life : Life) : LifeEvent → Prop
  | .live _ => True
  | .crash kept _ => life.synced ≤ kept

instance (life : Life) : DecidablePred (KeepsSynced life)
  | .live _ => isTrue trivial
  | .crash kept _ => inferInstanceAs (Decidable (life.synced ≤ kept))

def firstLife : List LifeEvent :=
  [.stage 1 [],.pop 0,.write 0 .none,.complete 0,.stage 2 [7],.pop 0,.write 0 .none].map .live

def secondLife : List LifeEvent :=
  .crash 70 none::[.stage 3 [8],.pop 0,.write 0 .none,.complete 0].map .live

/-- One record is committed and a second one written when the process dies with a part of it in the
file; the next life cuts it off and commits another. -/
theorem lives_keep_durable_two_lives : ∃ life after : Life,
    Run (lifeStep (fun _ => 0) smallBound) (Survivable fun _ => 0) ⟨created 1,0⟩ firstLife life ∧
    Run (lifeStep (fun _ => 0) smallBound) (Survivable fun _ => 0) life secondLife after ∧
    after.system.writer.durableEnd = some 2 ∧
    ∃ k ≤ life.system.staged.length,(1 : LogSeq).toNat+1 = (1 : LogSeq).toNat+k ∧
      life.system.staged.take k <+: after.system.staged ∧
      ∀ kept temporary,after.synced ≤ kept →
        ∃ s,reopen (fun _ => 0) (after.system.file.take kept) temporary = some s ∧
          life.system.staged.take k <+: s.staged ∧ s.staged <+: after.system.staged ∧
          s.file = headerBytes 1++framesBytes (fun _ => 0) s.staged ∧
          s.writer.nextSeq.toNat = (1 : LogSeq).toNat+s.staged.length := by
  have hrun : ((execute (lifeStep (fun _ => 0) smallBound) KeepsSynced ⟨created 1,0⟩
      firstLife).bind fun life => (execute (lifeStep (fun _ => 0) smallBound) KeepsSynced life
        secondLife).map fun after => (life.system.writer.durableEnd,
          after.system.writer.durableEnd)) = some (some 1,some 2) := by
    decide +kernel
  obtain ⟨life,hlife,hrun⟩ := Option.bind_eq_some_iff.mp hrun
  obtain ⟨after,hafter,hends⟩ := Option.map_eq_some_iff.mp hrun
  obtain ⟨hend,hlast⟩ := Prod.mk.inj hends
  have hbefore : Run (lifeStep (fun _ => 0) smallBound) (Survivable fun _ => 0) ⟨created 1,0⟩
      firstLife life := by
    refine (Run.of_execute hlife).imp fun s e he _ => ?_
    simp only [firstLife,map_cons,map_nil,mem_cons,not_mem_nil,or_false] at he
    rcases he with rfl | rfl | rfl | rfl | rfl | rfl | rfl <;> trivial
  have honward : Run (lifeStep (fun _ => 0) smallBound) (Survivable fun _ => 0) life secondLife
      after := by
    refine (Run.of_execute hafter).imp fun s e he hkept => ?_
    simp only [secondLife,map_cons,map_nil,mem_cons,not_mem_nil,or_false] at he
    rcases he with rfl | rfl | rfl | rfl | rfl
    · exact hkept
    all_goals trivial
  exact ⟨life,after,hbefore,honward,hlast,
    lives_keep_durable (by decide) (by decide) hbefore hend honward⟩

end Zeppelin.Ingest
