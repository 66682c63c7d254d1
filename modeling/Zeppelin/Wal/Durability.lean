import Zeppelin.Wal.GroupCommit
import Zeppelin.Wal.Queue

namespace Zeppelin.Wal
open Machine List

section Checksum
variable (xxh3 : Bytes → U64) (bound : GroupBound)

/-- The record with sequence `l` ends at or before position `p` of the image. -/
def Covers (first : LogSeq) (log : List WalRecord) (l : LogSeq) (p : ℕ) : Prop :=
  ∃ k ≤ log.length,l.toNat+1 = first.toNat+k ∧ boundary xxh3 log k ≤ p

variable {xxh3} in
theorem Covers.mono {first : LogSeq} {log : List WalRecord} {l : LogSeq} {p q : ℕ}
    (h : Covers xxh3 first log l p) (hpq : p ≤ q) : Covers xxh3 first log l q := by
  obtain ⟨k,hk,hl,hb⟩ := h
  exact ⟨k,hk,hl,hb.trans hpq⟩

theorem boundary_append (log more : List WalRecord) {k : ℕ} (hk : k ≤ log.length) :
    boundary xxh3 (log++more) k = boundary xxh3 log k := by
  rw [boundary,boundary,take_append_of_le_length hk]

variable {xxh3} in
theorem Covers.append {first : LogSeq} {log : List WalRecord} {l : LogSeq} {p : ℕ}
    (h : Covers xxh3 first log l p) (more : List WalRecord) :
    Covers xxh3 first (log++more) l p := by
  obtain ⟨k,hk,hl,hb⟩ := h
  refine ⟨k,?_,hl,?_⟩
  · rw [length_append]
    omega
  · rw [boundary_append xxh3 log more hk]
    exact hb

theorem covers_last (first : LogSeq) (log : List WalRecord) (r : WalRecord)
    (hr : r.seq.toNat = first.toNat+log.length) :
    Covers xxh3 first (log++[r]) r.seq
      (walHeaderLen+(framesBytes xxh3 log).length+(recordBytes xxh3 r).length) := by
  refine ⟨log.length+1,by simp,by omega,?_⟩
  have htake : (log++[r]).take (log.length+1) = log++[r] := take_of_length_le (by simp)
  rw [boundary,htake,framesBytes_append,length_append,framesBytes_cons,framesBytes_nil,
    append_nil]
  omega

theorem Consecutive.append {first : LogSeq} {log more : List WalRecord}
    (h : Consecutive first log)
    (hmore : ∀ i r,more[i]? = some r → r.seq.toNat = first.toNat+log.length+i) :
    Consecutive first (log++more) := by
  intro i r hr
  by_cases hi : i < log.length
  · rw [getElem?_append_left hi] at hr
    exact h i r hr
  · rw [getElem?_append_right (by omega)] at hr
    have hm:=hmore _ r hr
    omega

theorem saturatingAdd_one {seq : LogSeq} (h : seq.toNat+1 < 2^64) :
    saturatingAdd seq 1 = seq+1 := by
  apply BitVec.eq_of_toNat_eq
  rw [saturatingAdd_toNat,BitVec.toNat_add,toNat_one_64]
  omega

theorem toNat_add_one {seq : LogSeq} (h : seq.toNat+1 < 2^64) :
    (seq+1).toNat = seq.toNat+1 := by
  rw [BitVec.toNat_add,toNat_one_64]
  omega

theorem encodeBatch_appendEncoder (records : List (U16 × Bytes)) (call : ℕ) (seq : LogSeq)
    (storage : Bytes) (hp : ∀ r ∈ records,r.2.length < 2^32)
    (hs : seq.toNat+records.length < 2^64) :
    encodeBatch (appendEncoder xxh3) call seq records storage =
      .ok (storage++framesBytes xxh3 (numbered seq records)) := by
  induction records generalizing call seq storage with
  | nil => simp [encodeBatch,numbered]
  | cons r rs ih =>
    obtain ⟨op,payload⟩ := r
    simp only [length_cons] at hs
    have hpay : payload.length < 2^32 := hp (op,payload) (mem_cons_self ..)
    have hone : seq.toNat+1 < 2^64 := by omega
    simp only [encodeBatch,appendEncoder,appendRecordInto_of_lt xxh3 ⟨seq,op,payload⟩ _ hpay,
      saturatingAdd_one hone]
    rw [ih (call+1) (seq+1) _ (fun r hr => hp r (mem_cons_of_mem _ hr))
      (by rw [toNat_add_one hone]; omega)]
    simp [numbered]

theorem framesBytes_numbered_length (seq : LogSeq) (records : List (U16 × Bytes)) :
    (framesBytes xxh3 (numbered seq records)).length = totalLength (batchLengths records) := by
  induction records generalizing seq with
  | nil => rfl
  | cons r rs ih =>
    obtain ⟨op,payload⟩ := r
    simp only [numbered,framesBytes_cons,length_append,recordBytes_length,ih,batchLengths,
      totalLength,map_cons,sum_cons]

theorem batchEnds_covers (first : LogSeq) (records : List (U16 × Bytes)) (log : List WalRecord)
    (seq : LogSeq) (base offset : ℕ) (hseq : seq.toNat = first.toNat+log.length)
    (hroom : seq.toNat+records.length < 2^64)
    (hbase : base+offset = walHeaderLen+(framesBytes xxh3 log).length) :
    BatchEnds (Covers xxh3 first (log++numbered seq records)) base seq offset
      (batchLengths records) := by
  induction records generalizing log seq offset with
  | nil => trivial
  | cons r rs ih =>
    obtain ⟨op,payload⟩ := r
    simp only [length_cons] at hroom
    have hone : seq.toNat+1 < 2^64 := by omega
    have hassoc : log++numbered seq ((op,payload)::rs) =
        (log++[⟨seq,op,payload⟩])++numbered (seq+1) rs := by simp [numbered]
    have hlast:=covers_last xxh3 first log ⟨seq,op,payload⟩ hseq
    rw [recordBytes_length] at hlast
    refine ⟨?_,?_⟩
    · rw [hassoc]
      exact (hlast.mono (by dsimp only; omega)).append _
    · rw [saturatingAdd_one hone,hassoc]
      refine ih (log++[⟨seq,op,payload⟩]) (seq+1) _ ?_ ?_ ?_
      · rw [toNat_add_one hone,length_append,length_singleton]
        omega
      · rw [toNat_add_one hone]
        omega
      · simp only [framesBytes_append,framesBytes_cons,framesBytes_nil,append_nil,
          length_append,recordBytes_length]
        omega

def Unnamed (g : Group) : Prop := g.lastSeq = none → g.records = 0 ∧ g.content = some []

/-- Where the only leader of a led writer stands. `whole` is the log written or
attempted so far and `inflight` the group in the leader's hands. -/
inductive LeaderAt (first : LogSeq) (s : System) (whole inflight : Bytes) : Prop where
  | stranded (lead : s.leaders = []) (idle : inflight = []) (file : s.file = whole)
  | ready (lead : s.leaders = [.ready]) (idle : inflight = []) (file : s.file = whole)
  | popped (g : Group) (l : LogSeq) (lead : s.leaders = [.popped g l])
      (content : g.content = some inflight) (file : s.file = whole)
      (covers : Covers xxh3 first s.staged l (whole.length+inflight.length))
  | written (g : Group) (l : LogSeq) (lead : s.leaders = [.written g l none])
      (idle : inflight = []) (file : s.file = whole)
      (covers : Covers xxh3 first s.staged l whole.length)
  | torn (g : Group) (l : LogSeq) (f : Failure) (lead : s.leaders = [.written g l (some f)])
      (idle : inflight = [])

inductive Phase (first : LogSeq) (s : System) (whole inflight : Bytes) : Prop where
  | failed (fail : s.writer.failure ≠ none) (lead : s.leaders = [])
  | idle (alive : s.writer.failure = none) (lead : s.leaders = [])
      (barrier : s.writer.barrierInFlight = false) (idle : inflight = []) (file : s.file = whole)
      (queue : s.writer.pendingGroups = [] ∨
        ∃ g,s.writer.pendingGroups = [g] ∧ g.records = 0)
  | busy (alive : s.writer.failure = none) (barrier : s.writer.barrierInFlight = true)
      (queue : ∀ g ∈ s.writer.pendingGroups,Unnamed g) (at_ : LeaderAt xxh3 first s whole inflight)

structure Flow (first : LogSeq) (s : System) (whole inflight : Bytes) : Prop where
  next : s.writer.nextSeq.toNat = first.toNat+s.staged.length
  ordered : Consecutive first s.staged
  framable : Framable s.staged
  spare : s.writer.spareChunks = []
  image : whole++inflight++queueBytes s.writer.pendingGroups =
    headerBytes first++framesBytes xxh3 s.staged
  queue : Queued bound (Covers xxh3 first s.staged) (whole.length+inflight.length)
    s.writer.pendingGroups
  written : s.file <+: whole
  durable : ∀ d,s.writer.durableEnd = some d → Covers xxh3 first s.staged d s.file.length
  phase : Phase xxh3 first s whole inflight

def Durable (first : LogSeq) (s : System) : Prop :=
  ∃ whole inflight,Flow xxh3 bound first s whole inflight

structure Extends (st w : WriterState) (pos : ℕ) (log new : List WalRecord) (first : LogSeq) :
    Prop where
  alive : w.failure = none
  barrier : w.barrierInFlight = true
  durableEnd : w.durableEnd = st.durableEnd
  spare : w.spareChunks = []
  next : w.nextSeq.toNat = st.nextSeq.toNat+new.length
  bytes : queueBytes w.pendingGroups = queueBytes st.pendingGroups++framesBytes xxh3 new
  queue : Queued bound (Covers xxh3 first (log++new)) pos w.pendingGroups
  named : ∀ g ∈ w.pendingGroups,Unnamed g

variable {xxh3 bound} {first : LogSeq} {s t : System} {whole inflight : Bytes}

theorem LeaderAt.staged (h : LeaderAt xxh3 first s whole inflight) (w : WriterState)
    (new : List WalRecord) :
    LeaderAt xxh3 first { s with writer := w,staged := s.staged++new } whole inflight := by
  cases h with
  | stranded lead idle file => exact .stranded lead idle file
  | ready lead idle file => exact .ready lead idle file
  | popped g l lead content file covers =>
    exact .popped g l lead content file (covers.append new)
  | written g l lead idle file covers => exact .written g l lead idle file (covers.append new)
  | torn g l f lead idle => exact .torn g l f lead idle

theorem Flow.staged (h : Flow xxh3 bound first s whole inflight) (halive : s.writer.failure = none)
    {w : WriterState} {new : List WalRecord}
    (hw : Extends xxh3 bound s.writer w (whole.length+inflight.length) s.staged new first)
    (hord : Consecutive first (s.staged++new)) (hframe : Framable (s.staged++new)) :
    Flow xxh3 bound first { s with
      writer := w
      leaders := addLeader (!s.writer.barrierInFlight) s.leaders
      staged := s.staged++new } whole inflight where
  next := by
    rw [hw.next,h.next,length_append,Nat.add_assoc]
  ordered := hord
  framable := hframe
  spare := hw.spare
  image := by
    rw [hw.bytes,framesBytes_append,← append_assoc,h.image,append_assoc]
  queue := hw.queue
  written := h.written
  durable := fun d hd => (h.durable d (hw.durableEnd.symm.trans hd)).append new
  phase := by
    cases h.phase with
    | failed fail lead => exact absurd halive fail
    | idle alive lead barrier idle file queue =>
      refine .busy hw.alive hw.barrier hw.named (.ready ?_ idle file)
      simp only [addLeader,barrier,lead,Bool.not_false,ite_true,nil_append]
    | busy alive barrier queue at_ =>
      refine .busy hw.alive hw.barrier hw.named ?_
      simp only [addLeader,barrier,Bool.not_true,Bool.false_eq_true,ite_false]
      exact at_.staged w new

theorem ensurePendingGroup_spare {st : WriterState} (h : st.spareChunks = []) :
    (ensurePendingGroup st).spareChunks = [] := by
  unfold ensurePendingGroup
  split
  · rfl
  · exact h

theorem Flow.back (h : Flow xxh3 bound first s whole inflight) (halive : s.writer.failure = none)
    {front : List Group} {g : Group}
    (hq : (ensurePendingGroup s.writer).pendingGroups = front++[g]) :
    Queued bound (Covers xxh3 first s.staged) (whole.length+inflight.length) (front++[g]) ∧
      queueBytes (front++[g]) = queueBytes s.writer.pendingGroups ∧
      (∀ x ∈ front,Unnamed x) ∧ (g.lastSeq ≠ none ∨ g.records = 0) := by
  by_cases hnil : s.writer.pendingGroups = []
  · rw [ensurePendingGroup_of_nil hnil] at hq
    obtain ⟨rfl,rfl⟩ := concat_eq_singleton hq.symm
    have hempty : Group.content ⟨s.writer.spareChunks,0,0,none⟩ = some [] := by
      rw [h.spare]
      rfl
    refine ⟨queued_singleton hempty (Nat.zero_le _) (by simp),?_,by simp,Or.inr rfl⟩
    rw [hnil,nil_append,queueBytes_singleton hempty,queueBytes_nil]
  · rw [ensurePendingGroup_of_ne_nil hnil] at hq
    refine ⟨hq ▸ h.queue,by rw [hq],?_⟩
    cases h.phase with
    | failed fail lead => exact absurd halive fail
    | idle alive lead barrier idle file queue =>
      rcases queue with hempty | ⟨g₀,hone,hrec⟩
      · exact absurd hempty hnil
      · rw [hone] at hq
        obtain ⟨rfl,rfl⟩ := concat_eq_singleton hq.symm
        exact ⟨by simp,Or.inr hrec⟩
    | busy alive barrier queue at_ =>
      rw [hq] at queue
      refine ⟨fun x hx => queue x (mem_append_left _ hx),?_⟩
      cases hl : g.lastSeq with
      | some l => exact Or.inl (by simp)
      | none => exact Or.inr (queue g (by simp) hl).1

theorem queued_imp {Ends Ends' : LogSeq → ℕ → Prop} (himp : ∀ l p,Ends l p → Ends' l p) {pos : ℕ}
    {gs : List Group} (h : Queued bound Ends pos gs) : Queued bound Ends' pos gs := by
  induction gs generalizing pos with
  | nil => trivial
  | cons g gs ih =>
    obtain ⟨b,hb,hle,hl,hrest⟩ := h
    exact ⟨b,hb,hle,fun l hg => himp _ _ (hl l hg),ih hrest⟩

theorem Flow.refused (h : Flow xxh3 bound first s whole inflight)
    (halive : s.writer.failure = none) (hnil : s.writer.pendingGroups = []) :
    Flow xxh3 bound first { s with writer := ensurePendingGroup s.writer } whole inflight := by
  have hens:=ensurePendingGroup_of_nil hnil
  have hq : (ensurePendingGroup s.writer).pendingGroups =
      []++[⟨s.writer.spareChunks,0,0,none⟩] := by rw [hens]; rfl
  obtain ⟨hseq,hfail,hbar,hdur,-⟩ := ensurePendingGroup_fields s.writer
  obtain ⟨hqueue,hbytes,-⟩ := h.back halive hq
  have hempty : Group.content ⟨s.writer.spareChunks,0,0,none⟩ = some [] := by
    rw [h.spare]
    rfl
  refine ⟨?_,h.ordered,h.framable,?_,?_,?_,h.written,?_,?_⟩
  · exact (congrArg BitVec.toNat hseq).trans h.next
  · rw [hens]
  · rw [hq,hbytes]
    exact h.image
  · rw [hq]
    exact hqueue
  · exact fun d hd => h.durable d (hdur.symm.trans hd)
  · cases h.phase with
    | failed fail lead => exact absurd halive fail
    | idle alive lead barrier idle file queue =>
      exact .idle (hfail.trans alive) lead (hbar.trans barrier) idle file (Or.inr ⟨_,hq,rfl⟩)
    | busy alive barrier queue at_ =>
      refine .busy (hfail.trans alive) (hbar.trans barrier) ?_ ?_
      · intro g hg
        rw [hq,nil_append] at hg
        rw [mem_singleton.mp hg]
        exact fun _ => ⟨rfl,hempty⟩
      · have hsame:=at_.staged (ensurePendingGroup s.writer) []
        rwa [append_nil] at hsame

theorem stage_flow {op : U16} {payload : Bytes} (h : Flow xxh3 bound first s whole inflight)
    (hstep : step xxh3 bound s (.stage op payload) = some t) :
    Flow xxh3 bound first t whole inflight := by
  cases hs : stage xxh3 bound op payload s.writer with
  | mk out w =>
    simp only [step,hs] at hstep
    rcases stage_cases xxh3 bound hs with ⟨e,rfl,rfl⟩ | ⟨e,rfl,hnil,rfl,hlate⟩ | ⟨rfl,rfl⟩ |
      ⟨rfl,front,g,hsucc⟩
    · rw [← Option.some.inj hstep]
      exact h
    · rw [← Option.some.inj hstep]
      exact h.refused hlate.2.1 hnil
    · rw [← Option.some.inj hstep]
      exact h
    · obtain ⟨hqueue,hbytes,hnamed,-⟩ := h.back hsucc.alive hsucc.queue
      obtain ⟨hfront,b,hb,-,-⟩ := queued_concat hqueue
      have hseq : s.writer.nextSeq.toNat = first.toNat+s.staged.length := h.next
      have hrec : (recordBytes xxh3 ⟨s.writer.nextSeq,op,payload⟩).length =
          minRecordLen+payload.length := recordBytes_length xxh3 _
      have hchunk : EncodedChunk.bytes ⟨recordBytes xxh3 ⟨s.writer.nextSeq,op,payload⟩,0,
          minRecordLen+payload.length⟩ =
            some (recordBytes xxh3 ⟨s.writer.nextSeq,op,payload⟩) := by
        rw [← hrec,chunk_bytes (Nat.zero_le _) le_rfl,segment_all]
      have hcontent : (stagedGroup g (recordBytes xxh3 ⟨s.writer.nextSeq,op,payload⟩)
          (minRecordLen+payload.length) s.writer.nextSeq).content =
            some (b++recordBytes xxh3 ⟨s.writer.nextSeq,op,payload⟩) :=
        content_append_chunk hb hchunk
      have hpos : whole.length+inflight.length+(queueBytes front).length+b.length =
          walHeaderLen+(framesBytes xxh3 s.staged).length := by
        have himage:=congrArg List.length h.image
        rw [← hbytes,queueBytes_append,queueBytes_singleton hb] at himage
        simp only [length_append,headerBytes_length] at himage
        omega
      rw [← Option.some.inj hstep]
      refine h.staged hsucc.alive ?_ ?_ ?_
      · rw [hsucc.result]
        refine ⟨(ensurePendingGroup_fields s.writer).2.1.trans hsucc.alive,rfl,
          (ensurePendingGroup_fields s.writer).2.2.2.1,?_,?_,?_,?_,?_⟩
        · exact ensurePendingGroup_spare h.spare
        · simp only [length_singleton]
          exact toNat_add_one hsucc.room
        · simp only [queueBytes_append,queueBytes_singleton hcontent,framesBytes_cons,
            framesBytes_nil,append_nil]
          rw [← hbytes,queueBytes_append,queueBytes_singleton hb,append_assoc]
        · refine queued_append.mpr ⟨queued_imp (fun l p hl => hl.append _) hfront,?_⟩
          refine queued_singleton hcontent hsucc.fits fun l hl => ?_
          have hlast:=covers_last xxh3 first s.staged ⟨s.writer.nextSeq,op,payload⟩ hseq
          have hl' : s.writer.nextSeq = l := by simpa [stagedGroup] using hl
          rw [← hl']
          refine hlast.mono ?_
          rw [length_append]
          omega
        · intro x hx
          rcases mem_append.mp hx with hx | hx
          · exact hnamed x hx
          · rw [mem_singleton.mp hx]
            exact fun hnone => absurd hnone (by simp [stagedGroup])
      · refine h.ordered.append fun i r hr => ?_
        cases i with
        | zero =>
          obtain rfl := Option.some.inj hr
          exact hseq
        | succ i => simp at hr
      · intro r hr
        rcases mem_append.mp hr with hr | hr
        · exact h.framable r hr
        · rw [mem_singleton.mp hr]
          exact hsucc.framable

variable {records : List (U16 × Bytes)} {i : ℕ}

theorem framable_numbered {seq : LogSeq}
    (h : ∀ r ∈ records,r.2.length < 2^32) : Framable (numbered seq records) := by
  induction records generalizing seq with
  | nil => simp [Framable,numbered]
  | cons r rs ih =>
    obtain ⟨op,payload⟩ := r
    intro q hq
    rcases mem_cons.mp hq with rfl | hq
    · exact h (op,payload) (mem_cons_self ..)
    · exact ih (fun r hr => h r (mem_cons_of_mem _ hr)) q hq

theorem Flow.split {encoded : Bytes} (h : Flow xxh3 bound first s whole inflight)
    (hchk : StageManyChecked bound (appendEncoder xxh3) records s.writer encoded) :
    ∃ cur' mid,splitBatch bound encoded s.writer.nextSeq (batchLengths records) ⟨0,0⟩
        (ensurePendingGroup s.writer) = (.ok cur',mid) ∧ SameShell s.writer mid ∧
      ∀ w : WriterState,w = { modifyBack (fun g => { g with
          chunks := g.chunks++[⟨encoded,cur'.chunkStart,cur'.offset⟩] }) mid with
        nextSeq := s.writer.nextSeq+BitVec.ofNat 64 records.length
        encodedBufferAllocations := mid.encodedBufferAllocations+1
        barrierInFlight := true } →
      Extends xxh3 bound s.writer w (whole.length+inflight.length) s.staged
        (numbered s.writer.nextSeq records) first := by
  obtain ⟨front,g,hq⟩ := exists_concat_of_ne_nil (ensurePendingGroup_ne_nil s.writer)
  obtain ⟨hqueue,hbytes,hnamed,hback⟩ := h.back hchk.alive hq
  obtain ⟨hfront,b,hb,hle,hlast⟩ := queued_concat hqueue
  obtain ⟨hseq,hfail,hbar,hdur,-⟩ := ensurePendingGroup_fields s.writer
  have hroom:=hchk.room
  have henc : encoded = framesBytes xxh3 (numbered s.writer.nextSeq records) := by
    have hrun:=hchk.encoded_eq
    rw [encodeBatch_appendEncoder xxh3 records 0 _ [] hchk.framable hroom] at hrun
    simpa using (Except.ok.inj hrun).symm
  have hlen : encoded.length = totalLength (batchLengths records) := by
    rw [henc,framesBytes_numbered_length]
  -- the batch starts where the queue ends
  have hpos : whole.length+inflight.length+(queueBytes front).length+b.length =
      walHeaderLen+(framesBytes xxh3 s.staged).length := by
    have himage:=congrArg List.length h.image
    rw [← hbytes,queueBytes_append,queueBytes_singleton hb] at himage
    simp only [length_append,headerBytes_length] at himage
    omega
  have hplaced : Placed bound (Covers xxh3 first (s.staged++numbered s.writer.nextSeq records))
      (whole.length+inflight.length) (walHeaderLen+(framesBytes xxh3 s.staged).length) encoded
      ⟨0,0⟩ (ensurePendingGroup s.writer) front g b :=
    { queue := hq
      spare := ensurePendingGroup_spare h.spare
      along := queued_imp (fun l p hl => hl.append _) hfront
      content := hb
      le_bound := hle
      start_le := le_rfl
      position := by dsimp only; omega
      last := fun l hl => ((hlast l hl).append _).mono (by dsimp only; omega) }
  obtain ⟨cur',mid,front',g',b',hrun,hplaced',hoff,hbytes'⟩ := splitBatch_queued
    (fun l p q hl hpq => hl.mono hpq) s.writer.nextSeq (batchLengths records) ⟨0,0⟩ _ front g b
    hplaced (batchEnds_covers xxh3 first records s.staged _ _ 0 h.next hroom (by omega))
    hchk.lengths (by dsimp only; omega)
  obtain ⟨cur₁,mid₁,front₁,g₁,hrun₁,hshell,hq₁,hnamed₁,-,-,hlast₁⟩ :=
    splitBatch_sequenced bound encoded s.writer.nextSeq (batchLengths records) ⟨0,0⟩ _ front g hq
      hle hchk.lengths (hchk.next hq hback)
  rw [hrun,Prod.mk.injEq,Except.ok.injEq] at hrun₁
  obtain ⟨rfl,rfl⟩ := hrun₁
  obtain ⟨rfl,hg₁⟩ := append_inj' (hplaced'.queue.symm.trans hq₁) rfl
  obtain rfl := singleton_inj.mp hg₁
  have hshell':=SameShell.trans ⟨hseq,hdur,hbar,hfail⟩ hshell
  refine ⟨cur',mid,hrun,hshell',fun w hw => ?_⟩
  have hcur : cur'.offset = encoded.length := by
    rw [hoff,hlen,Nat.zero_add]
  have hcontent : Group.content ⟨g'.chunks++[⟨encoded,cur'.chunkStart,cur'.offset⟩],
      g'.encodedBytes,g'.records,g'.lastSeq⟩ =
        some (b'++segment encoded cur'.chunkStart cur'.offset) :=
    content_append_chunk hplaced'.content (chunk_bytes hplaced'.start_le hcur.le)
  rw [modifyBack_concat _ hplaced'.queue] at hw
  rw [hw]
  refine ⟨hshell'.failure.trans hchk.alive,rfl,hshell'.durableEnd,hplaced'.spare,?_,?_,?_,?_⟩
  · rw [numbered_length,BitVec.toNat_add,BitVec.toNat_ofNat]
    omega
  · rw [queueBytes_append,queueBytes_singleton hcontent,← append_assoc,hbytes',hcur,
      segment_all,← hbytes,queueBytes_append,queueBytes_singleton hb,henc]
  · refine queued_append.mpr ⟨hplaced'.along,queued_singleton hcontent hplaced'.le_bound ?_⟩
    intro l hl
    refine (hplaced'.last l hl).mono ?_
    have hp:=hplaced'.position
    rw [length_append,segment_length hcur.le]
    omega
  · intro x hx
    rcases mem_append.mp hx with hx | hx
    · rcases hnamed₁ x hx with hold | hnew
      · exact hnamed x hold
      · exact fun hnone => absurd hnone hnew.1
    · rw [mem_singleton.mp hx]
      exact fun hnone => absurd hnone (hlast₁ hchk.lengths_ne_nil)

theorem stageMany_flow (h : Flow xxh3 bound first s whole inflight)
    (hstep : step xxh3 bound s (.stageMany (appendEncoder xxh3) records) = some t) :
    Flow xxh3 bound first t whole inflight := by
  cases hs : stageManyWithEncoder bound (appendEncoder xxh3) records s.writer with
  | mk out w =>
    simp only [step,hs] at hstep
    rcases stageMany_cases bound hs with ⟨e,rfl,rfl⟩ | ⟨e,rfl,hnil,rfl,hlate⟩ |
      ⟨rfl,rfl,rfl,-⟩ | ⟨e,encoded,-,hchk,hsplit⟩ |
      ⟨encoded,cur,mid,leader,rfl,hleader,hsucc⟩
    · rw [← Option.some.inj hstep]
      exact h
    · rw [← Option.some.inj hstep]
      exact h.refused hlate.2.2.1 hnil
    · rw [← Option.some.inj hstep]
      simp only [addLeader,Bool.false_eq_true,ite_false,numbered,append_nil]
      exact h
    · obtain ⟨cur',mid,hrun,-⟩ := h.split hchk
      rw [hrun] at hsplit
      cases hsplit
    · obtain ⟨cur',mid',hrun,hshell,hext⟩ := h.split hsucc.toStageManyChecked
      rw [hsucc.split,Prod.mk.injEq,Except.ok.injEq] at hrun
      obtain ⟨rfl,rfl⟩ := hrun
      rw [hshell.barrierInFlight] at hleader
      rw [← Option.some.inj hstep,hleader]
      have hroom:=hsucc.room
      refine h.staged hsucc.alive (hext w hsucc.result) ?_ ?_
      · refine h.ordered.append fun i r hr => ?_
        rw [consecutive_numbered (by omega) i r hr,h.next]
      · intro r hr
        rcases mem_append.mp hr with hr | hr
        · exact h.framable r hr
        · exact framable_numbered hsucc.framable r hr

theorem flush_flow (h : Flow xxh3 bound first s whole inflight)
    (hstep : step xxh3 bound s .flush = some t) : Flow xxh3 bound first t whole inflight := by
  cases hs : flush s.writer with
  | mk out w =>
    simp only [step,hs] at hstep
    rcases flush_cases hs with ⟨rfl,hnot⟩ | ⟨target,rfl,hbar,⟨g,hmem,hrec⟩,-,halive⟩
    · cases out with
      | waitFor target leader =>
        cases leader with
        | true => exact absurd rfl (hnot target)
        | false =>
          simp only [addLeader,Bool.false_eq_true,ite_false] at hstep
          rw [← Option.some.inj hstep]
          exact h
      | done =>
        rw [← Option.some.inj hstep]
        exact h
      | refused e =>
        rw [← Option.some.inj hstep]
        exact h
    · exfalso
      cases h.phase with
      | failed fail lead => exact fail halive
      | idle alive lead barrier idle file queue =>
        rcases queue with hnil | ⟨g₀,hone,hzero⟩
        · rw [hnil] at hmem
          cases hmem
        · rw [hone] at hmem
          rw [mem_singleton.mp hmem] at hrec
          exact hrec hzero
      | busy alive barrier queue at_ =>
        rw [barrier] at hbar
        cases hbar

theorem Flow.leader (h : Flow xxh3 bound first s whole inflight) {p : LeaderPhase}
    (hi : s.leaders[i]? = some p) :
    i = 0 ∧ s.leaders = [p] ∧ s.writer.failure = none ∧ s.writer.barrierInFlight = true ∧
      (∀ g ∈ s.writer.pendingGroups,Unnamed g) ∧ LeaderAt xxh3 first s whole inflight := by
  have hnone : s.leaders ≠ [] := by
    intro hnil
    rw [hnil] at hi
    cases hi
  cases h.phase with
  | failed fail lead => exact absurd lead hnone
  | idle alive lead => exact absurd lead hnone
  | busy alive barrier queue at_ =>
    have hone : ∃ phase,s.leaders = [phase] := by
      cases at_ with
      | stranded lead => exact absurd lead hnone
      | ready lead => exact ⟨_,lead⟩
      | popped g l lead => exact ⟨_,lead⟩
      | written g l lead => exact ⟨_,lead⟩
      | torn g l f lead => exact ⟨_,lead⟩
    obtain ⟨phase,hlead⟩ := hone
    obtain ⟨h0,rfl⟩ := leader_of_getElem? hlead hi
    exact ⟨h0,hlead,alive,barrier,queue,at_⟩

theorem LeaderAt.of_ready (h : LeaderAt xxh3 first s whole inflight)
    (hlead : s.leaders = [.ready]) : inflight = [] ∧ s.file = whole := by
  cases h with
  | ready lead idle file => exact ⟨idle,file⟩
  | stranded lead => rw [lead] at hlead; cases hlead
  | popped g l lead => rw [lead] at hlead; cases hlead
  | written g l lead => rw [lead] at hlead; cases hlead
  | torn g l f lead => rw [lead] at hlead; cases hlead

theorem pop_flow (h : Flow xxh3 bound first s whole inflight)
    (hstep : step xxh3 bound s (.pop i) = some t) :
    ∃ inflight',Flow xxh3 bound first t whole inflight' := by
  simp only [step] at hstep
  split at hstep
  · rename_i hi
    obtain ⟨rfl,hlead,halive,hbar,hnamed,hat⟩ := h.leader hi
    obtain ⟨rfl,hfile⟩ := hat.of_ready hlead
    cases hq : s.writer.pendingGroups with
    | nil =>
      simp only [popGroup,hq,Option.some.injEq] at hstep
      rw [← hstep]
      refine ⟨[],h.next,h.ordered,h.framable,h.spare,h.image,h.queue,h.written,h.durable,
        .busy halive hbar hnamed (.stranded ?_ rfl hfile)⟩
      simp only [hlead,eraseIdx_cons_zero]
    | cons g rest =>
      have hqueue:=h.queue
      have himage:=h.image
      rw [hq] at hqueue himage
      obtain ⟨b,hb,hle,hl,hrest⟩ := hqueue
      rw [queueBytes_cons hb] at himage
      have hnamed' : ∀ x ∈ rest,Unnamed x := fun x hx => hnamed x (by simp [hq,hx])
      cases hlast : g.lastSeq with
      | none =>
        -- a group without a sequence is empty, so dropping it loses no byte
        obtain ⟨-,hempty⟩ := hnamed g (by simp [hq]) hlast
        obtain rfl : b = [] := Option.some.inj (hb.symm.trans hempty)
        simp only [popGroup,hq,hlast,Option.some.injEq] at hstep
        rw [← hstep]
        refine ⟨[],h.next,h.ordered,h.framable,h.spare,himage,hrest,h.written,h.durable,
          .busy halive hbar hnamed' (.stranded ?_ rfl hfile)⟩
        simp only [hlead,eraseIdx_cons_zero]
      | some l =>
        simp only [popGroup,hq,hlast,Option.some.injEq] at hstep
        rw [← hstep]
        refine ⟨b,h.next,h.ordered,h.framable,h.spare,?_,hrest,h.written,h.durable,
          .busy halive hbar hnamed' (.popped g l ?_ hb hfile (hl l hlast))⟩
        · rw [← himage]
          simp only [append_nil,append_assoc]
        · simp only [hlead,set_cons_zero]
  · cases hstep

theorem write_flow {fault : WriteFault} (h : Flow xxh3 bound first s whole inflight)
    (hstep : step xxh3 bound s (.write i fault) = some t) :
    ∃ whole',Flow xxh3 bound first t whole' [] := by
  simp only [step] at hstep
  split at hstep
  · rename_i g l hi
    obtain ⟨rfl,hlead,halive,hbar,hnamed,hat⟩ := h.leader hi
    have hpopped : g.content = some inflight ∧ s.file = whole ∧
        Covers xxh3 first s.staged l (whole.length+inflight.length) := by
      cases hat with
      | popped g' l' lead content file covers =>
        rw [lead,singleton_inj] at hlead
        cases hlead
        exact ⟨content,file,covers⟩
      | stranded lead => rw [lead] at hlead; cases hlead
      | ready lead => rw [lead] at hlead; cases hlead
      | written g l lead => rw [lead] at hlead; cases hlead
      | torn g l f lead => rw [lead] at hlead; cases hlead
    obtain ⟨hcontent,hfile,hcovers⟩ := hpopped
    rw [← Option.some.inj hstep]
    have himage : whole++inflight++[]++queueBytes s.writer.pendingGroups =
        headerBytes first++framesBytes xxh3 s.staged := by
      rw [append_nil]
      exact h.image
    have hqueue : Queued bound (Covers xxh3 first s.staged)
        ((whole++inflight).length+([] : Bytes).length) s.writer.pendingGroups := by
      rw [length_append,length_nil,Nat.add_zero]
      exact h.queue
    have hdurable : ∀ bytes d,s.writer.durableEnd = some d →
        Covers xxh3 first s.staged d (s.file++bytes).length := fun bytes d hd =>
      (h.durable d hd).mono (by rw [length_append]; omega)
    cases fault with
    | none =>
      simp only [writeGroup,hcontent]
      refine ⟨whole++inflight,h.next,h.ordered,h.framable,h.spare,himage,hqueue,?_,
        hdurable inflight,.busy halive hbar hnamed (.written g l ?_ rfl ?_ ?_)⟩
      · exact hfile ▸ prefix_rfl
      · simp only [hlead,set_cons_zero]
      · rw [hfile]
      · rw [length_append]
        exact hcovers
    | after n f =>
      simp only [writeGroup,hcontent]
      refine ⟨whole++inflight,h.next,h.ordered,h.framable,h.spare,himage,hqueue,?_,
        hdurable (inflight.take n),.busy halive hbar hnamed (.torn g l f ?_ rfl)⟩
      · rw [hfile]
        exact (prefix_append_right_inj whole).mpr ( take_prefix n inflight)
      · simp only [hlead,set_cons_zero]
  · cases hstep

theorem complete_flow (h : Flow xxh3 bound first s whole inflight)
    (hstep : step xxh3 bound s (.complete i) = some t) : Flow xxh3 bound first t whole inflight := by
  simp only [step] at hstep
  split at hstep
  · rename_i g l failure hi
    obtain ⟨rfl,hlead,halive,hbar,hnamed,hat⟩ := h.leader hi
    cases hat with
    | written g' l' lead idle file covers =>
      rw [lead,singleton_inj] at hlead
      cases hlead
      have hdurable : ∀ d,some l = some d → Covers xxh3 first s.staged d s.file.length := by
        intro d hd
        rw [← Option.some.inj hd,file]
        exact covers
      by_cases hq : s.writer.pendingGroups = []
      · simp only [completeGroup,if_pos hq,Option.some.injEq] at hstep
        rw [← hstep]
        refine ⟨h.next,h.ordered,h.framable,rfl,h.image,h.queue,h.written,hdurable,
          .idle halive ?_ rfl idle file (Or.inl hq)⟩
        simp only [lead,eraseIdx_cons_zero]
      · simp only [completeGroup,if_neg hq,Option.some.injEq] at hstep
        rw [← hstep]
        refine ⟨h.next,h.ordered,h.framable,rfl,h.image,h.queue,h.written,hdurable,
          .busy halive hbar hnamed (.ready ?_ idle file)⟩
        simp only [lead,set_cons_zero]
    | torn g' l' f lead idle =>
      rw [lead,singleton_inj] at hlead
      cases hlead
      simp only [completeGroup,Option.some.injEq] at hstep
      rw [← hstep]
      refine ⟨h.next,h.ordered,h.framable,rfl,h.image,h.queue,h.written,h.durable,
        .failed (by simp) ?_⟩
      simp only [lead,eraseIdx_cons_zero]
    | stranded lead => rw [lead] at hlead; cases hlead
    | ready lead => rw [lead] at hlead; cases hlead
    | popped g l lead => rw [lead] at hlead; cases hlead
  · cases hstep

variable (xxh3 bound)

/-- Batches are framed with the encoder of `stage_many`. -/
def FramesRecords (_ : System) : Event → Prop
  | .stageMany encode _ => encode = appendEncoder xxh3
  | _ => True

variable {xxh3 bound} in
theorem step_durable {e : Event} (h : Durable xxh3 bound first s) (hok : FramesRecords xxh3 s e)
    (hstep : step xxh3 bound s e = some t) : Durable xxh3 bound first t := by
  obtain ⟨whole,inflight,h⟩ := h
  cases e with
  | stage op payload => exact ⟨whole,inflight,stage_flow h hstep⟩
  | stageMany encode records =>
    obtain rfl : encode = appendEncoder xxh3 := hok
    exact ⟨whole,inflight,stageMany_flow h hstep⟩
  | flush => exact ⟨whole,inflight,flush_flow h hstep⟩
  | pop i =>
    obtain ⟨inflight',h'⟩ := pop_flow h hstep
    exact ⟨whole,inflight',h'⟩
  | write i fault =>
    obtain ⟨whole',h'⟩ := write_flow h hstep
    exact ⟨whole',[],h'⟩
  | complete i => exact ⟨whole,inflight,complete_flow h hstep⟩

theorem created_durable (first : LogSeq) : Durable xxh3 bound first (created first) := by
  have hheader : Group.content ⟨[⟨headerBytes first,0,walHeaderLen⟩],walHeaderLen,0,none⟩ =
      some (headerBytes first) := by
    have hchunk:=chunk_bytes (Nat.zero_le _) (headerBytes_length first).ge
    rw [← headerBytes_length first,segment_all,headerBytes_length] at hchunk
    simp only [Group.content,mapM_cons,hchunk]
    simp
  refine ⟨[],[],rfl,consecutive_nil first,by simp [Framable,created],rfl,?_,?_,
    prefix_rfl,?_,.idle rfl rfl rfl rfl rfl (Or.inr ⟨_,rfl,rfl⟩)⟩
  · show []++[]++queueBytes [_] = _
    rw [queueBytes_singleton hheader]
    rfl
  · exact queued_singleton hheader bound.header_le (by simp)
  · intro d hd
    cases hd

/-- Durability over whole runs. The file is a prefix of the image of the staged
records at every step; once a group has completed with `durable_end = d`, the
file starts with the whole header and replay returns the staged records in
order, at least up to `d`. -/
theorem wal_durability {first : LogSeq} {s : System} {es : List Event}
    (run : Run (step xxh3 bound) (FramesRecords xxh3) (created first) es s) :
    Consecutive first s.staged ∧
    s.file <+: headerBytes first++framesBytes xxh3 s.staged ∧
    ∀ d,s.writer.durableEnd = some d →
      (∃ frames,s.file = headerBytes first++frames ∧ frames <+: framesBytes xxh3 s.staged) ∧
      ∃ k n,d.toNat+1 = first.toNat+k ∧ k ≤ n ∧ n ≤ s.staged.length ∧
        (replay xxh3 s.file).records = s.staged.take n := by
  obtain ⟨whole,inflight,h⟩ := run.invariant (Durable xxh3 bound first)
    (created_durable xxh3 bound first) fun _ _ _ h hok hstep => step_durable h hok hstep
  have hinitial : s.file <+: headerBytes first++framesBytes xxh3 s.staged := by
    rw [← h.image,append_assoc]
    exact h.written.trans (prefix_append _ _)
  refine ⟨h.ordered,hinitial,fun d hd => ?_⟩
  obtain ⟨k,hk,hdk,hbound⟩ := h.durable d hd
  have htake:=prefix_iff_eq_take.mp hinitial
  have hheader : walHeaderLen ≤ s.file.length :=
    (boundary_zero xxh3 s.staged).ge.trans ((boundary_mono xxh3 s.staged (Nat.zero_le k)).trans hbound)
  refine ⟨?_,?_⟩
  · have hlen:=headerBytes_length first
    rw [List.take_append,take_of_length_le (by omega)] at htake
    exact ⟨_,htake, take_prefix _ _⟩
  · obtain ⟨n,hn,hlo,hnext,hrec,-⟩ := replay_take xxh3 first s.staged s.file.length h.framable
      h.ordered hheader hinitial.length_le
    rw [← htake] at hrec
    refine ⟨k,n,hdk,?_,hn,hrec⟩
    by_contra hlt
    have hbig:=hnext (by omega)
    have hmono:=boundary_mono xxh3 s.staged (show n+1 ≤ k by omega)
    omega

end Checksum

/-- One committed record: the leader pops, writes and completes its group. -/
theorem wal_durability_one_record :
    ∃ s,Run (step (fun _ => 0) smallBound) (FramesRecords fun _ => 0) (created 1)
      [.stage 1 [],.pop 0,.write 0 .none,.complete 0] s ∧ s.writer.durableEnd = some 1 ∧
      ∃ k n,(1 : LogSeq).toNat+1 = (1 : LogSeq).toNat+k ∧ k ≤ n ∧ n ≤ s.staged.length ∧
        (replay (fun _ => 0) s.file).records = s.staged.take n := by
  have hrun : ((execute (step (fun _ => 0) smallBound) NoWriteFailure (created 1)
      [.stage 1 [],.pop 0,.write 0 .none,.complete 0]).map fun s => s.writer.durableEnd) =
      some (some 1) := by
    decide +kernel
  obtain ⟨s,hs,hend⟩ := Option.map_eq_some_iff.mp hrun
  have hframes : Run (step (fun _ => 0) smallBound) (FramesRecords fun _ => 0) (created 1)
      [.stage 1 [],.pop 0,.write 0 .none,.complete 0] s := by
    refine (Run.of_execute hs).imp fun s e he _ => ?_
    simp only [mem_cons,not_mem_nil,or_false] at he
    rcases he with rfl | rfl | rfl | rfl <;> trivial
  exact ⟨s,hframes,hend,
    ((wal_durability (fun _ => 0) smallBound hframes).2.2 1 hend).2⟩

/-- Right after `create` the file is empty: the header waits in the first group. -/
theorem created_file_lacks_header :
    ¬ ∀ (bound : GroupBound) (first : LogSeq) (es : List Event) (s : System),
      Run (step (fun _ => 0) bound) (FramesRecords fun _ => 0) (created first) es s →
      ∃ frames,s.file = headerBytes first++frames ∧
        frames <+: framesBytes (fun _ => 0) s.staged := by
  intro h
  obtain ⟨frames,hfile,-⟩ := h smallBound 1 [] (created 1) (Run.refl _)
  have hlen:=congrArg List.length hfile
  rw [length_append,headerBytes_length] at hlen
  simp only [created,length_nil,walHeaderLen,Format.fileHeaderLen] at hlen
  omega

end Zeppelin.Wal
