import Zeppelin.Ingest.BatchRecovery
import Zeppelin.Ingest.ReplayTail

namespace Zeppelin.Ingest
open Wal List

theorem add_ofNat_toNat {seq : LogSeq} {n : ℕ} (h : seq.toNat+n < 2^64) :
    (seq+BitVec.ofNat 64 n).toNat = seq.toNat+n := by
  rw [BitVec.toNat_add,BitVec.toNat_ofNat]
  omega

theorem numbered_range {seq : LogSeq} {rs : List (U16 × Bytes)} {r : WalRecord}
    (h : r ∈ numbered seq rs) (hlt : seq.toNat+rs.length ≤ 2^64) :
    seq.toNat ≤ r.seq.toNat ∧ r.seq.toNat < seq.toNat+rs.length ∧ (r.op,r.payload) ∈ rs := by
  induction rs generalizing seq with
  | nil => cases h
  | cons a rs ih =>
    obtain ⟨op,payload⟩ := a
    rw [length_cons] at hlt ⊢
    rcases mem_cons.mp h with rfl | h
    · exact ⟨le_rfl,by simp only; omega,mem_cons_self ..⟩
    · cases rs with
      | nil => cases h
      | cons b rs =>
        have hone : (seq+1).toNat = seq.toNat+1 := add_ofNat_toNat (n := 1) (by simp at hlt; omega)
        obtain ⟨h1,h2,h3⟩ := ih h (by omega)
        exact ⟨by omega,by omega,mem_cons_of_mem _ h3⟩

theorem numbered_mem (seq : LogSeq) (rs : List (U16 × Bytes)) {i : ℕ} (h : i < rs.length) :
    ∃ r ∈ numbered seq rs,r.seq = seq+BitVec.ofNat 64 i := by
  induction rs generalizing seq i with
  | nil => cases h
  | cons a rs ih =>
    obtain ⟨op,payload⟩ := a
    cases i with
    | zero => exact ⟨_,mem_cons_self ..,by simp⟩
    | succ i =>
      obtain ⟨r,hr,hseq⟩ := ih (seq+1) (Nat.lt_of_succ_lt_succ h)
      refine ⟨r,mem_cons_of_mem _ hr,?_⟩
      have hsucc:=seq_add_succ seq (p := i+1) (Nat.succ_pos i)
      rw [Nat.add_sub_cancel] at hsucc
      rw [hseq,hsucc]

theorem membersFrom_range {seq : LogSeq} {ms : List (U16 × MutationPayload)}
    {m : LogSeq × U16 × MutationPayload} (h : m ∈ membersFrom seq ms)
    (hlt : seq.toNat+ms.length ≤ 2^64) :
    seq.toNat ≤ m.1.toNat ∧ m.1.toNat < seq.toNat+ms.length := by
  induction ms generalizing seq with
  | nil => cases h
  | cons a ms ih =>
    rw [length_cons] at hlt ⊢
    rcases mem_cons.mp h with rfl | h
    · exact ⟨le_rfl,by simp only; omega⟩
    · cases ms with
      | nil => cases h
      | cons b ms =>
        have hone : (seq+1).toNat = seq.toNat+1 := add_ofNat_toNat (n := 1) (by simp at hlt; omega)
        obtain ⟨h1,h2⟩ := ih h (by omega)
        exact ⟨by omega,by omega⟩

section Decision
variable (xxh3 : Bytes → U64) (validateEnvelope : Bytes → Except GraphWalError Unit)
variable {decision : TransactionBinding → Option TransactionBinding}

variable {validateEnvelope} in
theorem Batch.frames_length {b : Batch} {frames : List (U16 × Bytes)}
    (h : b.frames validateEnvelope = .ok frames) : frames.length = b.members.length := by
  cases b with
  | standalone m =>
    obtain rfl := Except.ok.inj h
    rfl
  | upserts records =>
    obtain ⟨framed,hframed,rfl⟩ := map_eq_ok h
    have hlen : framed.length = records.length := by
      unfold frameBatch at hframed
      split at hframed
      · obtain rfl := Except.ok.inj hframed
        rw [length_map]
      · obtain ⟨count,-,hframed⟩ := bind_eq_ok hframed
        rw [frameMembers_length hframed,length_map]
    rw [length_map,hlen,Batch.members,length_map]
  | mixed members => rw [encodeMembers_length h,Batch.members,length_map]
  | prepared binding members => rw [encodeMembers_length h,Batch.members,length_map]

variable {validateEnvelope} in
theorem Appended.Valid.members_length {first : LogSeq} {a : Appended}
    (h : a.Valid validateEnvelope decision first) : a.frames.length = a.batch.members.length :=
  Batch.frames_length h.frames

variable {validateEnvelope} in
theorem ValidLog.records_length {first : LogSeq} {log : List Appended}
    (h : ValidLog validateEnvelope decision first log) :
    (logRecords log).length = (log.map Appended.present).sum := by
  have hnil : ValidLog validateEnvelope decision first (log++[]) := by rwa [append_nil]
  exact hnil.append.1

variable {validateEnvelope} in
theorem Appended.Valid.prepared_end {first : LogSeq} {a : Appended}
    (h : a.Valid validateEnvelope decision first) {binding : TransactionBinding}
    {members : List Member} (hbatch : a.batch = .prepared binding members)
    (hwhole : a.present = a.frames.length) : binding.lastSeq.toNat+1 = first.toNat+a.present := by
  have hframes:=h.frames
  have hne:=h.nonempty
  have hcountable:=h.countable
  rw [hbatch] at hframes hne hcountable
  have hlen:=encodeMembers_length hframes
  simp only [Batch.members,length_map] at hcountable
  have hcount:=prepared_count hframes (by simpa [Batch.members] using hne)
  obtain ⟨hle,hnat⟩ := TransactionBinding.memberCount_ok hcount
  rw [(h.binding binding members hbatch).1] at hle hnat
  rw [BitVec.toNat_ofNat,Nat.mod_eq_of_lt hcountable] at hnat
  omega

structure Within (lo hi : ℕ) (batch : CommittedBatch) : Prop where
  lo_le : lo ≤ batch.lastSeq.toNat
  lt_hi : batch.lastSeq.toNat < hi
  members : ∀ m ∈ batch.members,lo ≤ m.1.toNat ∧ m.1.toNat < hi

theorem Within.mono {lo hi lo' hi' : ℕ} {batch : CommittedBatch} (h : Within lo hi batch)
    (hlo : lo' ≤ lo) (hhi : hi ≤ hi') : Within lo' hi' batch :=
  ⟨hlo.trans h.lo_le,h.lt_hi.trans_le hhi,fun m hm =>
    ⟨hlo.trans (h.members m hm).1,(h.members m hm).2.trans_le hhi⟩⟩

variable {first : LogSeq} {log : List Appended} {batch : CommittedBatch} {mark : U64}

variable {validateEnvelope} in
theorem expectedBatches_within (hvalid : ValidLog validateEnvelope decision first log)
    (hlt : first.toNat+(logRecords log).length < 2^64) :
    ∀ batch ∈ expectedBatches decision first log,
      Within first.toNat (first.toNat+(logRecords log).length) batch := by
  induction log generalizing first with
  | nil => simp [expectedBatches]
  | cons a log ih =>
    obtain ⟨ha,hlog⟩ := hvalid
    have hrecords : (logRecords (a::log)).length = a.present+(logRecords log).length := by
      rw [logRecords,flatMap_cons,length_append,ha.records_length]
      rfl
    rw [hrecords] at hlt ⊢
    have hnext : (first+BitVec.ofNat 64 a.present).toNat = first.toNat+a.present :=
      add_ofNat_toNat (by omega)
    intro batch hbatch
    rw [expectedBatches_cons] at hbatch
    rcases mem_append.mp hbatch with hbatch | hbatch
    · simp only [expectedBatches,append_nil] at hbatch
      split at hbatch
      · rename_i hwhole
        rw [mem_singleton] at hbatch
        subst hbatch
        have hmembers:=ha.members_length
        have hpos:=length_pos_iff.mpr ha.nonempty
        have hlast : (first+BitVec.ofNat 64 (a.present-1)).toNat =
            first.toNat+(a.present-1) := add_ofNat_toNat (by omega)
        refine ⟨by simp only [hlast]; omega,by simp only [hlast]; omega,?_⟩
        intro m hm
        have hrange:=membersFrom_range hm (by omega)
        omega
      · cases hbatch
    · have hin:=ih hlog (by omega) batch hbatch
      exact hin.mono (by omega) (by omega)

theorem Within.behind {lo hi : ℕ} (h : Within lo hi batch)
    (hmark : mark.toNat < lo) : Behind mark batch := by
  refine ⟨BitVec.lt_def.mpr (by have := h.lo_le; omega),?_⟩
  intro m hm
  exact BitVec.lt_def.mpr (by have := (h.members m hm).1; omega)

theorem splitsBatch_of_le (h : batch.lastSeq ≤ mark) : splitsBatch batch mark = false := by
  have hnot : ¬ mark < batch.lastSeq := BitVec.not_lt.mpr h
  unfold splitsBatch
  cases batch.members.head? with
  | none => rfl
  | some m => simp [hnot]

def showRecord (r : WalRecord) : VisibleRecord :=
  ⟨r.seq,r.op,recordBytes xxh3 r,0,(recordBytes xxh3 r).length⟩

def storeRecords (first : LogSeq) (log : List Appended) : List VisibleRecord :=
  (numbered first (logRecords log)).map (showRecord xxh3)

def FitsRecord (log : List Appended) : Prop := ∀ f ∈ logRecords log,f.2.length < 2^32

theorem storeRecords_shows (hfits : FitsRecord log)
    (hlt : first.toNat+(logRecords log).length ≤ 2^64) :
    List.Forall₂ (Shows xxh3) (storeRecords xxh3 first log) (numbered first (logRecords log)) := by
  rw [storeRecords,forall₂_map_left_iff,forall₂_same]
  intro r hr
  exact shows_recordBytes xxh3 r (hfits _ (numbered_range hr hlt).2.2)

def SameDecisions (decision decision' : TransactionBinding → Option TransactionBinding)
    (log : List Appended) : Prop :=
  ∀ a ∈ log,∀ binding members,a.batch = .prepared binding members →
    decision binding = decision' binding

theorem decisionIn_cons_of_ne {decisions : List TransactionBinding} {b binding : TransactionBinding}
    (h : b.transaction ≠ binding.transaction) :
    decisionIn (binding::decisions) b = decisionIn decisions b :=
  find?_cons_of_neg (by simpa using h.symm)

variable {decision' : TransactionBinding → Option TransactionBinding} {log : List Appended}

variable {validateEnvelope} in
theorem ValidLog.congr {first : LogSeq} (hvalid : ValidLog validateEnvelope decision first log)
    (hsame : SameDecisions decision decision' log) : ValidLog validateEnvelope decision' first log := by
  induction log generalizing first with
  | nil => trivial
  | cons a log ih =>
    obtain ⟨ha,hlog⟩ := hvalid
    refine ⟨⟨ha.frames,ha.decodes,ha.nonempty,ha.countable,ha.present_le,?_⟩,
      ih hlog fun a ha => hsame a (mem_cons_of_mem _ ha)⟩
    intro binding members hbatch
    rw [← hsame a (mem_cons_self ..) binding members hbatch]
    exact ha.binding binding members hbatch

theorem expectedBatches_congr (hsame : SameDecisions decision decision' log) (first : LogSeq) :
    expectedBatches decision first log = expectedBatches decision' first log := by
  induction log generalizing first with
  | nil => rfl
  | cons a log ih =>
    have hdecided : a.batch.Decided decision ↔ a.batch.Decided decision' := by
      have ha:=hsame a (mem_cons_self ..)
      cases hbatch : a.batch with
      | prepared binding members =>
        simp only [Batch.Decided,ha binding members hbatch]
      | standalone m => exact Iff.rfl
      | upserts records => exact Iff.rfl
      | mixed members => exact Iff.rfl
    simp only [expectedBatches,hdecided,ih fun a ha => hsame a (mem_cons_of_mem _ ha)]

end Decision

/-- What a recovery calls besides the code of this model. -/
structure StoreHooks where
  xxh3 : Bytes → U64
  validateEnvelope : Bytes → Except GraphWalError Unit
  validateColumns : IngestDocument → Except String Unit

section Log
variable (hooks : StoreHooks)

/-- A log that the encoders and the writer took. A store without a graph wrote no graph record. -/
structure LogOk (graph : Bool) (decision : TransactionBinding → Option TransactionBinding)
    (first : LogSeq) (log : List Appended) : Prop where
  valid : ValidLog hooks.validateEnvelope decision first log
  fits : FitsRecord log
  first_pos : 0 < first.toNat
  room : first.toNat+(logRecords log).length < 2^64
  ops : graph = true ∨ ∀ f ∈ logRecords log,f.1 ≠ graphCommitV1 ∧ f.1 ≠ mixedBatchMemberV1
  replayable : ∀ b ∈ expectedBatches decision first log,Replayable hooks.validateColumns graph b

end Log

structure StoreState where
  first : LogSeq
  log : List Appended
  manifest : Manifest
  accepted : List TransactionBinding
  live : U64
  durable : U64
  returned : List U64
  history : List (CommittedBatch × U64)
  fenced : Bool                        -- a publication failed, only a reopen helps

inductive StoreEvent where
  | abandon (a : Appended)             -- a run that never commits
  | commit (a : Appended)              -- a local batch reaches the log
  | namespaceBatch (a : Appended)      -- a prepared run is decided and adopted
  | publishTombstones                  -- sealed tombstones of logged batches
  | bumpManifest                       -- a merge, a partition drop, a purged segment
  | sealManifest (graphChanged : Bool)
  | truncate                           -- a sealed log shrinks to its header
  | checkpoint (mark : U64) (emptied : Bool)  -- the graph is folded through `mark`
  | purge (image : List Appended) (published : Bool)  -- a rewritten log, and its publication
  | acknowledge
  | reopen (repair : Bool)             -- `repair`: sealed tombstones were missing

def StoreState.decision (s : StoreState) : TransactionBinding → Option TransactionBinding :=
  decisionIn s.accepted

def StoreState.batches (s : StoreState) : List CommittedBatch :=
  expectedBatches s.decision s.first s.log

def StoreState.nextSeq (s : StoreState) : LogSeq :=
  s.first+BitVec.ofNat 64 (logRecords s.log).length

def StoreState.durableEnd (s : StoreState) : U64 := s.nextSeq-1

/-- A publication that counts the log up to `boundary` in `generation`. -/
def Manifest.cutAt (m : Manifest) (generation boundary : U64) : Manifest :=
  { m with
    generation
    graph := m.graph.map fun g => { g with generationAbsorbedThrough := some boundary } }

def Manifest.recordBumps (boundary : U64) : ℕ → Manifest → Except StoreError Manifest
  | 0,m => .ok m
  | n+1,m => do
    let m ← m.recordGenerationBump boundary
    recordBumps boundary n m

def Manifest.stageNamespace (m : Manifest) (current generation boundary : U64) :
    Except StoreError Manifest :=
  (m.cutAt generation boundary).recordBumps boundary (generation.toNat-current.toNat-1)

/-- The manifest of a seal through `absorbed` (`seal_active_locked`,
`prepare_native_graph_seal`). -/
def Manifest.sealThrough (m : Manifest) (generation absorbed : U64) (graphChanged : Bool) :
    Manifest where
  generation
  logSeq := absorbed
  graph := m.graph.map fun g =>
    if graphChanged then ⟨absorbed,some absorbed,[(absorbed,1)]⟩
    else { g with graphAbsorbedThrough := absorbed }

/-- `checkpoint_manifest_locked`; `emptied`: no document waits for a seal. -/
def Manifest.checkpoint (m : Manifest) (generation mark durableEnd : U64) (emptied : Bool) :
    Except StoreError Manifest :=
  Manifest.recordGenerationBump
    { generation
      logSeq := if emptied then durableEnd else m.logSeq
      graph := m.graph.map fun g => ⟨maxWord mark g.graphAbsorbedThrough,none,[]⟩ } durableEnd

/-- The last publication of a purge: one row at the end of the old log takes all increments, and
the new log is counted. -/
def Manifest.foldBumps (m : Manifest) (generation retiredThrough durableEnd : U64) :
    Except StoreError Manifest :=
  match m.graph with
  | none => .ok m
  | some g => do
    let count ← restoreAllBumps 0 g.generationBumps
    return { m with
      generation
      graph := some { g with
        generationAbsorbedThrough := some durableEnd
        generationBumps := if g.generationBumps = [] then [] else [(retiredThrough,count)] } }

def StoreState.recordHistory (s : StoreState) (a : Appended) (accepted : List TransactionBinding)
    (generation : U64) : List (CommittedBatch × U64) :=
  s.history++(expectedBatches (decisionIn accepted) s.nextSeq [a]).map fun b => (b,generation)

/-- The store with another log behind its last one, in which no prepared run stands. -/
def StoreState.rewrite (s : StoreState) (image : List Appended) : StoreState :=
  { s with first := s.nextSeq,log := image,accepted := [] }

section Store
variable (hooks : StoreHooks)

def StoreState.recover (s : StoreState) : Except StoreError Tail :=
  recoverTail hooks.xxh3 hooks.validateEnvelope hooks.validateColumns s.manifest
    (storeRecords hooks.xxh3 s.first s.log)
    s.nextSeq s.accepted

def storeStep (s : StoreState) : StoreEvent → Option StoreState
  | .abandon a => some { s with log := s.log++[a] }
  | .commit a => do
    let generation ← checkedAdd s.live 1
    return { s with
      log := s.log++[a]
      durable := generation
      history := s.recordHistory a s.accepted generation }
  | .namespaceBatch a =>
    match a.batch with
    | .prepared binding _ => do
      let generation ← checkedAdd s.live 1
      let manifest ← (s.manifest.stageNamespace s.live binding.finalGeneration
        binding.lastSeq).toOption
      return { s with
        log := s.log++[a]
        manifest
        accepted := binding::s.accepted
        durable := binding.finalGeneration
        history := s.recordHistory a (binding::s.accepted) generation }
    | _ => none
  | .publishTombstones => some { s with manifest := s.manifest.cutAt s.durable s.durableEnd }
  | .bumpManifest => do
    let generation ← checkedAdd (maxWord s.live s.manifest.generation) 1
    let manifest ← ({ s.manifest with generation }.recordGenerationBump s.durableEnd).toOption
    return { s with manifest,durable := generation }
  | .sealManifest graphChanged => do
    let generation ← checkedAdd s.live 1
    return { s with
      manifest := s.manifest.sealThrough generation s.durableEnd graphChanged
      durable := generation }
  | .truncate => some (s.rewrite [])
  | .checkpoint mark emptied => do
    let generation ← checkedAdd s.live 1
    let manifest ← (s.manifest.checkpoint generation mark s.durableEnd emptied).toOption
    return { s with manifest,durable := generation }
  | .purge image published =>
    let t:=s.rewrite image
    if published then do
      let manifest ← (s.manifest.foldBumps s.live s.durableEnd t.durableEnd).toOption
      return { t with manifest }
    else some { t with fenced := true }
  | .acknowledge => some { s with live := s.durable,returned := s.durable::s.returned }
  | .reopen repair =>
    match s.recover hooks with
    | .error _ => none
    | .ok tail =>
      if !repair then
        some { s with
          live := tail.generation
          durable := tail.generation
          returned := tail.generation::s.returned
          fenced := false }
      else do
        -- without a graph the repair is a generation of its own
        let generation ←
          if s.manifest.graph.isSome then some tail.generation else checkedAdd tail.generation 1
        return { s with
          manifest := s.manifest.cutAt generation s.durableEnd
          live := generation
          durable := generation
          returned := generation::s.returned
          fenced := false }

/-- No graph commit of the batches stands behind `mark`. -/
def CommitsThrough (mark : U64) (batches : List CommittedBatch) : Prop :=
  ∀ b ∈ batches,∀ m ∈ b.members,∀ bytes,m.2.2 = .graphCommit bytes → m.1 ≤ mark

/-- What a purge may write: the rows and tombstones of the active segment, which came out of the
log; on a graph store as one batch. -/
structure Rewritable (s : StoreState) (image : List Appended) : Prop where
  log : LogOk hooks s.manifest.graph.isSome (decisionIn []) s.nextSeq image
  documents : ∀ b ∈ expectedBatches (decisionIn []) s.nextSeq image,∀ m ∈ b.members,∀ bytes,
    m.2.2 ≠ .graphCommit bytes
  logged : image ≠ [] → s.batches ≠ []
  framed : s.manifest.graph.isSome = true → image.length ≤ 1

def Appendable (s : StoreState) (accepted : List TransactionBinding) (a : Appended) : Prop :=
  LogOk hooks s.manifest.graph.isSome (decisionIn accepted) s.nextSeq [a]

/-- What the callers check. A namespace batch with deletes of sealed or logged rows goes on to a
purge before it is acknowledged. -/
def Admitted (s : StoreState) : StoreEvent → Prop
  | .abandon a => s.live = s.durable ∧ Appendable hooks s s.accepted a ∧
      expectedBatches s.decision s.nextSeq [a] = []
  | .commit a => s.live = s.durable ∧ Appendable hooks s s.accepted a ∧
      (expectedBatches s.decision s.nextSeq [a]).length = 1 ∧
      ∀ binding members,a.batch ≠ .prepared binding members
  | .namespaceBatch a => s.live = s.durable ∧ ∃ binding members,a.batch = .prepared binding members ∧
      Appendable hooks s (binding::s.accepted) a ∧
      (expectedBatches (decisionIn (binding::s.accepted)) s.nextSeq [a]).length = 1 ∧
      (s.live.toNat+1 = binding.finalGeneration.toNat ∨
        s.live.toNat+2 = binding.finalGeneration.toNat) ∧
      ∀ b : TransactionBinding,(b ∈ s.accepted ∨ ∃ a' ∈ s.log,∃ ms,a'.batch = .prepared b ms) →
        b.transaction ≠ binding.transaction
  | .publishTombstones => True
  | .bumpManifest => s.live = s.durable
  | .sealManifest _ => s.live = s.durable
  | .truncate => s.manifest.logSeq = s.durableEnd ∧ s.manifest.graphAbsorbedThrough = s.durableEnd
  | .checkpoint mark _ => s.live = s.durable ∧ s.manifest.graph.isSome = true ∧
      (mark ≤ s.manifest.graphAbsorbedThrough ∨ ∃ b ∈ s.batches,b.lastSeq = mark) ∧
      CommitsThrough (maxWord mark s.manifest.graphAbsorbedThrough) s.batches
  | .purge image _ => s.live = s.durable ∧ s.durable ≤ s.manifest.generation ∧
      CommitsThrough s.manifest.graphAbsorbedThrough s.batches ∧
      Rewritable hooks s image
  | .acknowledge => True
  | .reopen _ => True

def Enabled (s : StoreState) (e : StoreEvent) : Prop :=
  (s.fenced = true → ∃ repair,e = .reopen repair) ∧ Admitted hooks s e

end Store

def StoreState.fresh (generation : U64) (graph : Bool) : StoreState where
  first := 1
  log := []
  manifest := ⟨generation,0,if graph then some ⟨0,some 0,[(0,1)]⟩ else none⟩
  accepted := []
  live := generation
  durable := generation
  returned := [generation]
  history := []
  fenced := false

end Zeppelin.Ingest
