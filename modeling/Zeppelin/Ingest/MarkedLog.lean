import Zeppelin.Ingest.StoreInvariant

namespace Zeppelin.Ingest
open Wal List

def Manifest.mark (m : Manifest) : U64 := maxWord m.logSeq m.graphAbsorbedThrough

/-- What recovery reads of the log. -/
def Manifest.low (m : Manifest) : U64 := minWord m.logSeq m.graphAbsorbedThrough

def Manifest.openRows (m : Manifest) : List (U64 × U64) :=
  manifestBumps m.logSeq m.graphAbsorbedThrough m.graph

/-- The batches whose generations a recovery counts. -/
def StoreState.replayed (s : StoreState) : List CommittedBatch := above s.manifest.mark s.batches

theorem minWord_le_maxWord {w : ℕ} (a b : BitVec w) : minWord a b ≤ maxWord a b := by
  unfold minWord maxWord
  split
  · assumption
  · exact BitVec.le_of_lt (BitVec.not_le.mp ‹_›)

theorem maxWord_eq_or {w : ℕ} (a b : BitVec w) : maxWord a b = b ∨ maxWord a b = a := by
  unfold maxWord
  split
  · exact .inl rfl
  · exact .inr rfl

theorem minWord_eq_or {w : ℕ} (a b : BitVec w) : minWord a b = a ∨ minWord a b = b := by
  unfold minWord
  split
  · exact .inl rfl
  · exact .inr rfl

theorem maxWord_le {w : ℕ} {a b c : BitVec w} (ha : a ≤ c) (hb : b ≤ c) : maxWord a b ≤ c := by
  rcases maxWord_eq_or a b with heq | heq <;> rw [heq] <;> assumption

theorem Manifest.le_mark (m : Manifest) : m.logSeq ≤ m.mark ∧ m.graphAbsorbedThrough ≤ m.mark :=
  le_maxWord ..

def assignedCommits (base : ℕ) (rows : List (U64 × U64)) (batches : List CommittedBatch) :
    List RecoveredGraphCommit :=
  (assign base rows batches).flatMap fun a => graphCommits a.1 (BitVec.ofNat 64 a.2)

section Store
variable (hooks : StoreHooks)

theorem storeRecords_first (xxh3 : Bytes → U64) (first : LogSeq) (log : List Appended) :
    retainedFirstSeq (storeRecords xxh3 first log)
      (first+BitVec.ofNat 64 (logRecords log).length) = first := by
  unfold retainedFirstSeq storeRecords
  cases logRecords log with
  | nil => exact BitVec.add_zero _
  | cons f fs => rfl

theorem storeRecords_range {xxh3 : Bytes → U64} {first : LogSeq} {log : List Appended}
    {r : VisibleRecord} (h : r ∈ storeRecords xxh3 first log)
    (hlt : first.toNat+(logRecords log).length ≤ 2^64) :
    first.toNat ≤ r.seq.toNat ∧ ∃ f ∈ logRecords log,f.1 = r.op := by
  obtain ⟨record,hrecord,rfl⟩ := mem_map.mp h
  obtain ⟨hle,-,hf⟩ := numbered_range hrecord hlt
  exact ⟨hle,_,hf,rfl⟩

/-- Marks between the batches, and no graph commit behind the graph's mark that the other one
hides. -/
structure Marked (s : StoreState) : Prop where
  log : s.Logged hooks
  logSeq : Boundary s.first s.log s.manifest.logSeq
  graphMark : Boundary s.first s.log s.manifest.graphAbsorbedThrough
  mark_le : s.manifest.mark ≤ s.durableEnd
  early : ∀ b ∈ s.batches,b.lastSeq ≤ s.manifest.mark → ∀ m ∈ b.members,∀ bytes,
    m.2.2 = .graphCommit bytes → m.1 ≤ s.manifest.graphAbsorbedThrough

variable {hooks} {s : StoreState}

theorem Marked.mark (h : Marked hooks s) : Boundary s.first s.log s.manifest.mark := by
  unfold Manifest.mark
  rcases maxWord_eq_or s.manifest.logSeq s.manifest.graphAbsorbedThrough with heq | heq
  · rw [heq]
    exact h.graphMark
  · rw [heq]
    exact h.logSeq

theorem Marked.behind (h : Marked hooks s) {b : CommittedBatch} (hb : b ∈ s.replayed) :
    Behind s.manifest.mark b :=
  h.mark.behind h.log (mem_above.mp hb).1 (mem_above.mp hb).2

theorem Marked.committed (h : Marked hooks s) :
    committedBatches hooks.xxh3 hooks.validateEnvelope s.decision (storeRecords hooks.xxh3 s.first s.log)
        s.manifest.low = .ok (above s.manifest.low s.batches) := by
  refine Boundary.committed ?_ h.log
  unfold Manifest.low
  rcases minWord_eq_or s.manifest.logSeq s.manifest.graphAbsorbedThrough with heq | heq
  · rw [heq]
    exact h.logSeq
  · rw [heq]
    exact h.graphMark

theorem Marked.refuses_nothing (h : Marked hooks s) :
    refuseGraphRecords s.manifest.graph.isSome (storeRecords hooks.xxh3 s.first s.log) = .ok () := by
  refine refuseGraphRecords_ok (h.log.ops.imp_right fun hops r hr => ?_)
  obtain ⟨-,f,hf,hop⟩ := storeRecords_range hr h.log.room.le
  rw [← hop]
  exact hops f hf

def StoreState.start (hooks : StoreHooks) (s : StoreState) : Except StoreError U64 :=
  startGeneration s.manifest.generation s.manifest.logSeq s.manifest.graphAbsorbedThrough
    s.manifest.graph (storeRecords hooks.xxh3 s.first s.log) s.nextSeq (above s.manifest.low s.batches)

def StoreState.replay (hooks : StoreHooks) (s : StoreState) : Except StoreError Tail :=
  replayTail hooks.xxh3 hooks.validateEnvelope hooks.validateColumns s.manifest.generation s.manifest.logSeq
    s.manifest.graphAbsorbedThrough s.manifest.graph s.manifest.graph.isSome
    (storeRecords hooks.xxh3 s.first s.log) s.nextSeq s.accepted

theorem Marked.replay_eq (h : Marked hooks s) :
    s.replay hooks = replayCommitted hooks.validateColumns s.manifest.generation s.manifest.logSeq
      s.manifest.graphAbsorbedThrough s.manifest.graph s.manifest.graph.isSome
      (storeRecords hooks.xxh3 s.first s.log) s.nextSeq (above s.manifest.low s.batches) := by
  have hcommitted:=h.committed
  rw [StoreState.replay,replayTail,h.refuses_nothing,ok_bind]
  rw [show decisionIn s.accepted = s.decision from rfl,← Manifest.low,hcommitted,ok_bind]

/-- The replay counts the batches behind both marks on top of its start. -/
theorem Marked.replay_counts (h : Marked hooks s) {start : U64} (hstart : s.start hooks = .ok start)
    (hbumps : bumpTotal s.manifest.openRows ≤ start.toNat) :
    Counts (start.toNat+s.replayed.length) (s.replay hooks) fun tail =>
      tail.generation.toNat = start.toNat+s.replayed.length ∧
      tail.graph = assignedCommits (start.toNat-bumpTotal s.manifest.openRows)
        s.manifest.openRows s.replayed := by
  obtain ⟨ear,hsplit,hear⟩ := h.mark.above_split h.log
    (minWord_le_maxWord s.manifest.logSeq s.manifest.graphAbsorbedThrough)
  rw [h.replay_eq]
  have hcounts:=replayCommitted_counts hooks.validateColumns s.manifest.logSeq
    s.manifest.graphAbsorbedThrough s.manifest.graph.isSome hsplit hstart
    (fun b hb => ?_) (fun b hb => h.behind hb)
    (fun b hb => h.log.replayable b (mem_above.mp hb).1) hbumps
  · exact hcounts.imp fun tail htail => ⟨htail.1,htail.2.1⟩
  · obtain ⟨hmem,hle⟩ := hear b hb
    exact ⟨hle,h.logSeq.whole h.log hmem,h.graphMark.whole h.log hmem,h.early b hmem hle⟩

theorem Marked.of_commits {t : StoreState} (hlog : t.Logged hooks)
    (hlogSeq : Boundary t.first t.log t.manifest.logSeq)
    (hgraphMark : Boundary t.first t.log t.manifest.graphAbsorbedThrough)
    (hle : t.manifest.mark ≤ t.durableEnd)
    (hthrough : CommitsThrough t.manifest.graphAbsorbedThrough t.batches) :
    Marked hooks t :=
  ⟨hlog,hlogSeq,hgraphMark,hle,fun b hb _ => hthrough b hb⟩

end Store

section Steps
variable {hooks : StoreHooks} {s t : StoreState} {a : Appended} {m : Manifest} {image : List Appended}

/-- The log and its marks after an append. -/
theorem Marked.append (h : Marked hooks s) {accepted : List TransactionBinding}
    (hsame : SameDecisions s.decision (decisionIn accepted) s.log)
    (happ : Appendable hooks s accepted a) (hfirst : t.first = s.first) (hlog : t.log = s.log++[a])
    (haccepted : t.accepted = accepted) (hmanifest : t.manifest = s.manifest) :
    Marked hooks t ∧ t.batches = s.batches++
      expectedBatches (decisionIn accepted) s.nextSeq [a] ∧ s.durableEnd ≤ t.durableEnd := by
  obtain ⟨hok,hbatches⟩ := h.log.concat hsame happ
  have hbatches' : t.batches = s.batches++expectedBatches (decisionIn accepted) s.nextSeq [a] := by
    rw [StoreState.batches,StoreState.decision,hfirst,hlog,haccepted]
    exact hbatches
  have hend:=Appendable.durableEnd h.log happ hfirst hlog
  have hle : s.durableEnd ≤ t.durableEnd := BitVec.le_def.mpr (by omega)
  refine ⟨⟨?_,?_,?_,?_,?_⟩,hbatches',hle⟩
  · rw [StoreState.Logged,StoreState.decision,hfirst,hlog,haccepted,hmanifest]
    exact hok
  · rw [hfirst,hlog,hmanifest]
    exact h.logSeq.concat a
  · rw [hfirst,hlog,hmanifest]
    exact h.graphMark.concat a
  · rw [hmanifest]
    exact BitVec.le_trans h.mark_le hle
  · rw [hbatches',hmanifest]
    intro b hb hmark
    rcases mem_append.mp hb with hb | hb
    · exact h.early b hb hmark
    · have hbehind:=(behind_durableEnd h.log happ b hb).1
      exact absurd hbehind (BitVec.not_lt.mpr (BitVec.le_trans hmark h.mark_le))

theorem Marked.publish (h : Marked hooks s) (hlogSeq : m.logSeq = s.manifest.logSeq)
    (hgraphMark : m.graphAbsorbedThrough = s.manifest.graphAbsorbedThrough)
    (hgraph : m.graph.isSome = s.manifest.graph.isSome) :
    Marked hooks { s with manifest := m } := by
  have hmark : m.mark = s.manifest.mark := by rw [Manifest.mark,Manifest.mark,hlogSeq,hgraphMark]
  have hlog:=h.log
  rw [StoreState.Logged,← hgraph] at hlog
  refine ⟨hlog,?_,?_,?_,?_⟩
  · rw [hlogSeq]
    exact h.logSeq
  · rw [hgraphMark]
    exact h.graphMark
  · rw [hmark]
    exact h.mark_le
  · rw [hmark,hgraphMark]
    exact h.early

theorem rewrite_durableEnd (h : s.Logged hooks) (himage : (s.rewrite image).Logged hooks) :
    s.durableEnd ≤ (s.rewrite image).durableEnd := by
  have hend:=durableEnd_toNat h
  have hend':=durableEnd_toNat himage
  have hnext : (s.rewrite image).nextSeq.toNat = s.nextSeq.toNat+(logRecords image).length :=
    nextSeq_toNat himage
  exact BitVec.le_def.mpr (by omega)

/-- Another log behind the last one, with no graph commit in it. -/
theorem Marked.rewrite (h : Marked hooks s) (himage : (s.rewrite image).Logged hooks)
    (hdocuments : ∀ b ∈ (s.rewrite image).batches,∀ member ∈ b.members,∀ bytes,
      member.2.2 ≠ .graphCommit bytes) :
    Marked hooks (s.rewrite image) ∧ (s.rewrite image).replayed = (s.rewrite image).batches := by
  have hend:=durableEnd_toNat h.log
  -- both marks stand behind the new log
  have hbehind : ∀ mark : U64,mark ≤ s.durableEnd → Boundary s.nextSeq image mark := fun mark hmark =>
    .inl (BitVec.lt_def.mpr (by have := BitVec.le_def.mp hmark; omega))
  refine ⟨.of_commits himage (hbehind _ (BitVec.le_trans s.manifest.le_mark.1 h.mark_le))
    (hbehind _ (BitVec.le_trans s.manifest.le_mark.2 h.mark_le))
    (BitVec.le_trans h.mark_le (rewrite_durableEnd h.log himage))
    fun b hb member hmember bytes hbytes => absurd hbytes (hdocuments b hb member hmember bytes),?_⟩
  exact above_self fun b hb => ((behind_durableEnd h.log himage b hb).mono h.mark_le).1

end Steps

end Zeppelin.Ingest
