import Zeppelin.Ingest.StoreMachine

namespace Zeppelin.Ingest
open Wal List

def EndsAt (first : LogSeq) (log : List Appended) (mark : U64) : Prop :=
  ∃ pre post,log = pre++post ∧ mark.toNat+1 = first.toNat+(logRecords pre).length

/-- `mark` is behind the log, or at the end of one of its appends. -/
def Boundary (first : LogSeq) (log : List Appended) (mark : U64) : Prop :=
  mark < first ∨ EndsAt first log mark

def above (mark : U64) (batches : List CommittedBatch) : List CommittedBatch :=
  batches.filter fun b => mark < b.lastSeq

theorem mem_above {mark : U64} {batches : List CommittedBatch} {b : CommittedBatch} :
    b ∈ above mark batches ↔ b ∈ batches ∧ mark < b.lastSeq := by
  simp [above]

theorem above_self {mark : U64} {batches : List CommittedBatch}
    (h : ∀ b ∈ batches,mark < b.lastSeq) : above mark batches = batches := by
  rw [above,filter_eq_self]
  simpa using h

theorem above_nil {mark : U64} {batches : List CommittedBatch}
    (h : ∀ b ∈ batches,b.lastSeq ≤ mark) : above mark batches = [] := by
  rw [above,filter_eq_nil_iff]
  simpa using h

theorem above_append (mark : U64) (batches more : List CommittedBatch) :
    above mark (batches++more) = above mark batches++above mark more := filter_append ..

section Log
variable {validateEnvelope : Bytes → Except GraphWalError Unit} {hooks : StoreHooks} {graph : Bool}
  {decision decision' : TransactionBinding → Option TransactionBinding} {first : LogSeq}
  {log pre post : List Appended} {a : Appended} {mark mark' : U64} {b : CommittedBatch}

theorem ValidLog.concat (h : ValidLog validateEnvelope decision first log)
    (ha : a.Valid validateEnvelope decision
      (first+BitVec.ofNat 64 (logRecords log).length)) :
    ValidLog validateEnvelope decision first (log++[a]) := by
  induction log generalizing first with
  | nil => exact ⟨by simpa [logRecords] using ha,trivial⟩
  | cons b log ih =>
    obtain ⟨hb,hlog⟩ := h
    refine ⟨hb,ih hlog ?_⟩
    rwa [logRecords,flatMap_cons,length_append,hb.records_length,BitVec.ofNat_add,
      ← BitVec.add_assoc] at ha

theorem ValidLog.of_append (h : ValidLog validateEnvelope decision first (pre++post)) :
    ValidLog validateEnvelope decision first pre := by
  induction pre generalizing first with
  | nil => trivial
  | cons a pre ih => exact ⟨h.1,ih h.2⟩

theorem ValidLog.batches_append (h : ValidLog validateEnvelope decision first (pre++post)) :
    expectedBatches decision first (pre++post) = expectedBatches decision first pre++
      expectedBatches decision (first+BitVec.ofNat 64 (logRecords pre).length) post := by
  rw [expectedBatches_append,h.append.1]

theorem LogOk.within (h : LogOk hooks graph decision first log) :
    ∀ b ∈ expectedBatches decision first log,
      Within first.toNat (first.toNat+(logRecords log).length) b :=
  expectedBatches_within h.valid h.room

/-- A boundary parts the log and its batches. -/
theorem Boundary.parts (hmark : Boundary first log mark)
    (h : LogOk hooks graph decision first log) :
    ∃ pre post,log = pre++post ∧ (∀ r ∈ numbered first (logRecords pre),r.seq ≤ mark) ∧
      (∀ r ∈ numbered (first+BitVec.ofNat 64 (logRecords pre).length) (logRecords post),
        mark < r.seq) ∧
      (∀ b ∈ expectedBatches decision first pre,b.lastSeq ≤ mark) ∧
      ∀ b ∈ expectedBatches decision (first+BitVec.ofNat 64 (logRecords pre).length) post,
        Behind mark b := by
  have hroom:=h.room
  rcases hmark with hlt | ⟨pre,post,rfl,hend⟩
  · have hlt:=BitVec.lt_def.mp hlt
    have hzero : first+BitVec.ofNat 64 (logRecords []).length = first := BitVec.add_zero _
    refine ⟨[],log,rfl,by simp [logRecords,numbered],?_,by simp [expectedBatches],?_⟩
    · rw [hzero]
      intro r hr
      have hrange:=numbered_range hr hroom.le
      exact BitVec.lt_def.mpr (by omega)
    · rw [hzero]
      exact fun b hb => (h.within b hb).behind hlt
  · have hvalid:=h.valid
    rw [logRecords_append,length_append] at hroom
    have hnext : (first+BitVec.ofNat 64 (logRecords pre).length).toNat =
        first.toNat+(logRecords pre).length := add_ofNat_toNat (by omega)
    obtain ⟨hlen,hpost⟩ := hvalid.append
    rw [← hlen] at hpost
    refine ⟨pre,post,rfl,?_,?_,?_,?_⟩
    · intro r hr
      have hrange:=numbered_range hr (by omega)
      exact BitVec.le_def.mpr (by omega)
    · intro r hr
      have hrange:=numbered_range hr (by omega)
      exact BitVec.lt_def.mpr (by omega)
    · intro b hb
      have hin:=(expectedBatches_within hvalid.of_append (by omega) b hb).lt_hi
      exact BitVec.le_def.mpr (by omega)
    · intro b hb
      exact (expectedBatches_within hpost (by omega) b hb).behind (by omega)

theorem Boundary.behind (hmark : Boundary first log mark)
    (h : LogOk hooks graph decision first log)
    (hb : b ∈ expectedBatches decision first log) (hlt : mark < b.lastSeq) : Behind mark b := by
  obtain ⟨pre,post,rfl,-,-,hpre,hpost⟩ := hmark.parts h
  rw [h.valid.batches_append] at hb
  rcases mem_append.mp hb with hb | hb
  · exact absurd hlt (BitVec.not_lt.mpr (hpre b hb))
  · exact hpost b hb

theorem Boundary.whole (hmark : Boundary first log mark)
    (h : LogOk hooks graph decision first log)
    (hb : b ∈ expectedBatches decision first log) : splitsBatch b mark = false := by
  by_cases hlt : mark < b.lastSeq
  · exact splitsBatch_behind (hmark.behind h hb hlt)
  · exact splitsBatch_of_le (BitVec.not_lt.mp hlt)

/-- What stands above the lower mark, up to the higher one and behind it. -/
theorem Boundary.above_split (hmark : Boundary first log mark)
    (h : LogOk hooks graph decision first log) (hle : mark' ≤ mark) :
    ∃ ear,above mark' (expectedBatches decision first log) =
        ear++above mark (expectedBatches decision first log) ∧
      ∀ b ∈ ear,b ∈ expectedBatches decision first log ∧ b.lastSeq ≤ mark := by
  obtain ⟨pre,post,rfl,-,-,hpre,hpost⟩ := hmark.parts h
  rw [h.valid.batches_append,above_append,above_append,above_nil hpre,nil_append,
    above_self fun b hb => ((hpost b hb).mono hle).1,above_self fun b hb => (hpost b hb).1]
  refine ⟨_,rfl,fun b hb => ?_⟩
  have hearly:=(mem_above.mp hb).1
  exact ⟨mem_append_left _ hearly,hpre b hearly⟩

theorem Boundary.committed (hmark : Boundary first log mark)
    (h : LogOk hooks graph decision first log) :
    committedBatches hooks.xxh3 hooks.validateEnvelope decision (storeRecords hooks.xxh3 first log)
      mark =
      .ok (above mark (expectedBatches decision first log)) := by
  obtain ⟨pre,post,rfl,hskipped,hkept,hpre,hpost⟩ := hmark.parts h
  rw [h.valid.batches_append,above_append,above_nil hpre,nil_append,
    above_self fun b hb => (hpost b hb).1]
  exact committedBatches_shown hooks.xxh3 hooks.validateEnvelope decision h.valid
    (storeRecords_shows hooks.xxh3 h.fits h.room.le) hskipped hkept

theorem Boundary.concat (hmark : Boundary first log mark) (a : Appended) :
    Boundary first (log++[a]) mark := by
  rcases hmark with hlt | ⟨pre,post,rfl,hend⟩
  · exact .inl hlt
  · exact .inr ⟨pre,post++[a],append_assoc ..,hend⟩

theorem endsAt_lastSeq (h : ValidLog validateEnvelope decision first log)
    (hlt : first.toNat+(logRecords log).length < 2^64)
    (hb : b ∈ expectedBatches decision first log) : EndsAt first log b.lastSeq := by
  induction log generalizing first with
  | nil => cases hb
  | cons a log ih =>
    obtain ⟨ha,hlog⟩ := h
    have hone : logRecords [a] = a.records := by simp [logRecords]
    rw [logRecords,flatMap_cons,length_append,ha.records_length] at hlt
    rw [expectedBatches_cons] at hb
    rcases mem_append.mp hb with hb | hb
    · refine ⟨[a],log,rfl,?_⟩
      simp only [expectedBatches,append_nil] at hb
      split at hb
      · rename_i hwhole
        obtain rfl := mem_singleton.mp hb
        have hpos:=length_pos_iff.mpr ha.nonempty
        rw [← ha.members_length] at hpos
        rw [hone,ha.records_length,add_ofNat_toNat (by omega)]
        omega
      · cases hb
    · have hnext : (first+BitVec.ofNat 64 a.present).toNat = first.toNat+a.present :=
        add_ofNat_toNat (by omega)
      obtain ⟨pre,post,rfl,hend⟩ := ih hlog (by rw [hnext,logRecords]; omega) hb
      refine ⟨a::pre,post,rfl,?_⟩
      rw [logRecords,flatMap_cons,length_append,ha.records_length,← logRecords,hend,hnext]
      omega

theorem LogOk.concat (h : LogOk hooks graph decision first log)
    (hsame : SameDecisions decision decision' log)
    (ha : LogOk hooks graph decision'
      (first+BitVec.ofNat 64 (logRecords log).length) [a]) :
    LogOk hooks graph decision' first (log++[a]) ∧
      expectedBatches decision' first (log++[a]) = expectedBatches decision first log++
        expectedBatches decision' (first+BitVec.ofNat 64 (logRecords log).length) [a] := by
  have hnext:=add_ofNat_toNat h.room
  have hroom:=ha.room
  have hvalid:=(h.valid.congr hsame).concat ha.valid.1
  have hbatches:=hvalid.batches_append
  rw [← expectedBatches_congr hsame] at hbatches
  refine ⟨⟨hvalid,?_,h.first_pos,?_,?_,?_⟩,hbatches⟩
  · intro f hf
    rw [logRecords_append] at hf
    exact (mem_append.mp hf).elim (h.fits f) (ha.fits f)
  · rw [logRecords_append,length_append]
    omega
  · rcases h.ops with hgraph | hops
    · exact .inl hgraph
    · refine ha.ops.imp_right fun hops' f hf => ?_
      rw [logRecords_append] at hf
      exact (mem_append.mp hf).elim (hops f) (hops' f)
  · rw [hbatches]
    intro b hb
    exact (mem_append.mp hb).elim (h.replayable b) (ha.replayable b)

end Log

section Store
variable (hooks : StoreHooks)

def StoreState.Logged (s : StoreState) : Prop :=
  LogOk hooks s.manifest.graph.isSome s.decision s.first s.log

variable {hooks} {s : StoreState} {a : Appended}
  {accepted : List TransactionBinding} {image : List Appended}

theorem nextSeq_toNat (h : s.Logged hooks) :
    s.nextSeq.toNat = s.first.toNat+(logRecords s.log).length := add_ofNat_toNat h.room

theorem durableEnd_toNat (h : s.Logged hooks) :
    s.durableEnd.toNat+1 = s.nextSeq.toNat := by
  have hnext:=nextSeq_toNat h
  have hpos:=h.first_pos
  have hone : (1 : U64).toNat = 1 := rfl
  rw [StoreState.durableEnd,BitVec.toNat_sub_of_le (BitVec.le_def.mpr (by omega))]
  omega

theorem le_durableEnd (h : s.Logged hooks) {b : CommittedBatch}
    (hb : b ∈ s.batches) : b.lastSeq ≤ s.durableEnd ∧ ∀ m ∈ b.members,m.1 ≤ s.durableEnd := by
  have hend:=durableEnd_toNat h
  have hnext:=nextSeq_toNat h
  have hin:=h.within b hb
  refine ⟨BitVec.le_def.mpr (by have := hin.lt_hi; omega),fun m hm => ?_⟩
  have hm:=(hin.members m hm).2
  exact BitVec.le_def.mpr (by omega)

theorem behind_durableEnd (h : s.Logged hooks)
    {graph : Bool} {decision : TransactionBinding → Option TransactionBinding}
    (himage : LogOk hooks graph decision s.nextSeq image) :
    ∀ b ∈ expectedBatches decision s.nextSeq image,Behind s.durableEnd b := by
  have hend:=durableEnd_toNat h
  intro b hb
  exact (himage.within b hb).behind (by omega)

theorem endsAt_durableEnd (h : s.Logged hooks) :
    EndsAt s.first s.log s.durableEnd :=
  ⟨s.log,[],(append_nil _).symm,(durableEnd_toNat h).trans (nextSeq_toNat h)⟩

theorem above_durableEnd (h : s.Logged hooks) :
    above s.durableEnd s.batches = [] := above_nil fun _ hb => (le_durableEnd h hb).1

/-- The end of the log after an append, behind the end before it. -/
theorem Appendable.durableEnd (h : s.Logged hooks)
    (happ : Appendable hooks s accepted a) {t : StoreState}
    (hfirst : t.first = s.first) (hlog : t.log = s.log++[a]) :
    t.durableEnd.toNat = s.durableEnd.toNat+a.present := by
  have hone : logRecords [a] = a.records := by simp [logRecords]
  have hroom:=happ.room
  have hend:=durableEnd_toNat h
  have hnext:=nextSeq_toNat h
  rw [hone,happ.valid.1.records_length] at hroom
  have hnext' : t.nextSeq.toNat = s.nextSeq.toNat+a.present := by
    rw [StoreState.nextSeq,hfirst,hlog,logRecords_append,length_append,hone,
      happ.valid.1.records_length,add_ofNat_toNat (by omega)]
    omega
  have hnum : (1 : U64).toNat = 1 := rfl
  rw [StoreState.durableEnd,BitVec.toNat_sub_of_le (BitVec.le_def.mpr (by omega))]
  omega

theorem Appendable.whole (hone : (expectedBatches (decisionIn accepted) s.nextSeq [a]).length = 1) :
    a.present = a.frames.length := by
  simp only [expectedBatches,append_nil] at hone
  split at hone
  · rename_i hwhole
    exact hwhole.1
  · cases hone

theorem Appendable.prepared_end (h : s.Logged hooks)
    (happ : Appendable hooks s accepted a) {binding : TransactionBinding}
    {members : List Member} (hbatch : a.batch = .prepared binding members)
    (hwhole : a.present = a.frames.length) {t : StoreState} (hfirst : t.first = s.first)
    (hlog : t.log = s.log++[a]) : binding.lastSeq = t.durableEnd := by
  have hend:=Appendable.durableEnd h happ hfirst hlog
  have hlast:=happ.valid.1.prepared_end hbatch hwhole
  have hold:=durableEnd_toNat h
  apply BitVec.eq_of_toNat_eq
  omega

theorem sameDecisions_fresh {binding : TransactionBinding}
    (hnew : ∀ b : TransactionBinding,(b ∈ s.accepted ∨ ∃ a' ∈ s.log,∃ ms,a'.batch = .prepared b ms) →
      b.transaction ≠ binding.transaction) :
    SameDecisions s.decision (decisionIn (binding::s.accepted)) s.log := by
  intro a ha b ms hb
  exact (decisionIn_cons_of_ne (hnew b (.inr ⟨a,ha,ms,hb⟩))).symm

theorem logged_empty (graph : Bool) (decision : TransactionBinding → Option TransactionBinding)
    {first : LogSeq} (hpos : 0 < first.toNat) :
    LogOk hooks graph decision first [] :=
  ⟨trivial,by simp [FitsRecord,logRecords],hpos,first.isLt,
    .inr (by simp [logRecords]),by simp [expectedBatches]⟩

end Store

end Zeppelin.Ingest
