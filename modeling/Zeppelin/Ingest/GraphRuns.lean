import Zeppelin.Ingest.MarkedLog

namespace Zeppelin.Ingest
open Wal Machine List

def StoreState.commits (s : StoreState) : List RecoveredGraphCommit :=
  s.history.flatMap fun a => graphCommits a.1 a.2

theorem mem_graphCommits {b : CommittedBatch} {generation : U64} {c : RecoveredGraphCommit}
    (h : c ∈ graphCommits b generation) :
    ∃ m ∈ b.members,∃ bytes,m.2.2 = .graphCommit bytes ∧ c.seq = m.1 := by
  obtain ⟨⟨seq,op,mutation⟩,hm,hc⟩ := mem_filterMap.mp h
  cases mutation with
  | graphCommit bytes =>
    obtain rfl := Option.some.inj hc
    exact ⟨_,hm,bytes,rfl,rfl⟩
  | upsert document => cases hc
  | delete docIds => cases hc
  | metadataEdit edit => cases hc
  | batchMember index count document => cases hc
  | mixedBatchMember index count innerOp inner => cases hc

theorem mem_assignedCommits {base : ℕ} {rows : List (U64 × U64)} {batches : List CommittedBatch}
    {c : RecoveredGraphCommit} (h : c ∈ assignedCommits base rows batches) :
    ∃ b ∈ batches,∃ m ∈ b.members,∃ bytes,m.2.2 = .graphCommit bytes ∧ c.seq = m.1 := by
  induction batches generalizing base rows with
  | nil => cases h
  | cons b bs ih =>
    rcases mem_append.mp h with h | h
    · exact ⟨b,mem_cons_self ..,mem_graphCommits h⟩
    · obtain ⟨b',hb',hm⟩ := ih h
      exact ⟨b',mem_cons_of_mem _ hb',hm⟩

/-- The batches between a mark and the generation cutoff. -/
theorem countP_above {low mark : U64} (hle : low ≤ mark) (cutoff : U64)
    (batches : List CommittedBatch) :
    (above low batches).countP (fun b => b.lastSeq > mark && b.lastSeq ≤ cutoff)+
        (above cutoff (above mark batches)).length = (above mark batches).length := by
  induction batches with
  | nil => rfl
  | cons b bs ih =>
    simp only [above,filter_cons,gt_iff_lt] at ih ⊢
    by_cases hmark : mark < b.lastSeq
    · have hlow : low < b.lastSeq := BitVec.lt_def.mpr
        ((BitVec.le_def.mp hle).trans_lt (BitVec.lt_def.mp hmark))
      by_cases hcut : cutoff < b.lastSeq
      · have hnot : ¬ b.lastSeq ≤ cutoff := BitVec.not_le.mpr hcut
        simp only [hmark,hlow,hcut,hnot,decide_true,if_true,filter_cons,countP_cons,
          decide_false,Bool.and_false,Bool.false_eq_true,if_false,length_cons]
        omega
      · have hle' : b.lastSeq ≤ cutoff := BitVec.not_lt.mp hcut
        simp only [hmark,hlow,hcut,hle',decide_true,if_true,filter_cons,countP_cons,
          decide_false,Bool.and_true,Bool.false_eq_true,if_false,length_cons]
        omega
    · by_cases hlow : low < b.lastSeq
      · simpa [hmark,hlow,countP_cons] using ih
      · simpa [hmark,hlow] using ih

section Store
variable {hooks : StoreHooks} {s : StoreState}

variable (hooks) in
/-- The state of a graph store that recovers at generation `n`: `base`, the increments of the open
rows and the batches behind both marks. -/
structure GraphInv (s : StoreState) (g : GraphManifest) (base n : ℕ) : Prop where
  marked : Marked hooks s
  graph : s.manifest.graph = some g
  cutoff : ∃ b,g.generationAbsorbedThrough = some b ∧ b ≤ s.durableEnd ∧
    (b ≤ s.manifest.mark ∨ EndsAt s.first s.log b) ∧
    s.manifest.generation.toNat+(above b s.replayed).length = n
  rows_ne : g.generationBumps ≠ []
  rows_le : ∀ row ∈ s.manifest.openRows,row.1 ≤ s.durableEnd
  total : bumpTotal g.generationBumps+s.batches.length ≤ n
  counted : n = base+bumpTotal s.manifest.openRows+s.replayed.length
  commits : s.commits.filter (fun c => s.manifest.graphAbsorbedThrough < c.seq) =
    assignedCommits base s.manifest.openRows s.replayed

variable {g : GraphManifest} {base n : ℕ}

theorem GraphInv.retained (h : GraphInv hooks s g base n) {b : U64}
    (hends : EndsAt s.first s.log b) (hle : s.first ≤ b) :
    (storeRecords hooks.xxh3 s.first s.log).any (fun record => record.seq = b) = true := by
  obtain ⟨pre,post,hlog,hend⟩ := hends
  have hroom:=h.marked.log.room
  have hle:=BitVec.le_def.mp hle
  rw [hlog,logRecords_append,length_append] at hroom
  obtain ⟨r,hr,hseq⟩ := numbered_mem s.first (logRecords s.log)
    (i := (logRecords pre).length-1) (by rw [hlog,logRecords_append,length_append]; omega)
  have hb : r.seq = b := by
    apply BitVec.eq_of_toNat_eq
    rw [hseq,add_ofNat_toNat (by omega)]
    omega
  rw [any_eq_true]
  exact ⟨showRecord hooks.xxh3 r,mem_map_of_mem hr,by simpa [showRecord] using hb⟩

/-- The cutoff ends a batch that is still in the log, or stands at the end of the last log. -/
theorem GraphInv.accepts (h : GraphInv hooks s g base n) {b : U64}
    (hends : b ≤ s.manifest.mark ∨ EndsAt s.first s.log b) {batches : List CommittedBatch}
    (hbatches : ∀ batch ∈ batches,batch ∈ s.batches) :
    ¬ (b > s.manifest.mark ∧ ¬ ((storeRecords hooks.xxh3 s.first s.log).any (fun record => record.seq = b) &&
        !batches.any (fun batch => splitsBatch batch b) ||
      !g.generationBumps.isEmpty && checkedAdd b 1 =
        some (retainedFirstSeq (storeRecords hooks.xxh3 s.first s.log) s.nextSeq)) = true) := by
  rintro ⟨hgt,hrefused⟩
  have hends:=hends.resolve_left (BitVec.not_le.mpr hgt)
  apply hrefused
  by_cases hle : s.first ≤ b
  · have hwhole : batches.any (fun batch => splitsBatch batch b) = false := by
      rw [any_eq_false]
      intro batch hbatch
      rw [Boundary.whole (.inr hends) h.marked.log (hbatches batch hbatch)]
      exact Bool.false_ne_true
    rw [h.retained hends hle,hwhole]
    rfl
  · -- no record of the log is behind the cutoff
    obtain ⟨pre,post,-,hend⟩ := hends
    have hlt:=BitVec.lt_def.mp (BitVec.not_le.mp hle)
    have hfirst:=s.first.isLt
    have hone : (1 : U64).toNat = 1 := rfl
    have hnext : checkedAdd b 1 = some s.first := by
      rw [checkedAdd_of_lt (by omega)]
      congr 1
      apply BitVec.eq_of_toNat_eq
      rw [BitVec.toNat_add]
      omega
    have hrows : g.generationBumps.isEmpty = false := by simpa using h.rows_ne
    rw [StoreState.nextSeq,storeRecords_first,hnext,hrows]
    simp

theorem GraphInv.start_eq (h : GraphInv hooks s g base n) :
    ∃ start,s.start hooks = .ok start ∧ start.toNat = base+bumpTotal s.manifest.openRows := by
  obtain ⟨b,hb,-,hends,hcount⟩ := h.cutoff
  have hcounted:=h.counted
  have htotal:=h.total
  have hlow : s.manifest.low ≤ s.manifest.mark :=
    minWord_le_maxWord s.manifest.logSeq s.manifest.graphAbsorbedThrough
  have hsplit : (above s.manifest.low s.batches).countP
      (fun batch => batch.lastSeq > s.manifest.mark && batch.lastSeq ≤ b)+
        (above b s.replayed).length = s.replayed.length := countP_above hlow b s.batches
  have haccepts:=h.accepts hends fun batch (hbatch : batch ∈ above s.manifest.low s.batches) =>
    (mem_above.mp hbatch).1
  have hlt:=s.manifest.generation.isLt
  have hle : (above b s.replayed).length ≤ s.replayed.length := length_filter_le ..
  have hbatches : s.replayed.length ≤ s.batches.length := length_filter_le ..
  generalize hc : (above s.manifest.low s.batches).countP
    (fun batch => batch.lastSeq > s.manifest.mark && batch.lastSeq ≤ b) = c at hsplit
  have hnat : (BitVec.ofNat 64 c).toNat = c := by
    rw [BitVec.toNat_ofNat,Nat.mod_eq_of_lt (by omega)]
  obtain ⟨start,hsub,hstart⟩ := subGeneration_of_le s.manifest.generation (BitVec.ofNat 64 c)
    (by omega)
  refine ⟨start,?_,by omega⟩
  rw [Manifest.mark] at haccepts hc
  simp only [StoreState.start,startGeneration,h.graph,hb,hc,hsub]
  rw [if_neg haccepts]

/-- Recovery ends at `n` and gives every graph commit behind the graph's mark the generation
recorded for its batch. -/
theorem GraphInv.recover_counts (h : GraphInv hooks s g base n) :
    Counts n (s.recover hooks) fun tail =>
      tail.generation.toNat = n ∧ tail.graph =
        s.commits.filter fun c => s.manifest.graphAbsorbedThrough < c.seq := by
  obtain ⟨start,hstart,hnat⟩ := h.start_eq
  have hcounted:=h.counted
  have hcounts:=h.marked.replay_counts hstart (by omega)
  rw [show start.toNat+s.replayed.length = n by omega,
    show start.toNat-bumpTotal s.manifest.openRows = base by omega,← h.commits] at hcounts
  apply hcounts.bind
  intro tail htail
  simp only [h.graph,Option.isNone_some,Bool.false_eq_true,and_false,if_false]
  split <;> exact htail

end Store

section Steps
variable {hooks : StoreHooks} {s t : StoreState} {g g' : GraphManifest}
  {base n : ℕ} {a : Appended} {m : Manifest} {generation : U64} {image : List Appended}

theorem GraphInv.other (h : GraphInv hooks s g base n)
    (live durable : U64) (returned : List U64) (fenced : Bool) :
    GraphInv hooks { s with live,durable,returned,fenced } g base n :=
  ⟨⟨h.marked.log,h.marked.logSeq,h.marked.graphMark,h.marked.mark_le,h.marked.early⟩,h.graph,
    h.cutoff,h.rows_ne,h.rows_le,h.total,h.counted,h.commits⟩

theorem openRows_of_some (hgraph : m.graph = some g) :
    m.openRows = g.generationBumps.filter fun row => m.mark ≤ row.1 := by
  rw [Manifest.openRows,manifestBumps,hgraph]
  rfl

theorem Manifest.graphAbsorbedThrough_of_some (hgraph : m.graph = some g) :
    m.graphAbsorbedThrough = g.graphAbsorbedThrough := by
  rw [Manifest.graphAbsorbedThrough,hgraph]

theorem Manifest.mark_of_some (hgraph : m.graph = some g) :
    m.mark = maxWord m.logSeq g.graphAbsorbedThrough := by
  rw [Manifest.mark,Manifest.graphAbsorbedThrough_of_some hgraph]

theorem bumpTotal_filter_le (p : U64 × U64 → Bool) (rows : List (U64 × U64)) :
    bumpTotal (rows.filter p) ≤ bumpTotal rows := by
  induction rows with
  | nil => exact le_rfl
  | cons row rows ih =>
    rw [filter_cons]
    split
    · simp only [bumpTotal_cons]
      omega
    · simp only [bumpTotal_cons]
      omega

theorem bumpTotal_openRows (hgraph : m.graph = some g) :
    bumpTotal m.openRows ≤ bumpTotal g.generationBumps := by
  rw [openRows_of_some hgraph]
  exact bumpTotal_filter_le _ _

/-- A state in which no graph commit is behind the graph's mark counts anew. -/
theorem GraphInv.restart (hmarked : Marked hooks t)
    (hgraph : t.manifest.graph = some g)
    (hcutoff : ∃ b,g.generationAbsorbedThrough = some b ∧ b ≤ t.durableEnd ∧
      (b ≤ t.manifest.mark ∨ EndsAt t.first t.log b) ∧
      t.manifest.generation.toNat+(above b t.replayed).length = n)
    (hne : g.generationBumps ≠ []) (hrows : ∀ row ∈ g.generationBumps,t.manifest.mark ≤ row.1 →
      row.1 ≤ t.durableEnd)
    (htotal : bumpTotal g.generationBumps+t.batches.length ≤ n)
    (hthrough : CommitsThrough t.manifest.graphAbsorbedThrough t.batches)
    (hcommits : t.commits.filter (fun c => t.manifest.graphAbsorbedThrough < c.seq) = []) :
    GraphInv hooks t g
      (n-bumpTotal t.manifest.openRows-t.replayed.length) n := by
  have hopen:=bumpTotal_openRows hgraph
  have hreplayed : t.replayed.length ≤ t.batches.length := length_filter_le ..
  refine ⟨hmarked,hgraph,hcutoff,hne,?_,htotal,by omega,?_⟩
  · intro row hrow
    rw [openRows_of_some hgraph] at hrow
    obtain ⟨hmem,hle⟩ := mem_filter.mp hrow
    exact hrows row hmem (by simpa using hle)
  · rw [hcommits,eq_comm,eq_nil_iff_forall_not_mem]
    intro c hc
    obtain ⟨b,hb,member,hmember,bytes,hbytes,-⟩ := mem_assignedCommits hc
    have hlt:=BitVec.lt_def.mp ((hmarked.behind hb).2 member hmember)
    have hle:=BitVec.le_def.mp (hthrough b (mem_above.mp hb).1 member hmember bytes hbytes)
    have hmark:=BitVec.le_def.mp t.manifest.le_mark.2
    omega

theorem GraphInv.commits_nil (h : GraphInv hooks s g base n) {mark : U64}
    (hle : s.manifest.graphAbsorbedThrough ≤ mark) (hthrough : CommitsThrough mark s.batches) :
    s.commits.filter (fun c => mark < c.seq) = [] := by
  rw [filter_eq_nil_iff]
  intro c hc hlt
  have hlt : mark < c.seq := by simpa using hlt
  have hopen : c ∈ assignedCommits base s.manifest.openRows s.replayed := by
    rw [← h.commits]
    refine mem_filter.mpr ⟨hc,?_⟩
    have hlt' : s.manifest.graphAbsorbedThrough < c.seq := BitVec.lt_def.mpr
      ((BitVec.le_def.mp hle).trans_lt (BitVec.lt_def.mp hlt))
    simpa using hlt'
  obtain ⟨b,hb,member,hmember,bytes,hbytes,hseq⟩ := mem_assignedCommits hopen
  rw [hseq] at hlt
  exact BitVec.not_lt.mpr (hthrough b (mem_above.mp hb).1 member hmember bytes hbytes) hlt

theorem GraphInv.append (h : GraphInv hooks s g base n)
    {accepted : List TransactionBinding}
    (hsame : SameDecisions s.decision (decisionIn accepted) s.log)
    (happ : Appendable hooks s accepted a)
    (hle : (expectedBatches (decisionIn accepted) s.nextSeq [a]).length ≤ 1)
    (hgeneration : expectedBatches (decisionIn accepted) s.nextSeq [a] ≠ [] →
      generation.toNat = n+1)
    (hfirst : t.first = s.first) (hlog : t.log = s.log++[a]) (haccepted : t.accepted = accepted)
    (hmanifest : t.manifest = s.manifest)
    (hhistory : t.history = s.recordHistory a accepted generation) :
    GraphInv hooks t g base
      (n+(expectedBatches (decisionIn accepted) s.nextSeq [a]).length) := by
  obtain ⟨hmarked,hbatches,hend⟩ := h.marked.append hsame happ hfirst hlog haccepted hmanifest
  have hbehind:=behind_durableEnd h.marked.log happ
  have hafter : ∀ mark : U64,mark ≤ s.durableEnd →
      above mark (expectedBatches (decisionIn accepted) s.nextSeq [a]) =
        expectedBatches (decisionIn accepted) s.nextSeq [a] := fun mark hmark =>
    above_self fun b hb => ((hbehind b hb).mono hmark).1
  have hreplayed : t.replayed = s.replayed++
      expectedBatches (decisionIn accepted) s.nextSeq [a] := by
    rw [StoreState.replayed,hbatches,hmanifest,above_append,hafter _ h.marked.mark_le]
    rfl
  have hcounted:=h.counted
  have htotal:=h.total
  obtain ⟨b,hb,hble,hends,hcount⟩ := h.cutoff
  refine ⟨hmarked,by rw [hmanifest,h.graph],⟨b,hb,BitVec.le_trans hble hend,?_,?_⟩,h.rows_ne,?_,
    ?_,?_,?_⟩
  · rw [hmanifest,hfirst,hlog]
    refine hends.imp_right fun hends => ?_
    obtain ⟨pre,post,hsplit,hpre⟩ := hends
    exact ⟨pre,post++[a],by rw [hsplit,append_assoc],hpre⟩
  · rw [hreplayed,above_append,hafter b hble,length_append,hmanifest]
    omega
  · rw [hmanifest]
    exact fun row hrow => BitVec.le_trans (h.rows_le row hrow) hend
  · rw [hbatches,length_append]
    omega
  · rw [hreplayed,length_append,hmanifest]
    omega
  · rw [hreplayed,StoreState.commits,hhistory,StoreState.recordHistory,flatMap_append,
      filter_append,hmanifest,← StoreState.commits,h.commits]
    obtain hnil | ⟨batch,hone⟩ : expectedBatches (decisionIn accepted) s.nextSeq [a] = [] ∨
        ∃ batch,expectedBatches (decisionIn accepted) s.nextSeq [a] = [batch] := by
      rcases Nat.le_one_iff_eq_zero_or_eq_one.mp hle with h0 | h1
      · exact .inl (length_eq_zero_iff.mp h0)
      · exact .inr (length_eq_one_iff.mp h1)
    · simp [hnil]
    · rw [hone] at hbehind hgeneration ⊢
      have hgeneration:=hgeneration (cons_ne_nil _ _)
      have hbatch:=hbehind batch (mem_singleton_self _)
      have hrows : ∀ row ∈ s.manifest.openRows,row.1 < batch.lastSeq := by
        intro row hrow
        have h1:=BitVec.le_def.mp (h.rows_le row hrow)
        have h2:=BitVec.lt_def.mp hbatch.1
        exact BitVec.lt_def.mpr (by omega)
      have hword : BitVec.ofNat 64 (n+1) = generation := by
        rw [← hgeneration,BitVec.ofNat_toNat,BitVec.setWidth_eq]
      have hkept : (graphCommits batch generation).filter
          (fun c => s.manifest.graphAbsorbedThrough < c.seq) = graphCommits batch generation := by
        rw [filter_eq_self]
        intro c hc
        obtain ⟨member,hmember,-,-,hseq⟩ := mem_graphCommits hc
        have h1:=BitVec.lt_def.mp (hbatch.2 member hmember)
        have h2:=BitVec.le_def.mp (BitVec.le_trans s.manifest.le_mark.2 h.marked.mark_le)
        have hlt : s.manifest.graphAbsorbedThrough < c.seq := by
          rw [hseq]
          exact BitVec.lt_def.mpr (by omega)
        simpa using hlt
      rw [assignedCommits,assignedCommits,assign_concat hrows,flatMap_append,← hcounted]
      simp [hword,hkept]

theorem GraphInv.publish (h : GraphInv hooks s g base n) {k : ℕ}
    (hlogSeq : m.logSeq = s.manifest.logSeq) (hgraph : m.graph = some g')
    (hmark : g'.graphAbsorbedThrough = g.graphAbsorbedThrough)
    (hbound : g'.generationAbsorbedThrough = some s.durableEnd)
    (hgeneration : m.generation.toNat = n+k) (hne : g'.generationBumps ≠ [])
    (hall : bumpTotal g'.generationBumps ≤ bumpTotal g.generationBumps+k)
    (htotal : bumpTotal m.openRows = bumpTotal s.manifest.openRows+k)
    (hrows : ∀ row ∈ m.openRows,row.1 ≤ s.durableEnd)
    (hassign : ∀ batches : List CommittedBatch,(∀ b ∈ batches,b.lastSeq ≤ s.durableEnd) →
      assign base m.openRows batches = assign base s.manifest.openRows batches) :
    GraphInv hooks { s with manifest := m } g' base (n+k) := by
  have hgraphMark : m.graphAbsorbedThrough = s.manifest.graphAbsorbedThrough := by
    rw [Manifest.graphAbsorbedThrough_of_some hgraph,hmark,
      Manifest.graphAbsorbedThrough_of_some h.graph]
  have hreplayed : ({ s with manifest := m } : StoreState).replayed = s.replayed := by
    rw [StoreState.replayed,StoreState.replayed,Manifest.mark,Manifest.mark,hlogSeq,hgraphMark]
    rfl
  have hbatches : ∀ b ∈ s.replayed,b.lastSeq ≤ s.durableEnd := fun b hb =>
    (le_durableEnd h.marked.log (mem_above.mp hb).1).1
  have hcounted:=h.counted
  have holdTotal:=h.total
  refine ⟨h.marked.publish hlogSeq hgraphMark (by rw [hgraph,h.graph]; rfl),hgraph,
    ⟨s.durableEnd,hbound,BitVec.le_refl _,.inr (endsAt_durableEnd (s := s) h.marked.log),?_⟩,hne,hrows,
    ?_,?_,?_⟩
  · rw [hreplayed,above_nil hbatches]
    exact hgeneration
  · have hsum : bumpTotal g'.generationBumps+s.batches.length ≤ n+k := by omega
    exact hsum
  · rw [hreplayed,htotal]
    omega
  · rw [hreplayed,hgraphMark,assignedCommits,hassign _ hbatches]
    exact h.commits

/-- A publication that counts the whole log in its generation. -/
theorem GraphInv.cut (h : GraphInv hooks s g base n)
    (hgeneration : generation.toNat = n) :
    GraphInv hooks
      { s with manifest := s.manifest.cutAt generation s.durableEnd }
      { g with generationAbsorbedThrough := some s.durableEnd } base n := by
  have hgraph : (s.manifest.cutAt generation s.durableEnd).graph =
      some { g with generationAbsorbedThrough := some s.durableEnd } := by
    simp [Manifest.cutAt,h.graph]
  have hopen : (s.manifest.cutAt generation s.durableEnd).openRows = s.manifest.openRows := by
    rw [openRows_of_some hgraph,openRows_of_some h.graph,Manifest.mark_of_some hgraph,
      Manifest.mark_of_some h.graph]
    rfl
  have hnext:=h.publish (k := 0) (m := s.manifest.cutAt generation s.durableEnd) rfl hgraph rfl rfl
    hgeneration h.rows_ne (by rw [Nat.add_zero]) (by rw [hopen,Nat.add_zero])
    (by rw [hopen]; exact h.rows_le) (by rw [hopen]; exact fun _ _ => rfl)
  rwa [Nat.add_zero] at hnext

theorem recordGenerationBump_spec {next : Manifest} {boundary : U64}
    (h : m.recordGenerationBump boundary = .ok next) (hgraph : m.graph = some g)
    (hle : m.mark ≤ boundary) :
    ∃ rows,next = ⟨m.generation,m.logSeq,
        some ⟨g.graphAbsorbedThrough,some boundary,rows⟩⟩ ∧
      next.openRows = rows ∧ bumpTotal rows = bumpTotal m.openRows+1 ∧
      (∀ row ∈ rows,row ∈ m.openRows ∨ row.1 = boundary) ∧
      ∀ generation batches,(∀ b ∈ batches,b.lastSeq ≤ boundary) →
        assign generation rows batches = assign generation m.openRows batches := by
  have hmark:=Manifest.mark_of_some hgraph
  simp only [Manifest.recordGenerationBump,hgraph] at h
  rw [← hmark,← openRows_of_some hgraph] at h
  obtain ⟨rows,hrows,hnext⟩ := bind_eq_ok h
  obtain rfl := Except.ok.inj hnext
  obtain ⟨htotal,hmem,hassign⟩ := bumpRows_spec hrows
  refine ⟨rows,rfl,?_,htotal,hmem,hassign⟩
  rw [openRows_of_some rfl,filter_eq_self]
  intro row hrow
  have hrow : m.mark ≤ row.1 := by
    rcases hmem row hrow with hold | hnew
    · rw [openRows_of_some hgraph] at hold
      simpa using (mem_filter.mp hold).2
    · rw [hnew]
      exact hle
  rw [hmark] at hrow
  exact decide_eq_true hrow

theorem rows_ne_nil {rows : List (U64 × U64)} {k : ℕ} (h : bumpTotal rows = k+1) : rows ≠ [] := by
  rintro rfl
  cases h

theorem GraphInv.bump (h : GraphInv hooks s g base n)
    {cutoff : Option U64} {next : Manifest} (hgeneration : generation.toNat = n+1)
    (hnext : Manifest.recordGenerationBump ⟨generation,s.manifest.logSeq,
      some { g with generationAbsorbedThrough := cutoff }⟩ s.durableEnd = .ok next) :
    ∃ g',GraphInv hooks { s with manifest := next } g' base (n+1) := by
  have hmark:=Manifest.mark_of_some h.graph
  have hopen:=openRows_of_some h.graph
  rw [hmark] at hopen
  obtain ⟨rows,rfl,hrows,htotal,hmem,hassign⟩ := recordGenerationBump_spec hnext rfl
    (by rw [Manifest.mark_of_some rfl,← hmark]; exact h.marked.mark_le)
  rw [openRows_of_some rfl,Manifest.mark_of_some rfl,← hopen] at htotal hmem hassign
  have hle:=bumpTotal_openRows h.graph
  refine ⟨_,h.publish (k := 1) rfl rfl rfl rfl hgeneration (rows_ne_nil htotal) (by simp only; omega)
    (by rw [hrows]; exact htotal) ?_ (by rw [hrows]; exact hassign base)⟩
  rw [hrows]
  intro row hrow
  rcases hmem row hrow with hold | hnew
  · exact h.rows_le row hold
  · rw [hnew]
    exact BitVec.le_refl _

/-- A publication with marks of its own, behind which no graph commit stands. -/
theorem GraphInv.reset (h : GraphInv hooks s g base n)
    (hgraph : m.graph = some g') (hlogSeq : Boundary s.first s.log m.logSeq)
    (hgraphMark : Boundary s.first s.log g'.graphAbsorbedThrough)
    (hle : m.logSeq ≤ s.durableEnd) (hgraphLe : g'.graphAbsorbedThrough ≤ s.durableEnd)
    (hmono : s.manifest.graphAbsorbedThrough ≤ g'.graphAbsorbedThrough)
    (hthrough : CommitsThrough g'.graphAbsorbedThrough s.batches)
    (hgeneration : m.generation.toNat = n+1)
    (hcutoff : ∃ b,g'.generationAbsorbedThrough = some b ∧ b ≤ s.durableEnd ∧
      (b ≤ m.mark ∨ EndsAt s.first s.log b) ∧ above b (above m.mark s.batches) = [])
    (hne : g'.generationBumps ≠ [])
    (hrows : ∀ row ∈ g'.generationBumps,m.mark ≤ row.1 → row.1 ≤ s.durableEnd)
    (htotal : bumpTotal g'.generationBumps ≤ bumpTotal g.generationBumps+1) :
    ∃ base',GraphInv hooks { s with manifest := m } g' base' (n+1) := by
  have hmark:=Manifest.graphAbsorbedThrough_of_some hgraph
  have hlog:=h.marked.log
  rw [StoreState.Logged,h.graph] at hlog
  have hold:=h.total
  rw [← hmark] at hgraphMark hgraphLe hthrough hmono
  obtain ⟨b,hb,hble,hends,hnil⟩ := hcutoff
  refine ⟨_,GraphInv.restart (.of_commits ?_ hlogSeq hgraphMark (maxWord_le hle hgraphLe) hthrough) hgraph
    ⟨b,hb,hble,hends,?_⟩ hne hrows ?_ hthrough (h.commits_nil hmono hthrough)⟩
  · rw [StoreState.Logged,hgraph]
    exact hlog
  · have hnil : above b ({ s with manifest := m } : StoreState).replayed = [] := hnil
    rw [hnil]
    exact hgeneration
  · have hsum : bumpTotal g'.generationBumps+s.batches.length ≤ n+1 := by omega
    exact hsum

theorem GraphInv.sealed (h : GraphInv hooks s g base n)
    (hgeneration : generation.toNat = n+1) (graphChanged : Bool) :
    ∃ g' base',GraphInv hooks
      { s with manifest := s.manifest.sealThrough generation s.durableEnd graphChanged } g' base'
      (n+1) := by
  have hends : Boundary s.first s.log s.durableEnd := .inr (endsAt_durableEnd h.marked.log)
  have hmono:=BitVec.le_trans s.manifest.le_mark.2 h.marked.mark_le
  have hthrough : CommitsThrough s.durableEnd s.batches := fun b hb member hmember _ _ =>
    (le_durableEnd h.marked.log hb).2 member hmember
  have hone : (1 : U64).toNat = 1 := rfl
  cases graphChanged with
  | true =>
    have hgraph : (s.manifest.sealThrough generation s.durableEnd true).graph =
        some ⟨s.durableEnd,some s.durableEnd,[(s.durableEnd,1)]⟩ := by
      simp [Manifest.sealThrough,h.graph]
    refine ⟨_,h.reset hgraph hends hends (BitVec.le_refl _) (BitVec.le_refl _) hmono hthrough
      hgeneration ⟨_,rfl,BitVec.le_refl _,.inr (endsAt_durableEnd h.marked.log),?_⟩ (by simp) (by simp)
      (by simp)⟩
    exact above_nil fun b hb => (le_durableEnd h.marked.log (mem_above.mp hb).1).1
  | false =>
    have hgraph : (s.manifest.sealThrough generation s.durableEnd false).graph =
        some { g with graphAbsorbedThrough := s.durableEnd } := by
      simp [Manifest.sealThrough,h.graph]
    have hmark : (s.manifest.sealThrough generation s.durableEnd false).mark = s.durableEnd := by
      rw [Manifest.mark_of_some hgraph]
      rcases maxWord_eq_or s.durableEnd s.durableEnd with heq | heq <;> exact heq
    obtain ⟨b,hb,hble,-,-⟩ := h.cutoff
    refine ⟨_,h.reset hgraph hends hends (BitVec.le_refl _) (BitVec.le_refl _) hmono hthrough
      hgeneration ⟨b,hb,hble,.inl (by rw [hmark]; exact hble),?_⟩ h.rows_ne ?_ (Nat.le_succ _)⟩
    · rw [hmark,above_durableEnd h.marked.log]
      rfl
    · intro row hrow hle
      rw [hmark] at hle
      refine h.rows_le row ?_
      rw [openRows_of_some h.graph]
      exact mem_filter.mpr ⟨hrow,decide_eq_true (BitVec.le_trans h.marked.mark_le hle)⟩

theorem GraphInv.checkpoint (h : GraphInv hooks s g base n) {mark : U64}
    {emptied : Bool} (hgeneration : generation.toNat = n+1)
    (hmark : mark ≤ s.manifest.graphAbsorbedThrough ∨ ∃ b ∈ s.batches,b.lastSeq = mark)
    (hthrough : CommitsThrough (maxWord mark s.manifest.graphAbsorbedThrough) s.batches)
    (hm : s.manifest.checkpoint generation mark s.durableEnd emptied = .ok m) :
    ∃ g' base',GraphInv hooks { s with manifest := m } g' base' (n+1) := by
  have hmarkOld:=Manifest.graphAbsorbedThrough_of_some h.graph
  have hends : Boundary s.first s.log s.durableEnd := .inr (endsAt_durableEnd h.marked.log)
  have hgraphLe:=BitVec.le_trans s.manifest.le_mark.2 h.marked.mark_le
  -- the new graph mark ends a batch, or is the old one
  have hgraphMark : Boundary s.first s.log (maxWord mark s.manifest.graphAbsorbedThrough) ∧
      maxWord mark s.manifest.graphAbsorbedThrough ≤ s.durableEnd := by
    rcases hmark with hle | ⟨b,hb,rfl⟩
    · have hsame : maxWord mark s.manifest.graphAbsorbedThrough = s.manifest.graphAbsorbedThrough := by
        rw [maxWord,if_pos hle]
      rw [hsame]
      exact ⟨h.marked.graphMark,hgraphLe⟩
    · have hble:=(le_durableEnd h.marked.log hb).1
      refine ⟨?_,maxWord_le hble hgraphLe⟩
      rcases maxWord_eq_or b.lastSeq s.manifest.graphAbsorbedThrough with heq | heq
      · rw [heq]
        exact h.marked.graphMark
      · rw [heq]
        exact .inr (endsAt_lastSeq h.marked.log.valid h.marked.log.room hb)
  have hlogSeq : ∀ logSeq : U64,logSeq = (if emptied then s.durableEnd else s.manifest.logSeq) →
      Boundary s.first s.log logSeq ∧ logSeq ≤ s.durableEnd := by
    intro logSeq heq
    cases emptied with
    | true =>
      rw [heq]
      exact ⟨hends,BitVec.le_refl _⟩
    | false =>
      rw [heq]
      exact ⟨h.marked.logSeq,BitVec.le_trans s.manifest.le_mark.1 h.marked.mark_le⟩
  obtain ⟨hlogSeqEnds,hlogSeqLe⟩ := hlogSeq _ rfl
  simp only [Manifest.checkpoint,h.graph,Option.map_some,← hmarkOld] at hm
  obtain ⟨rows,rfl,hrows,htotal,hmem,-⟩ := recordGenerationBump_spec hm rfl
    (by rw [Manifest.mark_of_some rfl]; exact maxWord_le hlogSeqLe hgraphMark.2)
  have hnone : ∀ row ∈ rows,row.1 = s.durableEnd := fun row hrow =>
    (hmem row hrow).resolve_left (by rw [openRows_of_some rfl]; exact not_mem_nil)
  rw [openRows_of_some rfl] at htotal
  have hone : bumpTotal rows = 1 := htotal
  refine ⟨_,h.reset rfl hlogSeqEnds hgraphMark.1 hlogSeqLe hgraphMark.2 (le_maxWord ..).2 hthrough
    hgeneration ⟨_,rfl,BitVec.le_refl _,.inr (endsAt_durableEnd h.marked.log),?_⟩ (rows_ne_nil hone)
    ?_ (by simp only; omega)⟩
  · exact above_nil fun b hb => (le_durableEnd h.marked.log (mem_above.mp hb).1).1
  · intro row hrow _
    rw [hnone row hrow]
    exact BitVec.le_refl _

theorem Rewritable.length_le (h : Rewritable hooks s image)
    (hgraph : s.manifest.graph.isSome = true) :
    (s.rewrite image).batches.length ≤ s.batches.length := by
  have hframed:=h.framed hgraph
  cases himage : image with
  | nil => exact Nat.zero_le _
  | cons a rest =>
    rw [himage,length_cons] at hframed
    obtain rfl : rest = [] := length_eq_zero_iff.mp (by omega)
    have hpos:=length_pos_iff.mpr (h.logged (by rw [himage]; exact cons_ne_nil _ _))
    have hone : (s.rewrite [a]).batches.length ≤ 1 := by
      simp only [StoreState.batches,StoreState.rewrite,expectedBatches,append_nil]
      split <;> simp
    omega

theorem GraphInv.rewrite (h : GraphInv hooks s g base n) {k : ℕ}
    (hthrough : CommitsThrough s.manifest.graphAbsorbedThrough s.batches)
    (himage : (s.rewrite image).Logged hooks)
    (hdocuments : ∀ b ∈ (s.rewrite image).batches,∀ member ∈ b.members,∀ bytes,
      member.2.2 ≠ .graphCommit bytes)
    (hlogSeq : m.logSeq = s.manifest.logSeq) (hgraph : m.graph = some g')
    (hmark : g'.graphAbsorbedThrough = g.graphAbsorbedThrough)
    (hcutoff : ∃ b,g'.generationAbsorbedThrough = some b ∧ b ≤ (s.rewrite image).durableEnd ∧
      (b ≤ s.manifest.mark ∨ EndsAt s.nextSeq image b) ∧
      m.generation.toNat+(above b (s.rewrite image).batches).length = k)
    (hne : g'.generationBumps ≠ [])
    (hrows : ∀ row ∈ g'.generationBumps,s.manifest.mark ≤ row.1 →
      row.1 ≤ (s.rewrite image).durableEnd)
    (htotal : bumpTotal g'.generationBumps+(s.rewrite image).batches.length ≤ k) :
    ∃ base',GraphInv hooks { s.rewrite image with manifest := m } g' base'
      k := by
  have hgraphMark : m.graphAbsorbedThrough = s.manifest.graphAbsorbedThrough := by
    rw [Manifest.graphAbsorbedThrough_of_some hgraph,hmark,
      Manifest.graphAbsorbedThrough_of_some h.graph]
  have hsame : m.mark = s.manifest.mark := by rw [Manifest.mark,Manifest.mark,hlogSeq,hgraphMark]
  obtain ⟨hmarked,hreplayed⟩ := h.marked.rewrite himage hdocuments
  obtain ⟨b,hb,hble,hends,hcount⟩ := hcutoff
  rw [← hsame] at hends hrows
  refine ⟨_,GraphInv.restart (t := { s.rewrite image with manifest := m })
    (hmarked.publish hlogSeq hgraphMark (by rw [hgraph]; exact (congrArg Option.isSome h.graph).symm)) hgraph
    ⟨b,hb,hble,hends,?_⟩ hne hrows htotal ?_ ?_⟩
  · rw [← hreplayed,StoreState.replayed] at hcount
    rw [StoreState.replayed,hsame]
    exact hcount
  · exact fun b hb member hmember bytes hbytes =>
      absurd hbytes (hdocuments b hb member hmember bytes)
  · rw [hgraphMark]
    exact h.commits_nil (BitVec.le_refl _) hthrough

/-- The manifest stays: the batches of the image count on top of it. -/
theorem GraphInv.rewrite_kept (h : GraphInv hooks s g base n)
    (hthrough : CommitsThrough s.manifest.graphAbsorbedThrough s.batches)
    (himage : (s.rewrite image).Logged hooks)
    (hdocuments : ∀ b ∈ (s.rewrite image).batches,∀ member ∈ b.members,∀ bytes,
      member.2.2 ≠ .graphCommit bytes)
    (hcounted : s.manifest.generation.toNat = n)
    (hcutoff : ∀ b,g.generationAbsorbedThrough = some b → b ≤ s.manifest.mark ∨ b = s.durableEnd) :
    ∃ base',GraphInv hooks (s.rewrite image) g base'
      (n+(s.rewrite image).batches.length) := by
  obtain ⟨b,hb,hble,-,-⟩ := h.cutoff
  have hle:=rewrite_durableEnd h.marked.log himage
  have htotal:=h.total
  have hbatches : above b (s.rewrite image).batches = (s.rewrite image).batches :=
    above_self fun batch hbatch => ((behind_durableEnd h.marked.log himage batch hbatch).mono hble).1
  refine h.rewrite hthrough himage hdocuments rfl h.graph rfl
    ⟨b,hb,BitVec.le_trans hble hle,?_,by rw [hbatches,hcounted]⟩ h.rows_ne ?_ (by omega)
  · refine (hcutoff b hb).imp_right ?_
    rintro rfl
    exact ⟨[],image,rfl,durableEnd_toNat h.marked.log⟩
  · intro row hrow hmark
    refine BitVec.le_trans (h.rows_le row ?_) hle
    rw [openRows_of_some h.graph]
    exact mem_filter.mpr ⟨hrow,decide_eq_true hmark⟩

theorem GraphInv.truncated (h : GraphInv hooks s g base n)
    (hlogSeq : s.manifest.logSeq = s.durableEnd)
    (hgraph : s.manifest.graphAbsorbedThrough = s.durableEnd) :
    ∃ base',GraphInv hooks (s.rewrite []) g base' n := by
  have hmark : s.manifest.mark = s.durableEnd := by
    rw [Manifest.mark,hlogSeq,hgraph]
    rcases maxWord_eq_or s.durableEnd s.durableEnd with heq | heq <;> exact heq
  have hnone : s.replayed = [] := by
    rw [StoreState.replayed,hmark,above_durableEnd h.marked.log]
  obtain ⟨b,hb,hble,-,hcount⟩ := h.cutoff
  rw [hnone] at hcount
  have hend:=durableEnd_toNat h.marked.log
  have hpos : 0 < s.nextSeq.toNat := by omega
  refine h.rewrite_kept ?_ (logged_empty _ _ hpos) (fun b hb => absurd hb not_mem_nil)
    hcount fun b' hb' => ?_
  · rw [hgraph]
    exact fun b hb member hmember _ _ => (le_durableEnd h.marked.log hb).2 member hmember
  · obtain rfl := Option.some.inj (hb.symm.trans hb')
    exact .inl (by rw [hmark]; exact hble)

theorem GraphInv.purged (h : GraphInv hooks s g base n)
    (hgeneration : generation.toNat = n)
    (hthrough : CommitsThrough s.manifest.graphAbsorbedThrough s.batches)
    (himage : Rewritable hooks s image)
    (hm : s.manifest.foldBumps generation s.durableEnd (s.rewrite image).durableEnd = .ok m) :
    ∃ g' base',GraphInv hooks { s.rewrite image with manifest := m } g' base'
      n := by
  have hlog : (s.rewrite image).Logged hooks := himage.log
  simp only [Manifest.foldBumps,h.graph,if_neg h.rows_ne] at hm
  obtain ⟨count,hcount,hm⟩ := bind_eq_ok hm
  obtain rfl := Except.ok.inj hm
  have htotal:=h.total
  have hlen:=himage.length_le (by rw [h.graph]; rfl)
  have hall:=restoreAllBumps_counts 0 g.generationBumps le_rfl
  rw [hcount] at hall
  have hnat : count.toNat = bumpTotal g.generationBumps := hall.trans (Nat.zero_add _)
  refine ⟨_,h.rewrite hthrough hlog himage.documents rfl rfl rfl
    ⟨_,rfl,BitVec.le_refl _,.inr (endsAt_durableEnd hlog),?_⟩ (cons_ne_nil _ _) ?_ ?_⟩
  · rw [above_durableEnd hlog]
    exact hgeneration
  · intro row hrow _
    rw [mem_singleton.mp hrow]
    exact rewrite_durableEnd h.marked.log hlog
  · simp only [bumpTotal_cons,bumpTotal_nil]
    omega

theorem GraphInv.namespaceBatch (h : GraphInv hooks s g base n)
    (hdurable : s.durable.toNat = n)
    (hok : Enabled hooks s (.namespaceBatch a))
    (hstep : storeStep hooks s (.namespaceBatch a) = some t) :
    ∃ g',GraphInv hooks t g' base t.durable.toNat := by
  obtain ⟨-,hlive,binding,members,hbatch,happ,hone,hfinal,hnew⟩ := hok
  simp only [storeStep,hbatch] at hstep
  obtain ⟨generation,hadd,hstep⟩ := Option.bind_eq_some_iff.mp hstep
  obtain ⟨manifest,hmanifest,hstep⟩ := Option.bind_eq_some_iff.mp hstep
  obtain rfl := Option.some.inj hstep
  have hgeneration:=checkedAdd_eq_some hadd
  have honeNat : (1 : U64).toNat = 1 := rfl
  rw [hlive,hdurable,honeNat] at hgeneration
  have hwhole:=Appendable.whole hone
  have happended : ∀ t' : StoreState,t' = { s with
      log := s.log++[a]
      accepted := binding::s.accepted
      durable := binding.finalGeneration
      history := s.recordHistory a (binding::s.accepted) generation } →
      GraphInv hooks t' g base (n+1) ∧
        binding.lastSeq = t'.durableEnd := by
    rintro t' rfl
    constructor
    · rw [← hone]
      exact h.append (sameDecisions_fresh hnew) happ hone.le (fun _ => hgeneration) rfl rfl rfl rfl rfl
    · exact Appendable.prepared_end h.marked.log happ hbatch hwhole rfl rfl
  -- the staged manifest stands at the end of the run
  obtain ⟨happended,hend⟩ := happended _ rfl
  have hcut : s.manifest.cutAt binding.finalGeneration binding.lastSeq = ⟨binding.finalGeneration,
      s.manifest.logSeq,some { g with generationAbsorbedThrough := some binding.lastSeq }⟩ := by
    simp [Manifest.cutAt,h.graph]
  rw [hlive,hdurable] at hfinal
  simp only [Manifest.stageNamespace,hlive,hdurable] at hmanifest
  rcases hfinal with hfinal | hfinal
  · rw [show binding.finalGeneration.toNat-n-1 = 0 by omega,Manifest.recordBumps] at hmanifest
    obtain rfl := Option.some.inj hmanifest
    have hnext:=happended.cut hfinal.symm
    rw [← hend,hfinal] at hnext
    exact ⟨_,hnext⟩
  · rw [show binding.finalGeneration.toNat-n-1 = 1 by omega,Manifest.recordBumps,hcut]
      at hmanifest
    obtain ⟨next,hbump,hmanifest⟩ := bind_eq_ok (toOption_eq_some hmanifest)
    obtain rfl := Except.ok.inj hmanifest
    rw [hend] at hbump
    obtain ⟨g',hnext⟩ := happended.bump (by omega) hbump
    rw [show n+1+1 = binding.finalGeneration.toNat by omega] at hnext
    exact ⟨g',hnext⟩

theorem GraphInv.reopened (h : GraphInv hooks s g base n) {repair : Bool}
    (hstep : storeStep hooks s (.reopen repair) = some t) :
    ∃ g',GraphInv hooks t g' base t.durable.toNat := by
  have hcounts:=h.recover_counts
  simp only [storeStep] at hstep
  cases hrecover : s.recover hooks with
  | error e =>
    rw [hrecover] at hstep
    cases hstep
  | ok tail =>
    rw [hrecover] at hstep hcounts
    have hgeneration : tail.generation.toNat = n := hcounts.1
    simp only [h.graph,Option.isSome_some,if_true] at hstep
    cases repair with
    | false =>
      obtain rfl := Option.some.inj hstep
      have hnext:=h.other tail.generation tail.generation (tail.generation::s.returned) false
      rw [← hgeneration] at hnext
      exact ⟨g,hnext⟩
    | true =>
      obtain rfl := Option.some.inj hstep
      have hnext:=(h.cut hgeneration).other tail.generation tail.generation
        (tail.generation::s.returned) false
      rw [← hgeneration] at hnext
      exact ⟨_,hnext⟩

/-- The publication that ends a purge does not happen: the log is new, the manifest old. -/
def Unpublished : StoreEvent → Prop
  | .purge _ published => published = false
  | _ => False

theorem GraphInv.step (h : GraphInv hooks s g base s.durable.toNat)
    {e : StoreEvent} (hok : Enabled hooks s e) (hpublished : ¬ Unpublished e)
    (hstep : storeStep hooks s e = some t) :
    ∃ g' base',GraphInv hooks t g' base' t.durable.toNat := by
  have hone : (1 : U64).toNat = 1 := rfl
  -- what every increment starts from
  have hnext : ∀ generation,s.live = s.durable → checkedAdd s.live 1 = some generation →
      generation.toNat = s.durable.toNat+1 := by
    intro generation hlive hadd
    have hgeneration:=checkedAdd_eq_some hadd
    rw [hlive] at hgeneration
    exact hgeneration
  cases e with
  | abandon a =>
    obtain ⟨-,-,happ,hnil⟩ := hok
    obtain rfl := Option.some.inj hstep
    have hnil : expectedBatches (decisionIn s.accepted) s.nextSeq [a] = [] := hnil
    have happended:=h.append (t := { s with log := s.log++[a] }) (fun _ _ _ _ _ => rfl)
      happ (by rw [hnil]; exact Nat.zero_le _) (show _ → (0 : U64).toNat = _ from (absurd hnil ·))
      rfl rfl rfl rfl (by rw [StoreState.recordHistory,hnil,map_nil,append_nil])
    rw [hnil] at happended
    exact ⟨_,_,happended⟩
  | commit a =>
    obtain ⟨-,hlive,happ,hlen,-⟩ := hok
    obtain ⟨generation,hadd,hstep⟩ := Option.bind_eq_some_iff.mp hstep
    obtain rfl := Option.some.inj hstep
    have hgeneration:=hnext generation hlive hadd
    have hlen : (expectedBatches (decisionIn s.accepted) s.nextSeq [a]).length = 1 := hlen
    have happended:=h.append (t := { s with
      log := s.log++[a]
      durable := generation
      history := s.recordHistory a s.accepted generation }) (fun _ _ _ _ _ => rfl) happ hlen.le
      (fun _ => hgeneration) rfl rfl rfl rfl rfl
    rw [hlen,← hgeneration] at happended
    exact ⟨_,_,happended⟩
  | namespaceBatch a =>
    obtain ⟨g',hnamespace⟩ := h.namespaceBatch rfl hok hstep
    exact ⟨g',base,hnamespace⟩
  | publishTombstones =>
    obtain rfl := Option.some.inj hstep
    exact ⟨_,_,h.cut rfl⟩
  | bumpManifest =>
    obtain ⟨-,hlive⟩ := hok
    have hlive : s.live = s.durable := hlive
    obtain ⟨generation,hadd,hstep⟩ := Option.bind_eq_some_iff.mp hstep
    obtain ⟨manifest,hmanifest,hstep⟩ := Option.bind_eq_some_iff.mp hstep
    obtain rfl := Option.some.inj hstep
    have hmax : maxWord s.live s.manifest.generation = s.live := by
      unfold maxWord
      split
      · rename_i hle
        obtain ⟨b,-,-,-,hcount⟩ := h.cutoff
        rw [BitVec.le_def] at hle
        apply BitVec.eq_of_toNat_eq
        rw [hlive] at hle ⊢
        omega
      · rfl
    rw [hmax] at hadd
    have hgeneration:=hnext generation hlive hadd
    have hbump:=toOption_eq_some hmanifest
    simp only [h.graph] at hbump
    obtain ⟨g',hbumped⟩ := h.bump hgeneration hbump
    rw [← hgeneration] at hbumped
    exact ⟨g',base,hbumped.other ..⟩
  | sealManifest graphChanged =>
    obtain ⟨-,hlive⟩ := hok
    obtain ⟨generation,hadd,hstep⟩ := Option.bind_eq_some_iff.mp hstep
    obtain rfl := Option.some.inj hstep
    have hgeneration:=hnext generation hlive hadd
    obtain ⟨g',base',hsealed⟩ := h.sealed hgeneration graphChanged
    rw [← hgeneration] at hsealed
    exact ⟨g',base',hsealed.other ..⟩
  | truncate =>
    obtain ⟨-,hlogSeq,hgraph⟩ := hok
    obtain rfl := Option.some.inj hstep
    obtain ⟨base',htruncated⟩ := h.truncated hlogSeq hgraph
    exact ⟨g,base',htruncated⟩
  | checkpoint mark emptied =>
    obtain ⟨-,hlive,-,hmark,hthrough⟩ := hok
    obtain ⟨generation,hadd,hstep⟩ := Option.bind_eq_some_iff.mp hstep
    obtain ⟨manifest,hmanifest,hstep⟩ := Option.bind_eq_some_iff.mp hstep
    obtain rfl := Option.some.inj hstep
    have hgeneration:=hnext generation hlive hadd
    obtain ⟨g',base',hnew⟩ := h.checkpoint hgeneration hmark hthrough (toOption_eq_some hmanifest)
    rw [← hgeneration] at hnew
    exact ⟨g',base',hnew.other ..⟩
  | purge image published =>
    obtain ⟨-,hlive,-,hthrough,himage⟩ := hok
    cases published with
    | false => exact absurd rfl hpublished
    | true =>
      simp only [storeStep,if_true] at hstep
      obtain ⟨manifest,hmanifest,hstep⟩ := Option.bind_eq_some_iff.mp hstep
      obtain rfl := Option.some.inj hstep
      obtain ⟨g',base',hpurged⟩ := h.purged (congrArg BitVec.toNat hlive) hthrough himage
        (toOption_eq_some hmanifest)
      exact ⟨g',base',hpurged⟩
  | acknowledge =>
    obtain rfl := Option.some.inj hstep
    exact ⟨_,_,h.other ..⟩
  | reopen repair =>
    obtain ⟨g',hreopened⟩ := h.reopened hstep
    exact ⟨g',base,hreopened⟩

/-- The lost publication of a purge leaves a batch to count twice, or a cutoff that no longer
ends the log in front of the new one. -/
def LostPublication (s : StoreState) : StoreEvent → Prop
  | .purge image false => (s.rewrite image).batches ≠ [] ∨ ∃ g b,s.manifest.graph = some g ∧
      g.generationAbsorbedThrough = some b ∧ s.manifest.mark < b ∧ b ≠ s.durableEnd
  | _ => False

/-- The manifest of a purge counts the whole log. -/
theorem GraphInv.purge_counted (h : GraphInv hooks s g base n)
    (hle : n ≤ s.manifest.generation.toNat) : s.manifest.generation.toNat = n := by
  obtain ⟨b,-,-,-,hcount⟩ := h.cutoff
  omega

theorem GraphInv.unpublished
    (h : GraphInv hooks s g base s.durable.toNat) {published : Bool}
    (hok : Enabled hooks s (.purge image published))
    (hcutoff : ∀ b,g.generationAbsorbedThrough = some b → b ≤ s.manifest.mark ∨ b = s.durableEnd) :
    ∃ base',GraphInv hooks (s.rewrite image) g base'
      (s.durable.toNat+(s.rewrite image).batches.length) := by
  obtain ⟨-,-,hle,hthrough,himage⟩ := hok
  exact h.rewrite_kept hthrough himage.log himage.documents
    (h.purge_counted (BitVec.le_def.mp hle)) hcutoff

theorem GraphInv.step_kept (h : GraphInv hooks s g base s.durable.toNat)
    {e : StoreEvent} (hok : Enabled hooks s e)
    (hkept : ¬ LostPublication s e)
    (hstep : storeStep hooks s e = some t) :
    ∃ g' base',GraphInv hooks t g' base' t.durable.toNat := by
  by_cases hpublished : Unpublished e
  · cases e with
    | purge image published =>
      obtain rfl : published = false := hpublished
      obtain rfl := Option.some.inj hstep
      obtain ⟨hnone,hcutoff⟩ := not_or.mp hkept
      obtain ⟨base',hnext⟩ := h.unpublished hok fun b hb => by
        by_contra hnot
        obtain ⟨hlt,hne⟩ := not_or.mp hnot
        exact hcutoff ⟨g,b,h.graph,hb,BitVec.not_le.mp hlt,hne⟩
      rw [not_not.mp hnone] at hnext
      exact ⟨g,base',hnext.other ..⟩
    | _ => exact hpublished.elim
  · exact h.step hok hpublished hstep

theorem GraphInv.fresh (hpos : 0 < generation.toNat) :
    ∃ base,GraphInv hooks (StoreState.fresh generation true)
      ⟨0,some 0,[(0,1)]⟩ base generation.toNat := by
  have hone : (1 : U64).toNat = 1 := rfl
  have hfirst : (0 : U64) < 1 := by decide
  have hle : ∀ word : U64,0 ≤ word := fun word => BitVec.le_def.mpr (Nat.zero_le _)
  have hmark : (StoreState.fresh generation true).manifest.mark = 0 := rfl
  have hlog : (StoreState.fresh generation true).Logged hooks :=
    logged_empty true (decisionIn []) Nat.one_pos
  have hnone : CommitsThrough 0 (StoreState.fresh generation true).batches :=
    fun b hb => absurd hb not_mem_nil
  refine ⟨_,.restart (.of_commits hlog (.inl hfirst) (.inl hfirst) (by rw [hmark]; exact hle _) hnone)
    rfl ⟨0,rfl,hle _,.inl (hle _),rfl⟩ (cons_ne_nil _ _) ?_ ?_ hnone rfl⟩
  · intro row hrow _
    rw [mem_singleton.mp hrow]
    exact hle _
  · simp [StoreState.batches,StoreState.fresh,expectedBatches]
    omega

variable (hooks) in
/-- Every state a graph store reaches without a lost publication is recovered as it is: at its
durable generation, which is the live one once nothing is in flight, and with every graph commit of
the tail at the generation its batch was acknowledged with. -/
theorem recover_graphStore {generation : U64} (hpos : 0 < generation.toNat) {es : List StoreEvent}
    {s : StoreState} (run : Run (storeStep hooks)
      (fun s e => Enabled hooks s e ∧ ¬ LostPublication s e)
      (StoreState.fresh generation true) es s) :
    ∃ tail,s.recover hooks = .ok tail ∧
      tail.generation = s.durable ∧ tail.graph =
        (s.history.flatMap fun a => graphCommits a.1 a.2).filter
          fun c => s.manifest.graphAbsorbedThrough < c.seq := by
  have hinv:=run.invariant
    (fun s => ∃ g base,GraphInv hooks s g base s.durable.toNat)
    ⟨_,GraphInv.fresh hpos⟩
    (by
      rintro s e t ⟨g,base,h⟩ hok hstep
      exact h.step_kept hok.1 hok.2 hstep)
  obtain ⟨g,base,h⟩ := hinv
  obtain ⟨tail,hrecover,hgeneration,hgraph⟩ := (h.recover_counts).of_lt s.durable.isLt
  exact ⟨tail,hrecover,BitVec.eq_of_toNat_eq hgeneration,hgraph⟩

end Steps

def openHooks : StoreHooks := ⟨fun _ => 0,fun _ => .ok (),fun _ => .ok ()⟩

def graphAppend : Appended :=
  ⟨.standalone ⟨graphCommitV1,[7],.graphCommit [7]⟩,[(graphCommitV1,[7])],1⟩

def upsertAppend (docId : DocId) : Appended :=
  let document:=IngestDocument.new ⟨docId,1⟩ [0]
  let payload:=(encodeUpsertV2 document).toOption.getD []
  ⟨.standalone ⟨upsertV2,payload,.upsert document⟩,[(upsertV2,payload)],1⟩

theorem graphAppend_enabled {s : StoreState} (hfenced : s.fenced = false) (hlive : s.live = s.durable)
    (hgraph : s.manifest.graph.isSome = true) (hpos : 0 < s.nextSeq.toNat)
    (hroom : s.nextSeq.toNat+1 < 2^64) :
    Enabled openHooks s (.commit graphAppend) := by
  refine ⟨fun h => absurd (hfenced.symm.trans h) Bool.false_ne_true,hlive,⟨⟨⟨rfl,⟨by decide,by decide,
    by decide,by decide⟩,by decide,by decide,by decide,?_⟩,trivial⟩,?_,hpos,hroom,.inl hgraph,?_⟩,
    rfl,fun _ _ h => nomatch h⟩
  · intro b ms h
    cases h
  · intro f hf
    rw [mem_singleton.mp hf]
    decide
  · intro b hb m hm
    obtain rfl := mem_singleton.mp hb
    obtain rfl := mem_singleton.mp hm
    exact ⟨hgraph,(BitVec.add_zero _).symm⟩

theorem upsertAppend_ok {docId : DocId} (h : docId = 6 ∨ docId = 7) (graph : Bool)
    {first : LogSeq} (hpos : 0 < first.toNat) (hroom : first.toNat+1 < 2^64) :
    LogOk openHooks graph (decisionIn []) first [upsertAppend docId] := by
  refine ⟨⟨⟨rfl,⟨?_,?_,?_,?_⟩,cons_ne_nil _ _,by simp [upsertAppend,Batch.members],le_rfl,?_⟩,
    trivial⟩,?_,hpos,hroom,.inr ?_,?_⟩
  · exact (by decide : upsertV2 ≠ preparedMutationV1)
  · exact (by decide : upsertV2 ≠ upsertV2BatchMember)
  · exact (by decide : upsertV2 ≠ mixedBatchMemberV1)
  · rcases h with rfl | rfl <;> decide +kernel
  · intro b ms hb
    cases hb
  · intro f hf
    rw [mem_singleton.mp hf]
    rcases h with rfl | rfl <;> decide +kernel
  · intro f hf
    rw [mem_singleton.mp hf]
    exact (by decide : upsertV2 ≠ graphCommitV1 ∧ upsertV2 ≠ mixedBatchMemberV1)
  · intro b hb m hm
    obtain rfl := mem_singleton.mp hb
    obtain rfl := mem_singleton.mp hm
    rfl

theorem upsertAppend_documents (decision : TransactionBinding → Option TransactionBinding)
    (first : LogSeq) (docIds : List DocId) :
    ∀ b ∈ expectedBatches decision first (docIds.map upsertAppend),∀ m ∈ b.members,∀ bytes,
      m.2.2 ≠ .graphCommit bytes := by
  induction docIds generalizing first with
  | nil => exact fun b hb => absurd hb not_mem_nil
  | cons docId docIds ih =>
    intro b hb m hm bytes
    rcases mem_append.mp hb with hb | hb
    · obtain rfl := mem_singleton.mp hb
      obtain rfl := mem_singleton.mp hm
      exact fun h => nomatch h
    · exact ih _ b hb m hm bytes

theorem upsertAppend_enabled {s : StoreState} {docId : DocId} (h : docId = 6 ∨ docId = 7)
    (hfenced : s.fenced = false) (hlive : s.live = s.durable) (haccepted : s.accepted = [])
    (hpos : 0 < s.nextSeq.toNat) (hroom : s.nextSeq.toNat+1 < 2^64) :
    Enabled openHooks s (.commit (upsertAppend docId)) := by
  refine ⟨fun h => absurd (hfenced.symm.trans h) Bool.false_ne_true,hlive,?_,rfl,fun _ _ h => nomatch h⟩
  rw [Appendable,haccepted]
  exact upsertAppend_ok h _ hpos hroom

/-- A graph commit, its checkpoint, an upsert, a merge and a second graph commit, which is not
acknowledged when its sealed tombstones are published. -/
theorem recover_graph_commits :
    ∃ (s : StoreState) (tail : Tail),
      s.recover openHooks = .ok tail ∧ s.live = 5 ∧
      tail.generation = 6 ∧ s.manifest.logSeq = 0 ∧ s.manifest.graphAbsorbedThrough = 1 ∧
      tail.graph = [⟨3,6,[7]⟩] := by
  have hrun : ∃ s : StoreState,Run (storeStep openHooks)
      (fun s e => Enabled openHooks s e ∧ ¬ LostPublication s e)
      (StoreState.fresh 1 true) [.commit graphAppend,.acknowledge,.checkpoint 1 false,.acknowledge,
        .commit (upsertAppend 6),.acknowledge,.bumpManifest,.acknowledge,.commit graphAppend,
        .publishTombstones] s ∧ s.live = 5 ∧ s.durable = 6 ∧ s.manifest.logSeq = 0 ∧
        s.manifest.graphAbsorbedThrough = 1 ∧
        (s.history.flatMap fun a => graphCommits a.1 a.2).filter
          (fun c => s.manifest.graphAbsorbedThrough < c.seq) = [⟨3,6,[7]⟩] := by
    have hopen : ∀ {s : StoreState} {e : StoreEvent},s.fenced = false →
        (s.fenced = true → ∃ repair,e = .reopen repair) :=
      fun hfenced h => absurd (hfenced.symm.trans h) Bool.false_ne_true
    refine ⟨_,Run.cons ⟨graphAppend_enabled rfl rfl rfl (by decide) (by decide),id⟩ rfl <|
      Run.cons ⟨⟨hopen rfl,trivial⟩,id⟩ rfl <|
      Run.cons ⟨⟨hopen rfl,rfl,rfl,.inr ⟨_,mem_singleton_self _,rfl⟩,?_⟩,id⟩ rfl <|
      Run.cons ⟨⟨hopen rfl,trivial⟩,id⟩ rfl <|
      Run.cons ⟨upsertAppend_enabled (.inl rfl) rfl rfl rfl (by decide) (by decide),id⟩ rfl <|
      Run.cons ⟨⟨hopen rfl,trivial⟩,id⟩ rfl <|
      Run.cons ⟨⟨hopen rfl,rfl⟩,id⟩ rfl <| Run.cons ⟨⟨hopen rfl,trivial⟩,id⟩ rfl <|
      Run.cons ⟨graphAppend_enabled rfl rfl rfl (by decide) (by decide),id⟩ rfl <|
      Run.cons ⟨⟨hopen rfl,trivial⟩,id⟩ rfl <| Run.refl _,?_⟩
    · intro b hb m hm _ _
      obtain rfl := mem_singleton.mp hb
      obtain rfl := mem_singleton.mp hm
      decide
    · decide +kernel
  obtain ⟨s,hrun,hlive,hdurable,hlogSeq,hmark,hhistory⟩ := hrun
  obtain ⟨tail,hrecover,hgeneration,hgraph⟩ := recover_graphStore _ (by decide) hrun
  exact ⟨s,tail,hrecover,hlive,hgeneration.trans hdurable,hlogSeq,hmark,hgraph.trans hhistory⟩

/-- Two upserts, of which a purge keeps the second, and a crash in front of its last publication. -/
theorem recover_counts_image_twice :
    ∃ (s : StoreState) (tail : Tail),
      Run (storeStep openHooks)
        (Enabled openHooks) (StoreState.fresh 1 true)
        [.commit (upsertAppend 6),.acknowledge,.commit (upsertAppend 7),.acknowledge,.bumpManifest,
          .acknowledge,.purge [upsertAppend 7] false] s ∧
      s.recover openHooks = .ok tail ∧
      s.live = 4 ∧ s.durable = 4 ∧ tail.generation = 5 := by
  have hopen : ∀ {s : StoreState} {e : StoreEvent},s.fenced = false →
      (s.fenced = true → ∃ repair,e = .reopen repair) :=
    fun hfenced h => absurd (hfenced.symm.trans h) Bool.false_ne_true
  have hrun : ∃ s : StoreState,Run (storeStep openHooks)
        (Enabled openHooks) (StoreState.fresh 1 true)
        [.commit (upsertAppend 6),.acknowledge,.commit (upsertAppend 7),.acknowledge,.bumpManifest,
          .acknowledge,.purge [upsertAppend 7] false] s ∧
      (s.recover openHooks).toOption.map Tail.generation =
        some 5 ∧ s.live = 4 ∧ s.durable = 4 := by
    refine ⟨_,Run.cons (upsertAppend_enabled (.inl rfl) rfl rfl rfl (by decide) (by decide)) rfl <|
      Run.cons ⟨hopen rfl,trivial⟩ rfl <|
      Run.cons (upsertAppend_enabled (.inr rfl) rfl rfl rfl (by decide) (by decide)) rfl <|
      Run.cons ⟨hopen rfl,trivial⟩ rfl <| Run.cons ⟨hopen rfl,rfl⟩ rfl <|
      Run.cons ⟨hopen rfl,trivial⟩ rfl <|
      Run.cons ⟨hopen rfl,rfl,by decide,?_,⟨upsertAppend_ok (.inr rfl) _ (by decide) (by decide),?_,
        fun _ => cons_ne_nil _ _,fun _ => le_rfl⟩⟩ rfl <| Run.refl _,?_⟩
    · exact fun b hb m hm bytes hbytes =>
        absurd hbytes (upsertAppend_documents _ _ [6,7] b hb m hm bytes)
    · exact upsertAppend_documents _ _ [7]
    · decide +kernel
  obtain ⟨s,hrun,hrecover,hlive⟩ := hrun
  cases hresult : s.recover openHooks with
  | error e =>
    rw [hresult] at hrecover
    cases hrecover
  | ok tail =>
    rw [hresult] at hrecover
    exact ⟨s,tail,hrun,hresult,hlive.1,hlive.2,Option.some.inj hrecover⟩

end Zeppelin.Ingest
