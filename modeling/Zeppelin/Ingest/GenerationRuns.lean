import Zeppelin.Ingest.GraphRuns

namespace Zeppelin.Ingest
open Wal Machine List

/-- The steps that recovery forgets: a manifest raised without a record while a
namespace batch is in the tail of a store without a graph. -/
def ForgottenBump (s : StoreState) : StoreEvent → Prop
  | .bumpManifest | .reopen true =>
    s.manifest.graph = none ∧ ∃ b ∈ s.accepted,s.manifest.logSeq < b.lastSeq
  | _ => False

variable {bs : List TransactionBinding} {b : TransactionBinding}

theorem lastDecision_mem (h : lastDecision bs = some b) : b ∈ bs := by
  induction bs generalizing b with
  | nil => cases h
  | cons a bs ih =>
    rw [lastDecision] at h
    split at h
    · obtain rfl := Option.some.inj h
      exact mem_cons_self ..
    · rename_i best hbest
      split at h
      · obtain rfl := Option.some.inj h
        exact mem_cons_of_mem _ (ih hbest)
      · obtain rfl := Option.some.inj h
        exact mem_cons_self ..

theorem lastDecision_cons
    (h : ∀ a ∈ bs,a.lastSeq < b.lastSeq) : lastDecision (b::bs) = some b := by
  rw [lastDecision]
  split
  · rfl
  · rename_i best hbest
    have hlt:=h best (lastDecision_mem hbest)
    rw [if_neg (BitVec.not_le.mpr hlt)]

/-- The binding that fixes the generation of what precedes it. -/
def StoreState.pending (s : StoreState) : Option TransactionBinding :=
  (lastDecision s.accepted).filter fun b => s.manifest.logSeq < b.lastSeq

/-- The generation a store without a graph recovers at. -/
def StoreState.counted (s : StoreState) : ℕ :=
  match s.pending with
  | none => s.manifest.generation.toNat+(above s.manifest.logSeq s.batches).length
  | some b => b.finalGeneration.toNat+(above b.lastSeq s.batches).length

variable {s t : StoreState}

theorem pending_mem (h : s.pending = some b) : b ∈ s.accepted ∧ s.manifest.logSeq < b.lastSeq := by
  obtain ⟨hlast,hlt⟩ := Option.filter_eq_some_iff.mp h
  exact ⟨lastDecision_mem hlast,by simpa using hlt⟩

theorem pending_none (h : ∀ b ∈ s.accepted,b.lastSeq ≤ s.manifest.logSeq) : s.pending = none := by
  rw [Option.eq_none_iff_forall_ne_some]
  intro b hb
  obtain ⟨hmem,hlt⟩ := pending_mem hb
  exact BitVec.not_le.mpr hlt (h b hmem)

theorem le_counted (h : s.pending = none) : s.manifest.generation.toNat ≤ s.counted := by
  rw [StoreState.counted,h]
  exact Nat.le_add_right ..

theorem Manifest.mark_of_none {m : Manifest} (h : m.graph = none) : m.mark = m.logSeq := by
  rw [Manifest.mark,Manifest.graphAbsorbedThrough,h]
  rcases maxWord_eq_or m.logSeq m.logSeq with heq | heq <;> exact heq

section Store
variable (hooks : StoreHooks)

structure PlainInv (s : StoreState) : Prop where
  marked : Marked hooks s
  graph : s.manifest.graph = none
  ends : ∀ b ∈ s.accepted,Boundary s.first s.log b.lastSeq ∧ b.lastSeq ≤ s.durableEnd
  manifest_le : s.manifest.generation.toNat ≤ s.counted
  durable_le : s.durable.toNat ≤ s.counted

variable {hooks}

theorem PlainInv.recover_counts (h : PlainInv hooks s) :
    s.recover hooks = .error .generationOverflow ∨
      ∃ tail,s.recover hooks = .ok tail ∧
        tail.generation.toNat = s.counted := by
  have hmark:=Manifest.mark_of_none h.graph
  have hstart : s.start hooks = .ok s.manifest.generation := by
    simp [StoreState.start,startGeneration,h.graph]
  have hopen : s.manifest.openRows = [] := by simp [Manifest.openRows,manifestBumps,h.graph]
  have hreplay:=h.marked.replay_counts hstart (by rw [hopen]; exact Nat.zero_le _)
  have hrecover : s.recover hooks =
      (s.replay hooks >>= fun tail =>
        match lastDecision s.accepted with
        | none => return tail
        | some binding =>
          if binding.lastSeq > s.manifest.mark ∧ s.manifest.graph.isNone then do
            let later ← committedBatches hooks.xxh3 hooks.validateEnvelope (decisionIn s.accepted)
              (storeRecords hooks.xxh3 s.first s.log) binding.lastSeq
            let generation ← addGeneration binding.finalGeneration (BitVec.ofNat 64 later.length)
            return { tail with generation }
          else return tail) := rfl
  rw [hrecover,h.graph,hmark]
  rw [StoreState.replayed,hmark] at hreplay
  cases hresult : s.replay hooks with
  | error e =>
    rw [hresult] at hreplay
    exact .inl (congrArg Except.error hreplay.1)
  | ok tail =>
    rw [hresult] at hreplay
    obtain ⟨hgeneration,-⟩ := hreplay
    rw [ok_bind]
    cases hlast : lastDecision s.accepted with
    | none =>
      have hpending : s.pending = none := by rw [StoreState.pending,hlast]; rfl
      refine .inr ⟨tail,rfl,?_⟩
      rw [StoreState.counted,hpending]
      exact hgeneration
    | some b =>
      simp only [Option.isNone_none,and_true,gt_iff_lt]
      by_cases hlt : s.manifest.logSeq < b.lastSeq
      · -- the binding fixes the generation of what precedes it
        have hpending : s.pending = some b := by
          rw [StoreState.pending,hlast]
          exact Option.filter_some_pos (decide_eq_true hlt)
        have hlater:=(h.ends b (lastDecision_mem hlast)).1.committed h.marked.log
        have hle : (above b.lastSeq s.batches).length ≤
            (above s.manifest.logSeq s.batches).length := by
          refine (monotone_filter_right _ fun batch hbatch => ?_).length_le
          have hbatch : b.lastSeq < batch.lastSeq := by simpa using hbatch
          exact decide_eq_true (BitVec.lt_def.mpr
            ((BitVec.lt_def.mp hlt).trans (BitVec.lt_def.mp hbatch)))
        have hnat : (BitVec.ofNat 64 (above b.lastSeq s.batches).length).toNat =
            (above b.lastSeq s.batches).length := by
          rw [BitVec.toNat_ofNat,Nat.mod_eq_of_lt (by have := tail.generation.isLt; omega)]
        have hadd:=addGeneration_counts b.finalGeneration
          (BitVec.ofNat 64 (above b.lastSeq s.batches).length) le_rfl
        rw [if_pos hlt,show decisionIn s.accepted = s.decision from rfl,hlater,ok_bind]
        rw [StoreState.counted,hpending]
        rw [show expectedBatches s.decision s.first s.log = s.batches from rfl]
        cases haddition : addGeneration b.finalGeneration
            (BitVec.ofNat 64 (above b.lastSeq s.batches).length) with
        | error e =>
          rw [haddition] at hadd
          exact .inl (congrArg Except.error hadd.1)
        | ok generation =>
          rw [haddition] at hadd
          have hadd : generation.toNat = _ := hadd
          exact .inr ⟨{ tail with generation },rfl,by simp only; omega⟩
      · have hpending : s.pending = none := by
          rw [StoreState.pending,hlast]
          exact Option.filter_some_neg (by simpa using hlt)
        refine .inr ⟨tail,by rw [if_neg hlt]; rfl,?_⟩
        rw [StoreState.counted,hpending]
        exact hgeneration

end Store

section Steps
variable {hooks : StoreHooks} {a : Appended} {m : Manifest}
  {e : StoreEvent} {image : List Appended}

theorem Manifest.cutAt_plain (h : m.graph = none) (generation boundary : U64) :
    m.cutAt generation boundary = ⟨generation,m.logSeq,none⟩ := by
  simp [Manifest.cutAt,h]

theorem recordBumps_plain (boundary : U64) (n : ℕ) (h : m.graph = none) :
    m.recordBumps boundary n = .ok m := by
  induction n with
  | zero => rfl
  | succ n ih => rw [Manifest.recordBumps,Manifest.recordGenerationBump,h,ok_bind,ih]

theorem PlainInv.other (h : PlainInv hooks s) {durable : U64}
    (hdurable : durable.toNat ≤ s.counted) (live : U64) (returned : List U64) (fenced : Bool) :
    PlainInv hooks { s with live,durable,returned,fenced } :=
  ⟨⟨h.marked.log,h.marked.logSeq,h.marked.graphMark,h.marked.mark_le,h.marked.early⟩,h.graph,h.ends,
    h.manifest_le,hdurable⟩

/-- A state with no binding in the tail counts on top of its manifest. -/
theorem PlainInv.restart (hmarked : Marked hooks t)
    (hgraph : t.manifest.graph = none)
    (hends : ∀ b ∈ t.accepted,Boundary t.first t.log b.lastSeq ∧ b.lastSeq ≤ t.durableEnd)
    (hpending : t.pending = none) (hle : t.durable.toNat ≤ t.manifest.generation.toNat) :
    PlainInv hooks t :=
  ⟨hmarked,hgraph,hends,le_counted hpending,hle.trans (le_counted hpending)⟩

/-- A publication of another generation. -/
theorem PlainInv.publish (h : PlainInv hooks s) (generation : U64)
    (hdurable : s.durable.toNat ≤ generation.toNat)
    (hle : s.pending ≠ none → generation.toNat ≤ s.counted) :
    PlainInv hooks
      { s with manifest := ⟨generation,s.manifest.logSeq,none⟩ } := by
  have hmarked:=h.marked.publish (m := ⟨generation,s.manifest.logSeq,none⟩) rfl
    (by simp only [Manifest.graphAbsorbedThrough,h.graph]) (by simp only [h.graph])
  cases hpending : s.pending with
  | none => exact .restart hmarked rfl h.ends hpending hdurable
  | some b =>
    have hsame : ({ s with manifest := ⟨generation,s.manifest.logSeq,none⟩ } : StoreState).counted =
        s.counted := by
      have hpending' : ({ s with manifest := ⟨generation,s.manifest.logSeq,none⟩ } :
        StoreState).pending = some b := hpending
      rw [StoreState.counted,StoreState.counted,hpending,hpending']
      rfl
    refine ⟨hmarked,rfl,h.ends,?_,?_⟩
    · rw [hsame]
      exact hle (by rw [hpending]; exact Option.some_ne_none b)
    · rw [hsame]
      exact h.durable_le

theorem PlainInv.append (h : PlainInv hooks s)
    (happ : Appendable hooks s s.accepted a) (hfirst : t.first = s.first)
    (hlog : t.log = s.log++[a]) (haccepted : t.accepted = s.accepted)
    (hmanifest : t.manifest = s.manifest)
    (hle : t.durable.toNat ≤ s.durable.toNat+(expectedBatches s.decision s.nextSeq [a]).length) :
    PlainInv hooks t := by
  obtain ⟨hmarked,hbatches,hend⟩ := h.marked.append (fun _ _ _ _ _ => rfl) happ hfirst hlog haccepted
    hmanifest
  have hafter : ∀ mark : U64,mark ≤ s.durableEnd →
      (above mark t.batches).length = (above mark s.batches).length+
        (expectedBatches s.decision s.nextSeq [a]).length := by
    intro mark hmark
    rw [hbatches,above_append,length_append,above_self fun b hb =>
      ((behind_durableEnd h.marked.log happ b hb).mono hmark).1]
    rfl
  have hcounted : t.counted = s.counted+(expectedBatches s.decision s.nextSeq [a]).length := by
    have hpending : t.pending = s.pending := by
      rw [StoreState.pending,StoreState.pending,haccepted,hmanifest]
    rw [StoreState.counted,StoreState.counted,hpending,hmanifest]
    cases hb : s.pending with
    | none =>
      have hmark:=BitVec.le_trans s.manifest.le_mark.1 h.marked.mark_le
      simp only [hafter _ hmark,Nat.add_assoc]
    | some b => simp only [hafter _ (h.ends b (pending_mem hb).1).2,Nat.add_assoc]
  have hmanifestLe:=h.manifest_le
  have hdurable:=h.durable_le
  refine ⟨hmarked,by rw [hmanifest]; exact h.graph,?_,by rw [hmanifest]; omega,by omega⟩
  intro b hb
  rw [haccepted] at hb
  obtain ⟨hends,hble⟩ := h.ends b hb
  rw [hfirst,hlog]
  exact ⟨hends.concat a,BitVec.le_trans hble hend⟩

/-- The adopted binding counts from the end of the log on. -/
theorem PlainInv.adopt (h : PlainInv hooks s) {members : List Member}
    (hbatch : a.batch = .prepared b members) (hwhole : a.present = a.frames.length)
    (happ : Appendable hooks s (b::s.accepted) a)
    (hsame : SameDecisions s.decision (decisionIn (b::s.accepted)) s.log)
    (hfirst : t.first = s.first) (hlog : t.log = s.log++[a]) (haccepted : t.accepted = b::s.accepted)
    (hmanifest : t.manifest = ⟨b.finalGeneration,s.manifest.logSeq,none⟩)
    (hdurable : t.durable = b.finalGeneration) :
    PlainInv hooks t := by
  obtain ⟨hmarked,-,-⟩ := h.marked.append (t := { t with manifest := s.manifest }) hsame happ hfirst
    hlog haccepted rfl
  have hmarked : Marked hooks t := hmarked.publish (m := t.manifest)
    (by rw [hmanifest]) (by simp only [hmanifest,Manifest.graphAbsorbedThrough,h.graph])
    (by simp only [hmanifest,h.graph])
  have hlast : b.lastSeq = t.durableEnd :=
    Appendable.prepared_end h.marked.log happ hbatch hwhole hfirst hlog
  have hend:=Appendable.durableEnd h.marked.log happ hfirst hlog
  have hne:=length_pos_iff.mpr happ.valid.1.nonempty
  have hlen:=happ.valid.1.members_length
  have hlt : ∀ mark : U64,mark ≤ s.durableEnd → mark < b.lastSeq := fun mark hmark =>
    BitVec.lt_def.mpr (by have := BitVec.le_def.mp hmark; rw [hlast]; omega)
  have hpending : t.pending = some b := by
    rw [StoreState.pending,haccepted,hmanifest,lastDecision_cons fun b' hb' => hlt _ (h.ends b' hb').2]
    exact Option.filter_some_pos (decide_eq_true
      (hlt _ (BitVec.le_trans s.manifest.le_mark.1 h.marked.mark_le)))
  have hcounted : b.finalGeneration.toNat ≤ t.counted := by
    rw [StoreState.counted,hpending]
    exact Nat.le_add_right ..
  refine ⟨hmarked,by rw [hmanifest],?_,by rw [hmanifest]; exact hcounted,
    by rw [hdurable]; exact hcounted⟩
  intro b' hb'
  rw [haccepted] at hb'
  rcases mem_cons.mp hb' with rfl | hb'
  · rw [hlast]
    exact ⟨.inr (endsAt_durableEnd hmarked.log),BitVec.le_refl _⟩
  · obtain ⟨hends,hle⟩ := h.ends b' hb'
    rw [hfirst,hlog,← hlast]
    exact ⟨hends.concat a,BitVec.le_of_lt (hlt _ hle)⟩

theorem PlainInv.rewrite (h : PlainInv hooks s)
    (himage : (s.rewrite image).Logged hooks)
    (hdocuments : ∀ b ∈ (s.rewrite image).batches,∀ member ∈ b.members,∀ bytes,
      member.2.2 ≠ .graphCommit bytes)
    (hle : s.durable.toNat ≤ s.manifest.generation.toNat) :
    PlainInv hooks (s.rewrite image) :=
  .restart (h.marked.rewrite himage hdocuments).1 h.graph (fun _ hb => absurd hb not_mem_nil) rfl hle

theorem PlainInv.step (h : PlainInv hooks s)
    (hok : Enabled hooks s e) (hkept : ¬ ForgottenBump s e)
    (hstep : storeStep hooks s e = some t) :
    PlainInv hooks t := by
  have hone : (1 : U64).toNat = 1 := rfl
  have hdurable:=h.durable_le
  have hlogSeq:=BitVec.le_trans s.manifest.le_mark.1 h.marked.mark_le
  -- a step that raises the manifest alone finds no binding in the tail
  have habsorbed : (¬ ∃ b ∈ s.accepted,s.manifest.logSeq < b.lastSeq) → s.pending = none :=
    fun hnone => pending_none fun b hb => BitVec.not_lt.mp fun hlt => hnone ⟨b,hb,hlt⟩
  cases e with
  | abandon a =>
    obtain ⟨-,-,happ,-⟩ := hok
    obtain rfl := Option.some.inj hstep
    exact h.append happ rfl rfl rfl rfl (Nat.le_add_right ..)
  | commit a =>
    obtain ⟨-,hlive,happ,hlen,-⟩ := hok
    obtain ⟨generation,hadd,hstep⟩ := Option.bind_eq_some_iff.mp hstep
    obtain rfl := Option.some.inj hstep
    have hgeneration:=checkedAdd_eq_some hadd
    rw [hlive] at hgeneration
    exact h.append happ rfl rfl rfl rfl (by simp only; omega)
  | namespaceBatch a =>
    obtain ⟨-,-,binding,members,hbatch,happ,hlen,-,hnew⟩ := hok
    simp only [storeStep,hbatch,Manifest.stageNamespace,Manifest.cutAt_plain h.graph,
      recordBumps_plain _ _ (m := ⟨binding.finalGeneration,s.manifest.logSeq,none⟩) rfl] at hstep
    obtain ⟨generation,-,hstep⟩ := Option.bind_eq_some_iff.mp hstep
    obtain ⟨manifest,hmanifest,hstep⟩ := Option.bind_eq_some_iff.mp hstep
    obtain rfl := Option.some.inj hmanifest
    obtain rfl := Option.some.inj hstep
    exact h.adopt hbatch (Appendable.whole hlen) happ (sameDecisions_fresh hnew) rfl rfl rfl rfl rfl
  | publishTombstones =>
    obtain rfl := Option.some.inj hstep
    rw [Manifest.cutAt_plain h.graph]
    exact h.publish s.durable le_rfl fun _ => hdurable
  | bumpManifest =>
    obtain ⟨-,hlive⟩ := hok
    have hlive : s.live = s.durable := hlive
    obtain ⟨generation,hadd,hstep⟩ := Option.bind_eq_some_iff.mp hstep
    obtain ⟨manifest,hmanifest,hstep⟩ := Option.bind_eq_some_iff.mp hstep
    obtain rfl := Option.some.inj hstep
    simp only [Manifest.recordGenerationBump,h.graph] at hmanifest
    obtain rfl := Option.some.inj hmanifest
    have hgeneration:=checkedAdd_eq_some hadd
    have hmax:=BitVec.le_def.mp (le_maxWord s.live s.manifest.generation).1
    have hpending:=habsorbed fun hex => hkept ⟨h.graph,hex⟩
    rw [hlive] at hmax hgeneration
    have hnext:=h.publish generation (by omega) fun hne => absurd hpending hne
    exact hnext.other (le_counted (s := { s with manifest := ⟨generation,s.manifest.logSeq,none⟩ })
      hpending) ..
  | sealManifest graphChanged =>
    obtain ⟨-,hlive⟩ := hok
    have hlive : s.live = s.durable := hlive
    obtain ⟨generation,hadd,hstep⟩ := Option.bind_eq_some_iff.mp hstep
    have hmanifest : s.manifest.sealThrough generation s.durableEnd graphChanged =
        ⟨generation,s.durableEnd,none⟩ := by
      simp [Manifest.sealThrough,h.graph]
    rw [hmanifest] at hstep
    obtain rfl := Option.some.inj hstep
    have hends : Boundary s.first s.log s.durableEnd := .inr (endsAt_durableEnd h.marked.log)
    have hlog:=h.marked.log
    rw [StoreState.Logged,h.graph] at hlog
    exact .restart (.of_commits hlog hends hends
      (by rw [Manifest.mark_of_none rfl]; exact BitVec.le_refl _)
      fun b hb member hmember _ _ => (le_durableEnd h.marked.log hb).2 member hmember) rfl h.ends
      (pending_none fun b hb => (h.ends b hb).2) le_rfl
  | truncate =>
    obtain ⟨-,hend,-⟩ := hok
    obtain rfl := Option.some.inj hstep
    have hpending : s.pending = none := pending_none fun b hb => by
      rw [hend]
      exact (h.ends b hb).2
    have hpos:=durableEnd_toNat h.marked.log
    rw [StoreState.counted,hpending,hend] at hdurable
    simp only [above_durableEnd h.marked.log,length_nil,Nat.add_zero] at hdurable
    have hpos : 0 < s.nextSeq.toNat := by omega
    exact h.rewrite (logged_empty _ _ hpos) (fun b hb => absurd hb not_mem_nil) hdurable
  | checkpoint mark emptied =>
    obtain ⟨-,-,hgraph,-⟩ := hok
    rw [h.graph] at hgraph
    cases hgraph
  | purge image published =>
    obtain ⟨-,-,hle,-,himage⟩ := hok
    have hnext:=h.rewrite himage.log himage.documents (BitVec.le_def.mp hle)
    cases published with
    | false =>
      obtain rfl := Option.some.inj hstep
      exact hnext.other hnext.durable_le ..
    | true =>
      simp only [storeStep,Manifest.foldBumps,h.graph] at hstep
      obtain rfl := Option.some.inj hstep
      exact hnext
  | acknowledge =>
    obtain rfl := Option.some.inj hstep
    exact h.other hdurable ..
  | reopen repair =>
    rcases h.recover_counts with hover | ⟨tail,htail,hcounted⟩
    · simp only [storeStep,hover] at hstep
      cases hstep
    · simp only [storeStep,htail,h.graph,Option.isSome_none,Bool.false_eq_true,if_false] at hstep
      cases repair with
      | false =>
        obtain rfl := Option.some.inj hstep
        exact h.other hcounted.le ..
      | true =>
        obtain ⟨generation,hadd,hstep⟩ := Option.bind_eq_some_iff.mp hstep
        obtain rfl := Option.some.inj hstep
        have hgeneration:=checkedAdd_eq_some hadd
        have hpending:=habsorbed fun hex => hkept ⟨h.graph,hex⟩
        rw [Manifest.cutAt_plain h.graph]
        have hnext:=h.publish generation (by omega) fun hne => absurd hpending hne
        exact hnext.other (le_counted (s := { s with manifest := ⟨generation,s.manifest.logSeq,none⟩ })
          hpending) ..

theorem PlainInv.fresh (generation : U64) :
    PlainInv hooks (StoreState.fresh generation false) := by
  have hfirst : (0 : U64) < 1 := by decide
  have hmark : (StoreState.fresh generation false).manifest.mark = 0 := rfl
  exact .restart (.of_commits (logged_empty false (decisionIn []) Nat.one_pos) (.inl hfirst) (.inl hfirst)
    (by rw [hmark]; exact BitVec.le_def.mpr (Nat.zero_le _)) fun _ hb => absurd hb not_mem_nil) rfl
    (fun _ hb => absurd hb not_mem_nil) rfl le_rfl

def boundaryError : StoreError :=
  .manifestDecode "generation boundary is not a committed batch boundary"

theorem startGeneration_refused {generation absorbedThrough graphAbsorbedThrough b nextSeq : U64}
    {g : GraphManifest} {records : List VisibleRecord} {batches : List CommittedBatch}
    (hb : g.generationAbsorbedThrough = some b)
    (hmark : maxWord absorbedThrough graphAbsorbedThrough < b)
    (hretained : records.any (fun record => record.seq = b) = false)
    (hretired : checkedAdd b 1 ≠ some (retainedFirstSeq records nextSeq)) :
    startGeneration generation absorbedThrough graphAbsorbedThrough (some g) records nextSeq batches =
      .error boundaryError := by
  have hboundary:=decide_eq_false hretired
  simp only [startGeneration,hb,hretained,hboundary,Bool.false_and,Bool.false_or,Bool.and_false]
  rw [if_pos ⟨hmark,Bool.false_ne_true⟩]
  rfl

/-- A cutoff inside the old log is no boundary of the new one. -/
theorem GraphInv.refused {g : GraphManifest} {base n : ℕ} {b : U64}
    (h : GraphInv hooks s g base n)
    (himage : (s.rewrite image).Logged hooks)
    (hdocuments : ∀ b ∈ (s.rewrite image).batches,∀ member ∈ b.members,∀ bytes,
      member.2.2 ≠ .graphCommit bytes)
    (hb : g.generationAbsorbedThrough = some b) (hmark : s.manifest.mark < b) (hne : b ≠ s.durableEnd) :
    (s.rewrite image).recover hooks = .error boundaryError := by
  obtain ⟨b',hb',hle,-⟩ := h.cutoff
  obtain rfl := Option.some.inj (hb.symm.trans hb')
  have hend:=durableEnd_toNat h.marked.log
  have hlt : b.toNat+1 < s.nextSeq.toNat := by
    have hle:=BitVec.le_def.mp hle
    have hne : b.toNat ≠ s.durableEnd.toNat := fun heq => hne (BitVec.eq_of_toNat_eq heq)
    omega
  have hretained : (storeRecords hooks.xxh3 s.nextSeq image).any (fun record => record.seq = b) = false := by
    rw [any_eq_false]
    intro record hrecord heq
    have hseq:=(storeRecords_range hrecord himage.room.le).1
    rw [show record.seq = b by simpa using heq] at hseq
    omega
  have hretired : checkedAdd b 1 ≠
      some (retainedFirstSeq (storeRecords hooks.xxh3 s.nextSeq image) (s.rewrite image).nextSeq) := by
    rw [show retainedFirstSeq _ (s.rewrite image).nextSeq = s.nextSeq from
      storeRecords_first hooks.xxh3 s.nextSeq image]
    intro hadd
    have hnext:=checkedAdd_eq_some hadd
    have hone : (1 : U64).toNat = 1 := rfl
    omega
  have hstart : (s.rewrite image).start hooks = .error boundaryError := by
    rw [StoreState.start,show (s.rewrite image).manifest.graph = some g from h.graph]
    exact startGeneration_refused hb hmark hretained hretired
  have hreplay : (s.rewrite image).replay hooks =
      .error boundaryError := by
    rw [(h.marked.rewrite himage hdocuments).1.replay_eq,replayCommitted,← StoreState.start,hstart]
    rfl
  rw [StoreState.recover,recoverTail,← StoreState.replay,hreplay]
  rfl

/-- The state of a graph store: it recovers at or past its durable generation, or is refused after
a purge whose publication did not happen. -/
def GraphState (hooks : StoreHooks) (s : StoreState) : Prop :=
  (∃ g base n,GraphInv hooks s g base n ∧ s.durable.toNat ≤ n ∧
    (s.fenced = false → s.durable.toNat = n)) ∨
  s.fenced = true ∧ s.recover hooks = .error boundaryError

theorem GraphState.step (h : GraphState hooks s)
    (hok : Enabled hooks s e)
    (hstep : storeStep hooks s e = some t) :
    GraphState hooks t := by
  rcases h with ⟨g,base,n,h,hle,hcurrent⟩ | ⟨hfenced,hrefused⟩
  · cases hfenced : s.fenced with
    | true =>
      obtain ⟨repair,rfl⟩ := hok.1 hfenced
      obtain ⟨g',hnext⟩ := h.reopened hstep
      exact .inl ⟨g',base,_,hnext,le_rfl,fun _ => rfl⟩
    | false =>
      obtain rfl := hcurrent hfenced
      by_cases hpublished : Unpublished e
      · cases e with
        | purge image published =>
          obtain rfl : published = false := hpublished
          obtain rfl := Option.some.inj hstep
          obtain ⟨b,hb,-⟩ := h.cutoff
          by_cases hcutoff : b ≤ s.manifest.mark ∨ b = s.durableEnd
          · obtain ⟨base',hnext⟩ := h.unpublished hok fun b' hb' => by
              obtain rfl := Option.some.inj (hb.symm.trans hb')
              exact hcutoff
            exact .inl ⟨g,base',_,hnext.other ..,Nat.le_add_right ..,fun hopen => nomatch hopen⟩
          · obtain ⟨hnot,hne⟩ := not_or.mp hcutoff
            obtain ⟨-,-,-,-,himage⟩ := hok
            exact .inr ⟨rfl,h.refused himage.log himage.documents hb (BitVec.not_le.mp hnot) hne⟩
        | _ => exact hpublished.elim
      · obtain ⟨g',base',hnext⟩ := h.step hok hpublished hstep
        exact .inl ⟨g',base',_,hnext,le_rfl,fun _ => rfl⟩
  · obtain ⟨repair,rfl⟩ := hok.1 hfenced
    simp only [storeStep,hrefused] at hstep
    cases hstep

theorem returned_step (hok : Enabled hooks s e)
    (hrecover : ∀ tail,s.recover hooks = .ok tail →
      s.durable.toNat ≤ tail.generation.toNat)
    (hstep : storeStep hooks s e = some t) :
    s.durable.toNat ≤ t.durable.toNat ∧
      (t.returned = s.returned ∨ t.returned = t.durable::s.returned) := by
  have hone : (1 : U64).toNat = 1 := rfl
  have hnext : ∀ generation,s.live = s.durable → checkedAdd s.live 1 = some generation →
      s.durable.toNat ≤ generation.toNat := by
    intro generation hlive hadd
    have hgeneration:=checkedAdd_eq_some hadd
    rw [hlive] at hgeneration
    omega
  obtain ⟨-,hok⟩ := hok
  cases e with
  | abandon a =>
    obtain rfl := Option.some.inj hstep
    exact ⟨le_rfl,.inl rfl⟩
  | commit a =>
    obtain ⟨generation,hadd,hstep⟩ := Option.bind_eq_some_iff.mp hstep
    obtain rfl := Option.some.inj hstep
    exact ⟨hnext generation hok.1 hadd,.inl rfl⟩
  | namespaceBatch a =>
    obtain ⟨hlive,binding,members,hbatch,-,-,hfinal,-⟩ := hok
    simp only [storeStep,hbatch] at hstep
    obtain ⟨generation,-,hstep⟩ := Option.bind_eq_some_iff.mp hstep
    obtain ⟨manifest,-,hstep⟩ := Option.bind_eq_some_iff.mp hstep
    obtain rfl := Option.some.inj hstep
    rw [hlive] at hfinal
    exact ⟨by simp only; omega,.inl rfl⟩
  | publishTombstones =>
    obtain rfl := Option.some.inj hstep
    exact ⟨le_rfl,.inl rfl⟩
  | bumpManifest =>
    have hlive : s.live = s.durable := hok
    obtain ⟨generation,hadd,hstep⟩ := Option.bind_eq_some_iff.mp hstep
    obtain ⟨manifest,-,hstep⟩ := Option.bind_eq_some_iff.mp hstep
    obtain rfl := Option.some.inj hstep
    have hgeneration:=checkedAdd_eq_some hadd
    have hmax:=BitVec.le_def.mp (le_maxWord s.live s.manifest.generation).1
    rw [hlive] at hgeneration hmax
    exact ⟨by simp only; omega,.inl rfl⟩
  | sealManifest graphChanged =>
    obtain ⟨generation,hadd,hstep⟩ := Option.bind_eq_some_iff.mp hstep
    obtain rfl := Option.some.inj hstep
    exact ⟨hnext generation hok hadd,.inl rfl⟩
  | truncate =>
    obtain rfl := Option.some.inj hstep
    exact ⟨le_rfl,.inl rfl⟩
  | checkpoint mark emptied =>
    obtain ⟨generation,hadd,hstep⟩ := Option.bind_eq_some_iff.mp hstep
    obtain ⟨manifest,-,hstep⟩ := Option.bind_eq_some_iff.mp hstep
    obtain rfl := Option.some.inj hstep
    exact ⟨hnext generation hok.1 hadd,.inl rfl⟩
  | purge image published =>
    cases published with
    | false =>
      obtain rfl := Option.some.inj hstep
      exact ⟨le_rfl,.inl rfl⟩
    | true =>
      obtain ⟨manifest,-,hstep⟩ := Option.bind_eq_some_iff.mp hstep
      obtain rfl := Option.some.inj hstep
      exact ⟨le_rfl,.inl rfl⟩
  | acknowledge =>
    obtain rfl := Option.some.inj hstep
    exact ⟨le_rfl,.inr rfl⟩
  | reopen repair =>
    cases hr : s.recover hooks with
    | error e =>
      simp only [storeStep,hr] at hstep
      cases hstep
    | ok tail =>
      have hle:=hrecover tail hr
      simp only [storeStep,hr] at hstep
      cases repair with
      | false =>
        obtain rfl := Option.some.inj hstep
        exact ⟨hle,.inr rfl⟩
      | true =>
        simp only [Bool.not_true,Bool.false_eq_true,if_false] at hstep
        split at hstep
        · obtain rfl := Option.some.inj hstep
          exact ⟨hle,.inr rfl⟩
        · obtain ⟨generation,hadd,hstep⟩ := Option.bind_eq_some_iff.mp hstep
          obtain rfl := Option.some.inj hstep
          have hgeneration:=checkedAdd_eq_some hadd
          exact ⟨by simp only; omega,.inr rfl⟩

theorem returned_le (hok : Enabled hooks s e)
    (hrecover : ∀ tail,s.recover hooks = .ok tail →
      s.durable.toNat ≤ tail.generation.toNat)
    (hstep : storeStep hooks s e = some t)
    (h : ∀ g ∈ s.returned,g.toNat ≤ s.durable.toNat) :
    ∀ g ∈ t.returned,g.toNat ≤ t.durable.toNat := by
  obtain ⟨hle,hreturned⟩ := returned_step hok hrecover hstep
  have hold : ∀ g ∈ s.returned,g.toNat ≤ t.durable.toNat := fun g hg => (h g hg).trans hle
  rcases hreturned with hsame | hnew
  · rwa [hsame]
  · rw [hnew]
    exact forall_mem_cons.mpr ⟨le_rfl,hold⟩

/-- Recovery does not go back behind the manifest and the durable generation. -/
def NotBack (hooks : StoreHooks) (s : StoreState) : Prop :=
  s.recover hooks = .error .generationOverflow ∨
  (s.fenced = true ∧ s.recover hooks = .error boundaryError) ∨
  ∃ tail,s.recover hooks = .ok tail ∧
    s.manifest.generation ≤ tail.generation ∧ s.durable ≤ tail.generation

theorem GraphState.notBack (h : GraphState hooks s) :
    NotBack hooks s := by
  rcases h with ⟨g,base,n,h,hle,-⟩ | hrefused
  · have hcounts:=h.recover_counts
    obtain ⟨b,-,-,-,hcount⟩ := h.cutoff
    cases hresult : s.recover hooks with
    | error e =>
      rw [hresult] at hcounts
      exact .inl (hresult.trans (congrArg Except.error hcounts.1))
    | ok tail =>
      rw [hresult] at hcounts
      have hgeneration : tail.generation.toNat = n := hcounts.1
      exact .inr (.inr ⟨tail,hresult,BitVec.le_def.mpr (by omega),BitVec.le_def.mpr (by omega)⟩)
  · exact .inr (.inl hrefused)

theorem PlainInv.notBack (h : PlainInv hooks s) :
    NotBack hooks s := by
  refine (h.recover_counts).imp_right fun hcounted => .inr ?_
  obtain ⟨tail,htail,hcounted⟩ := hcounted
  refine ⟨tail,htail,BitVec.le_def.mpr ?_,BitVec.le_def.mpr ?_⟩
  · rw [hcounted]
    exact h.manifest_le
  · rw [hcounted]
    exact h.durable_le

theorem NotBack.durable_le (h : NotBack hooks s) {tail : Tail}
    (htail : s.recover hooks = .ok tail) :
    s.durable.toNat ≤ tail.generation.toNat := by
  rcases h with hover | ⟨-,hrefused⟩ | ⟨tail',htail',-,hle⟩
  · cases htail.symm.trans hover
  · cases htail.symm.trans hrefused
  · obtain rfl := Except.ok.inj (htail.symm.trans htail')
    exact BitVec.le_def.mp hle

variable (hooks) in
/-- No reopen of a store goes back, in any run without a forgotten increment; after a purge whose
publication did not happen it may be refused. -/
theorem recover_generation_ge {generation : U64} {graph : Bool}
    (hpos : graph = true → 0 < generation.toNat) {es : List StoreEvent} {s : StoreState}
    (run : Run (storeStep hooks)
      (fun s e => Enabled hooks s e ∧ ¬ ForgottenBump s e)
      (StoreState.fresh generation graph) es s) :
    s.recover hooks = .error .generationOverflow ∨
    (s.fenced = true ∧ s.recover hooks = .error boundaryError) ∨
    ∃ tail,s.recover hooks = .ok tail ∧
      s.manifest.generation ≤ tail.generation ∧ ∀ g ∈ s.returned,g ≤ tail.generation := by
  have hfresh : GraphState hooks (StoreState.fresh generation graph) ∨
      PlainInv hooks (StoreState.fresh generation graph) := by
    cases graph with
    | true =>
      obtain ⟨base,h⟩ := GraphInv.fresh (hpos rfl)
      exact .inl (.inl ⟨_,base,_,h,le_rfl,fun _ => rfl⟩)
    | false => exact .inr (PlainInv.fresh generation)
  have hnotBack : ∀ s,GraphState hooks s ∨
      PlainInv hooks s → NotBack hooks s :=
    fun s h => h.elim GraphState.notBack PlainInv.notBack
  obtain ⟨hinv,hreturned⟩ := run.invariant
    (fun s => (GraphState hooks s ∨
      PlainInv hooks s) ∧ ∀ g ∈ s.returned,g.toNat ≤ s.durable.toNat)
    ⟨hfresh,by simp [StoreState.fresh]⟩
    (fun s e t h hok hstep => ⟨h.1.imp (fun hs => hs.step hok.1 hstep)
      (fun hs => hs.step hok.1 hok.2 hstep),
      returned_le hok.1 (fun _ htail => (hnotBack s h.1).durable_le htail) hstep h.2⟩)
  rcases hnotBack s hinv with hover | hrefused | ⟨tail,htail,hmanifest,hdurable⟩
  · exact .inl hover
  · exact .inr (.inl hrefused)
  · refine .inr (.inr ⟨tail,htail,hmanifest,fun g hg => ?_⟩)
    exact BitVec.le_def.mpr ((hreturned g hg).trans (BitVec.le_def.mp hdurable))

end Steps

def upsertBinding : TransactionBinding := ⟨1,1,1,1,0,2⟩

def preparedUpsert : Appended :=
  let document:=IngestDocument.new ⟨6,1⟩ [0]
  let payload:=(encodeUpsertV2 document).toOption.getD []
  ⟨.prepared upsertBinding [⟨upsertV2,payload,.upsert document⟩],
    [(preparedMutationV1,appendHeader++upsertBinding.bytes++toLe 4 (0 : U32)++toLe 4 (1 : U32)++
      toLe 2 upsertV2++payload)],1⟩

theorem preparedUpsert_enabled : Enabled openHooks
    (StoreState.fresh 1 false) (.namespaceBatch preparedUpsert) := by
  refine ⟨(fun h => nomatch h),rfl,upsertBinding,_,rfl,⟨⟨⟨by decide +kernel,?_,cons_ne_nil _ _,
    by decide,le_rfl,?_⟩,trivial⟩,?_,by decide,by decide,.inr ?_,?_⟩,by decide +kernel,.inl rfl,?_⟩
  · intro m hm
    rw [mem_singleton.mp hm]
    decide +kernel
  · intro b ms h
    cases h
    exact ⟨rfl,.inr ⟨rfl,rfl⟩⟩
  · intro f hf
    rw [mem_singleton.mp hf]
    decide +kernel
  · intro f hf
    rw [mem_singleton.mp hf]
    exact (by decide : preparedMutationV1 ≠ graphCommitV1 ∧ preparedMutationV1 ≠ mixedBatchMemberV1)
  · intro b hb m hm
    obtain rfl := mem_singleton.mp hb
    obtain rfl := mem_singleton.mp hm
    rfl
  · rintro b (hb | ⟨a,ha,-⟩)
    · cases hb
    · cases ha

/-- A merge after a namespace batch, and a crash. -/
theorem recover_forgets_merge :
    ∃ (s : StoreState) (tail : Tail),
      Run (storeStep openHooks)
        (Enabled openHooks) (StoreState.fresh 1 false)
        [.namespaceBatch preparedUpsert,.acknowledge,.bumpManifest,.acknowledge] s ∧
      s.recover openHooks = .ok tail ∧
      tail.generation = 2 ∧ s.manifest.generation = 3 ∧ 3 ∈ s.returned := by
  refine ⟨_,⟨2,[],[],[(1,upsertV2,.upsert (IngestDocument.new ⟨6,1⟩ [0]))]⟩,
    Run.cons preparedUpsert_enabled rfl <| Run.cons ⟨(fun h => nomatch h),trivial⟩ rfl <|
    Run.cons ⟨(fun h => nomatch h),rfl⟩ rfl <| Run.cons ⟨(fun h => nomatch h),trivial⟩ rfl <|
    Run.refl _,?_,rfl,rfl,?_⟩
  · decide +kernel
  · decide

/-- A merge after the namespace batch has been sealed is kept. -/
theorem recover_keeps_merge :
    ∃ (s : StoreState) (tail : Tail),4 ∈ s.returned ∧
      s.recover openHooks = .ok tail ∧
      s.manifest.generation ≤ tail.generation ∧ ∀ g ∈ s.returned,g ≤ tail.generation := by
  have hrun : ∃ s : StoreState,Run (storeStep openHooks)
      (fun s e => Enabled openHooks s e ∧ ¬ ForgottenBump s e)
      (StoreState.fresh 1 false) [.namespaceBatch preparedUpsert,.acknowledge,.sealManifest false,
        .acknowledge,.bumpManifest,.acknowledge] s ∧ 4 ∈ s.returned ∧ s.fenced = false ∧
      s.recover openHooks ≠ .error .generationOverflow := by
    have hopen : ∀ {s : StoreState} {e : StoreEvent},s.fenced = false →
        (s.fenced = true → ∃ repair,e = .reopen repair) :=
      fun hfenced h => absurd (hfenced.symm.trans h) Bool.false_ne_true
    refine ⟨_,Run.cons ⟨preparedUpsert_enabled,id⟩ rfl <| Run.cons ⟨⟨hopen rfl,trivial⟩,id⟩ rfl <|
      Run.cons ⟨⟨hopen rfl,rfl⟩,id⟩ rfl <| Run.cons ⟨⟨hopen rfl,trivial⟩,id⟩ rfl <|
      Run.cons ⟨⟨hopen rfl,rfl⟩,?_⟩ rfl <| Run.cons ⟨⟨hopen rfl,trivial⟩,id⟩ rfl <| Run.refl _,?_⟩
    · rintro ⟨-,b,hb,hlt⟩
      obtain rfl := mem_singleton.mp hb
      exact absurd hlt (by decide)
    · decide +kernel
  obtain ⟨s,hrun,hreturned,hfenced,hover⟩ := hrun
  have hpos : false = true → 0 < (1 : U64).toNat := fun _ => Nat.one_pos
  have hkept:=((recover_generation_ge _ hpos hrun).resolve_left hover).resolve_left
    fun h => absurd (hfenced.symm.trans h.1) Bool.false_ne_true
  obtain ⟨tail,htail,hle⟩ := hkept
  exact ⟨s,tail,hreturned,htail,hle⟩

end Zeppelin.Ingest
