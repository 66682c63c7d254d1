import Zeppelin.Wal.Staging

namespace Zeppelin.Wal
open Machine List

section Checksum
variable (xxh3 : Bytes → U64) (bound : GroupBound)

def Sequenced (g : Group) : Prop := g.lastSeq ≠ none ∧ g.encodedBytes ≤ bound.bytes

structure SameShell (st st' : WriterState) : Prop where
  nextSeq : st'.nextSeq = st.nextSeq
  durableEnd : st'.durableEnd = st.durableEnd
  barrierInFlight : st'.barrierInFlight = st.barrierInFlight
  failure : st'.failure = st.failure

theorem SameShell.trans {a b c : WriterState} (h1 : SameShell a b) (h2 : SameShell b c) :
    SameShell a c :=
  ⟨h2.nextSeq.trans h1.nextSeq,h2.durableEnd.trans h1.durableEnd,
    h2.barrierInFlight.trans h1.barrierInFlight,h2.failure.trans h1.failure⟩

/-- Splitting a batch succeeds and adds only sequenced groups, provided the back
group is sequenced already or takes the first record whole. -/
theorem splitBatch_sequenced (encoded : Bytes) (seq : LogSeq) (ls : List (U16 × ℕ))
    (cur : SplitCursor) (st : WriterState) (front : List Group) (g : Group)
    (hst : st.pendingGroups = front++[g]) (hg : g.encodedBytes ≤ bound.bytes)
    (hls : ∀ r ∈ ls,0 < r.2 ∧ r.2 ≤ bound.bytes)
    (hnext : g.lastSeq ≠ none ∨ ∀ r,ls.head? = some r → g.encodedBytes+r.2 ≤ bound.bytes) :
    ∃ cur' st' front' g',splitBatch bound encoded seq ls cur st = (.ok cur',st') ∧
      SameShell st st' ∧ st'.pendingGroups = front'++[g'] ∧
      (∀ x ∈ front',x ∈ front ∨ Sequenced bound x) ∧ g'.encodedBytes ≤ bound.bytes ∧
      (ls = [] → g'.lastSeq = g.lastSeq) ∧ (ls ≠ [] → g'.lastSeq ≠ none) := by
  induction ls generalizing seq cur st front g with
  | nil =>
    exact ⟨cur,st,front,g,rfl,⟨rfl,rfl,rfl,rfl⟩,hst,fun x hx => Or.inl hx,hg,by simp,
      by simp⟩
  | cons r rs ih =>
    obtain ⟨op,len⟩ := r
    obtain ⟨hpos,hle⟩ := hls (op,len) (mem_cons_self ..)
    simp only at hpos hle
    have hrs : ∀ r ∈ rs,0 < r.2 ∧ r.2 ≤ bound.bytes := fun r hr => hls r (mem_cons_of_mem _ hr)
    -- both branches continue with a sequenced back group, whatever is left of the batch
    have done : ∀ (cur₁ : SplitCursor) (st₁ : WriterState) (front₁ : List Group) (g₁ : Group),
        splitBatch bound encoded seq ((op,len)::rs) cur st =
          splitBatch bound encoded (saturatingAdd seq 1) rs cur₁ st₁ →
        SameShell st st₁ → st₁.pendingGroups = front₁++[g₁] →
        (∀ x ∈ front₁,x ∈ front ∨ Sequenced bound x) → g₁.encodedBytes ≤ bound.bytes →
        g₁.lastSeq ≠ none →
        ∃ cur' st' front' g',splitBatch bound encoded seq ((op,len)::rs) cur st =
            (.ok cur',st') ∧
          SameShell st st' ∧ st'.pendingGroups = front'++[g'] ∧
          (∀ x ∈ front',x ∈ front ∨ Sequenced bound x) ∧ g'.encodedBytes ≤ bound.bytes ∧
          ((op,len)::rs = [] → g'.lastSeq = g.lastSeq) ∧
          ((op,len)::rs ≠ [] → g'.lastSeq ≠ none) := by
      intro cur₁ st₁ front₁ g₁ heq hshell₁ hq₁ hfront₁ hg₁ hseq₁
      obtain ⟨cur',st',front',g',hrun,hshell,hq,hf,hb,hnil,hn⟩ :=
        ih (saturatingAdd seq 1) cur₁ st₁ front₁ g₁ hq₁ hg₁ hrs (Or.inl hseq₁)
      refine ⟨cur',st',front',g',heq.trans hrun,hshell₁.trans hshell,hq,fun x hx => ?_,hb,
        by simp,fun _ => ?_⟩
      · rcases hf x hx with h | h
        · exact hfront₁ x h
        · exact Or.inr h
      · by_cases hrest : rs = []
        · rw [hnil hrest]
          exact hseq₁
        · exact hn hrest
    by_cases hfit : g.encodedBytes+len ≤ bound.bytes
    · exact done _ _ front _ (splitBatch_cons_fits bound encoded seq op len rs cur st front g hst
        hpos hfit) ⟨rfl,rfl,rfl,rfl⟩ rfl (fun x hx => Or.inl hx) hfit (by simp)
    · have hseqd : g.lastSeq ≠ none := by
        rcases hnext with h | h
        · exact h
        · exact absurd (h (op,len) rfl) hfit
      refine done _ _ _ _ (splitBatch_cons_splits bound encoded seq op len rs cur st front g hst hg
        (by omega) hle) ⟨rfl,rfl,rfl,rfl⟩ rfl ?_ (by dsimp only; omega) (by simp)
      intro x hx
      rcases mem_append.mp hx with hx | hx
      · exact Or.inl hx
      · rw [mem_singleton.mp hx]
        exact Or.inr ⟨hseqd,le_rfl⟩

def Idle (s : System) : Prop :=
  s.leaders = [] ∧ s.writer.barrierInFlight = false ∧
    (s.writer.pendingGroups = [] ∨ ∃ g,s.writer.pendingGroups = [g] ∧ g.records = 0 ∧
      g.lastSeq = none ∧ g.encodedBytes ≤ bound.bytes)

def Led (s : System) : Prop :=
  ∃ phase,s.leaders = [phase] ∧ s.writer.barrierInFlight = true ∧
    (∀ g ∈ s.writer.pendingGroups,Sequenced bound g) ∧
    (phase = .ready → s.writer.pendingGroups ≠ []) ∧
    (∀ g l f,phase = .written g l f → f = none)

def Progress (s : System) : Prop := s.writer.failure = none ∧ (Idle bound s ∨ Led bound s)

def NoWriteFailure (s : System) : Event → Prop
  | .write i fault =>
    (match s.leaders[i]? with
      | some (.popped g _) => (writeGroup g fault).2
      | _ => none) = none
  | _ => True

/-- No staging call is refused behind `ensure_pending_group` while a leader has
emptied the queue. -/
def KeepsQueue (s : System) : Event → Prop
  | .stage _ payload => ¬ (s.writer.pendingGroups = [] ∧ s.writer.barrierInFlight = true ∧
      StageRefusesLate bound payload s.writer)
  | .stageMany encode records => ¬ (s.writer.pendingGroups = [] ∧
      s.writer.barrierInFlight = true ∧ StageManyRefusesLate bound encode records s.writer)
  | _ => True

variable {s t : System} {i : ℕ}

theorem Progress.queue {front : List Group} {g : Group} (h : Progress bound s)
    (hq : (ensurePendingGroup s.writer).pendingGroups = front++[g]) :
    (∀ x ∈ front,Sequenced bound x) ∧ g.encodedBytes ≤ bound.bytes ∧
      (g.lastSeq ≠ none ∨ g.records = 0) := by
  by_cases hnil : s.writer.pendingGroups = []
  · rw [ensurePendingGroup_of_nil hnil] at hq
    obtain ⟨rfl,rfl⟩ := concat_eq_singleton hq.symm
    exact ⟨by simp,Nat.zero_le _,Or.inr rfl⟩
  · rw [ensurePendingGroup_of_ne_nil hnil] at hq
    rcases h.2 with ⟨-,-,hidle⟩ | ⟨phase,-,-,hall,-⟩
    · rcases hidle with hempty | ⟨g₀,hone,hrec,-,hle⟩
      · exact absurd hempty hnil
      · rw [hone] at hq
        obtain ⟨rfl,rfl⟩ := concat_eq_singleton hq.symm
        exact ⟨by simp,hle,Or.inr hrec⟩
    · rw [hq] at hall
      have hback:=hall g (by simp)
      exact ⟨fun x hx => hall x (mem_append_left _ hx),hback.2,Or.inl hback.1⟩

theorem Progress.staged {w : WriterState} (h : Progress bound s)
    (hfail : w.failure = none) (hbar : w.barrierInFlight = true)
    (hall : ∀ g ∈ w.pendingGroups,Sequenced bound g) (hne : w.pendingGroups ≠ [])
    (staged : List WalRecord) : Progress bound { s with
      writer := w,leaders := addLeader (!s.writer.barrierInFlight) s.leaders,staged := staged } := by
  refine ⟨hfail,Or.inr ?_⟩
  rcases h.2 with ⟨hlead,hb,-⟩ | ⟨phase,hlead,hb,-,-,hw⟩
  · refine ⟨.ready,?_,hbar,hall,fun _ => hne,by simp⟩
    simp only [addLeader,hb,hlead,Bool.not_false,ite_true,nil_append]
  · refine ⟨phase,?_,hbar,hall,fun _ => hne,hw⟩
    simp only [addLeader,hb,hlead,Bool.not_true,Bool.false_eq_true,ite_false]

theorem Progress.refused (h : Progress bound s) (hnil : s.writer.pendingGroups = [])
    (hbar : s.writer.barrierInFlight ≠ true) :
    Progress bound { s with writer := ensurePendingGroup s.writer } := by
  obtain ⟨-,hfail,hb,-⟩ := ensurePendingGroup_fields s.writer
  refine ⟨hfail.trans h.1,Or.inl ?_⟩
  rcases h.2 with ⟨hlead,hb',-⟩ | ⟨phase,-,hb',-⟩
  · refine ⟨hlead,hb.trans hb',Or.inr ⟨⟨s.writer.spareChunks,0,0,none⟩,?_,rfl,rfl,
      Nat.zero_le _⟩⟩
    rw [ensurePendingGroup_of_nil hnil]
  · exact absurd hb' hbar

theorem stage_progress {op : U16} {payload : Bytes} (h : Progress bound s)
    (hok : KeepsQueue bound s (.stage op payload))
    (hstep : step xxh3 bound s (.stage op payload) = some t) : Progress bound t := by
  cases hs : stage xxh3 bound op payload s.writer with
  | mk out w =>
    simp only [step,hs] at hstep
    rcases stage_cases xxh3 bound hs with ⟨e,rfl,rfl⟩ | ⟨e,rfl,hnil,rfl,hlate⟩ | ⟨rfl,rfl⟩ |
      ⟨rfl,front,g,hsucc⟩
    · rw [← Option.some.inj hstep]
      exact h
    · rw [← Option.some.inj hstep]
      exact h.refused bound hnil fun hb => hok ⟨hnil,hb,hlate⟩
    · rw [← Option.some.inj hstep]
      exact h
    · obtain ⟨hfront,-,-⟩ := h.queue bound hsucc.queue
      obtain ⟨-,hfail,-⟩ := ensurePendingGroup_fields s.writer
      rw [← Option.some.inj hstep]
      refine h.staged bound ?_ ?_ ?_ ?_ _
      · rw [hsucc.result]
        exact hfail.trans h.1
      · rw [hsucc.result]
      · rw [hsucc.result]
        intro x hx
        rcases mem_append.mp hx with hx | hx
        · exact hfront x hx
        · rw [mem_singleton.mp hx]
          exact ⟨by simp [stagedGroup],hsucc.fits⟩
      · rw [hsucc.result]
        simp

theorem split_progress {encode : Encoder} {records : List (U16 × Bytes)}
    {encoded : Bytes} (h : Progress bound s)
    (hchk : StageManyChecked bound encode records s.writer encoded) :
    ∃ cur' st' front' g',splitBatch bound encoded s.writer.nextSeq (batchLengths records) ⟨0,0⟩
        (ensurePendingGroup s.writer) = (.ok cur',st') ∧
      SameShell s.writer st' ∧ st'.pendingGroups = front'++[g'] ∧
      (∀ x ∈ front',Sequenced bound x) ∧ Sequenced bound g' := by
  obtain ⟨front,g,hq⟩ := exists_concat_of_ne_nil (ensurePendingGroup_ne_nil s.writer)
  obtain ⟨hfront,hg,hback⟩ := h.queue bound hq
  obtain ⟨hseq,hfail,hbar,hdur,-⟩ := ensurePendingGroup_fields s.writer
  obtain ⟨cur',st',front',g',hrun,hshell,hq',hf,hb,-,hn⟩ :=
    splitBatch_sequenced bound encoded s.writer.nextSeq (batchLengths records) ⟨0,0⟩ _ front g hq
      hg hchk.lengths (hchk.next hq hback)
  exact ⟨cur',st',front',g',hrun,SameShell.trans ⟨hseq,hdur,hbar,hfail⟩ hshell,hq',
    fun x hx => (hf x hx).elim (hfront x) id,hn hchk.lengths_ne_nil,hb⟩

theorem stageMany_progress {encode : Encoder} {records : List (U16 × Bytes)}
    (h : Progress bound s) (hok : KeepsQueue bound s (.stageMany encode records))
    (hstep : step xxh3 bound s (.stageMany encode records) = some t) : Progress bound t := by
  cases hs : stageManyWithEncoder bound encode records s.writer with
  | mk out w =>
    simp only [step,hs] at hstep
    rcases stageMany_cases bound hs with ⟨e,rfl,rfl⟩ | ⟨e,rfl,hnil,rfl,hlate⟩ |
      ⟨-,rfl,rfl,-⟩ | ⟨e,encoded,-,hchk,hsplit⟩ |
      ⟨encoded,cur,mid,leader,rfl,hleader,hsucc⟩
    · rw [← Option.some.inj hstep]
      exact h
    · rw [← Option.some.inj hstep]
      exact h.refused bound hnil fun hb => hok ⟨hnil,hb,hlate⟩
    · rw [← Option.some.inj hstep]
      exact h
    · obtain ⟨cur',st',front',g',hrun,-⟩ := split_progress bound h hchk
      rw [hrun] at hsplit
      cases hsplit
    · obtain ⟨cur',st',front',g',hrun,hshell,hq,hfront,hg⟩ :=
        split_progress bound h hsucc.toStageManyChecked
      rw [hsucc.split,Prod.mk.injEq,Except.ok.injEq] at hrun
      obtain ⟨rfl,rfl⟩ := hrun
      rw [hshell.barrierInFlight] at hleader
      rw [← Option.some.inj hstep,hleader]
      have hw:=hsucc.result
      rw [modifyBack_concat _ hq] at hw
      refine h.staged bound ?_ ?_ ?_ ?_ _
      · rw [hw]
        exact hshell.failure.trans h.1
      · rw [hw]
      · rw [hw]
        intro x hx
        rcases mem_append.mp hx with hx | hx
        · exact hfront x hx
        · rw [mem_singleton.mp hx]
          exact ⟨hg.1,hg.2⟩
      · rw [hw]
        simp

/-- A flush never takes leadership: while no leader runs, no waiting group has a
record. -/
theorem flush_progress (h : Progress bound s)
    (hstep : step xxh3 bound s .flush = some t) : Progress bound t := by
  cases hs : flush s.writer with
  | mk out w =>
    simp only [step,hs] at hstep
    rcases flush_cases hs with ⟨rfl,hnot⟩ | ⟨target,rfl,hbar,⟨g,hmem,hrec⟩,-⟩
    · cases out with
      | waitFor target leader =>
        cases leader with
        | true => exact absurd rfl (hnot target)
        | false =>
          simp only [addLeader,Bool.false_eq_true,ite_false] at hstep
          rw [← Option.some.inj hstep]
          exact h
      | done =>
        rw [← Option.some.inj hstep]
        exact h
      | refused e =>
        rw [← Option.some.inj hstep]
        exact h
    · exfalso
      rcases h.2 with ⟨-,-,hnil | ⟨g₀,hone,hzero,-⟩⟩ | ⟨phase,-,hb,-⟩
      · rw [hnil] at hmem
        cases hmem
      · rw [hone] at hmem
        rw [mem_singleton.mp hmem] at hrec
        exact hrec hzero
      · rw [hb] at hbar
        cases hbar

theorem leader_of_getElem? {leaders : List LeaderPhase} {phase p : LeaderPhase}
    (hlead : leaders = [phase]) (hi : leaders[i]? = some p) : i = 0 ∧ p = phase := by
  rw [hlead] at hi
  cases i with
  | zero => exact ⟨rfl,(Option.some.inj hi).symm⟩
  | succ i => simp at hi

theorem Progress.led {p : LeaderPhase} (h : Progress bound s)
    (hi : s.leaders[i]? = some p) : i = 0 ∧ s.leaders = [p] ∧ Led bound s := by
  rcases h.2 with ⟨hlead,-⟩ | hled
  · rw [hlead] at hi
    cases hi
  · obtain ⟨phase,hlead,-⟩ := id hled
    obtain ⟨h0,rfl⟩ := leader_of_getElem? hlead hi
    exact ⟨h0,hlead,hled⟩

theorem pop_progress (h : Progress bound s)
    (hstep : step xxh3 bound s (.pop i) = some t) : Progress bound t := by
  simp only [step] at hstep
  split at hstep
  · rename_i hi
    obtain ⟨rfl,hlead,phase,hlead',hbar,hall,hready,-⟩ := h.led bound hi
    obtain rfl : phase = .ready := by
      rw [hlead] at hlead'
      exact (singleton_inj.mp hlead').symm
    cases hq : s.writer.pendingGroups with
    | nil => exact absurd hq (hready rfl)
    | cons g rest =>
      rw [hq] at hall
      cases hl : g.lastSeq with
      | none => exact absurd hl (hall g (mem_cons_self ..)).1
      | some lastSeq =>
        simp only [popGroup,hq,hl,Option.some.injEq] at hstep
        rw [← hstep]
        refine ⟨h.1,Or.inr ⟨.popped g lastSeq,?_,hbar,?_,by simp,by simp⟩⟩
        · simp only [hlead,set_cons_zero]
        · exact fun x hx => hall x (mem_cons_of_mem _ hx)
  · cases hstep

theorem write_progress {fault : WriteFault} (h : Progress bound s)
    (hok : NoWriteFailure s (.write i fault))
    (hstep : step xxh3 bound s (.write i fault) = some t) : Progress bound t := by
  simp only [step] at hstep
  split at hstep
  · rename_i g lastSeq hi
    obtain ⟨rfl,hlead,phase,-,hbar,hall,-⟩ := h.led bound hi
    simp only [NoWriteFailure,hi] at hok
    rw [← Option.some.inj hstep]
    refine ⟨h.1,Or.inr ⟨.written g lastSeq none,?_,hbar,hall,by simp,?_⟩⟩
    · simp only [hlead,set_cons_zero,hok]
    · intro g' l f hw
      cases hw
      rfl
  · cases hstep

theorem complete_progress (h : Progress bound s)
    (hstep : step xxh3 bound s (.complete i) = some t) : Progress bound t := by
  simp only [step] at hstep
  split at hstep
  · rename_i g lastSeq failure hi
    obtain ⟨rfl,hlead,phase,hlead',hbar,hall,-,hwritten⟩ := h.led bound hi
    rw [hlead] at hlead'
    obtain rfl := hwritten g lastSeq failure (singleton_inj.mp hlead').symm
    by_cases hq : s.writer.pendingGroups = []
    · simp only [completeGroup,if_pos hq,Option.some.injEq] at hstep
      rw [← hstep]
      refine ⟨h.1,Or.inl ⟨?_,rfl,Or.inl hq⟩⟩
      simp only [hlead,eraseIdx_cons_zero]
    · simp only [completeGroup,if_neg hq,Option.some.injEq] at hstep
      rw [← hstep]
      refine ⟨h.1,Or.inr ⟨.ready,?_,hbar,hall,fun _ => hq,by simp⟩⟩
      simp only [hlead,set_cons_zero]
  · cases hstep

/-- The events of a run in which no append fails and no refused staging call
leaves an empty group to a leader. -/
def SafeEvent (s : System) (e : Event) : Prop := NoWriteFailure s e ∧ KeepsQueue bound s e

theorem step_progress {e : Event} (h : Progress bound s) (hok : SafeEvent bound s e)
    (hstep : step xxh3 bound s e = some t) : Progress bound t := by
  cases e with
  | stage op payload => exact stage_progress xxh3 bound h hok.2 hstep
  | stageMany encode records => exact stageMany_progress xxh3 bound h hok.2 hstep
  | flush => exact flush_progress xxh3 bound h hstep
  | pop i => exact pop_progress xxh3 bound h hstep
  | write i fault => exact write_progress xxh3 bound h hok.1 hstep
  | complete i => exact complete_progress xxh3 bound h hstep

/-- A writer right after `create` or `resume`. -/
inductive Opened : System → Prop where
  | created (firstSeq : LogSeq) : Opened (created firstSeq)
  | resumed (file : Bytes) (recovered : List WalRecord) (nextSeq : LogSeq)
      (durableEnd : Option LogSeq) (visible : List VisibleRecord) :
      Opened (resumed file recovered nextSeq durableEnd visible)

theorem Opened.progress (h : Opened s) : Progress bound s := by
  cases h with
  | created firstSeq =>
    exact ⟨rfl,Or.inl ⟨rfl,rfl,Or.inr ⟨_,rfl,rfl,rfl,bound.header_le⟩⟩⟩
  | resumed => exact ⟨rfl,Or.inl ⟨rfl,rfl,Or.inl rfl⟩⟩

/-- The group-commit property of a state: a leader about to pop finds a group
with a sequence, and the barrier is not left behind by a leader that is gone. -/
def CommitsProgress (s : System) : Prop :=
  (∀ i : ℕ,s.leaders[i]? = some LeaderPhase.ready →
    ∃ g rest,s.writer.pendingGroups = g::rest ∧ g.lastSeq ≠ none) ∧
  ¬ (s.writer.barrierInFlight = true ∧ s.leaders = [] ∧ s.writer.failure = none)

theorem Progress.commits (h : Progress bound s) : CommitsProgress s := by
  refine ⟨fun i hi => ?_,fun ⟨hbar,hnone,_⟩ => ?_⟩
  · obtain ⟨-,hlead,phase,hlead',-,hall,hready,-⟩ := h.led bound hi
    rw [hlead] at hlead'
    have hne:=hready (singleton_inj.mp hlead').symm
    cases hq : s.writer.pendingGroups with
    | nil => exact absurd hq hne
    | cons g rest => exact ⟨g,rest,rfl,(hall g (by simp [hq])).1⟩
  · rcases h.2 with ⟨-,hb,-⟩ | ⟨phase,hlead,-⟩
    · rw [hb] at hbar
      cases hbar
    · rw [hnone] at hlead
      cases hlead

theorem commits_progress_of_run {s₀ s : System} {es : List Event} (hopen : Opened s₀)
    (run : Run (step xxh3 bound) (SafeEvent bound) s₀ es s) : CommitsProgress s :=
  (run.invariant (Progress bound) (hopen.progress bound)
    fun _ _ _ h hok hstep => step_progress xxh3 bound h hok hstep).commits bound

end Checksum

instance (s : System) (e : Event) : Decidable (NoWriteFailure s e) :=
  match e with
  | .write _ _ => inferInstanceAs (Decidable (_ = none))
  | .stage _ _ | .stageMany _ _ | .flush | .pop _ | .complete _ => inferInstanceAs (Decidable True)

instance (bound : GroupBound) (payload : Bytes) (st : WriterState) :
    Decidable (StageRefusesLate bound payload st) :=
  inferInstanceAs (Decidable (_ ∧ _ ∧ _))

instance decidableFails {ε α : Type} (x : Except ε α) : Decidable (∃ e,x = .error e) :=
  match x with
  | .error e => isTrue ⟨e,rfl⟩
  | .ok _ => isFalse fun ⟨_,h⟩ => nomatch h

instance (bound : GroupBound) (encode : Encoder) (records : List (U16 × Bytes))
    (st : WriterState) : Decidable (StageManyRefusesLate bound encode records st) :=
  inferInstanceAs (Decidable (_ ∧ _ ∧ _ ∧ (_ ∨ _)))

instance (bound : GroupBound) (s : System) (e : Event) : Decidable (SafeEvent bound s e) :=
  match e with
  | .stage _ _ | .stageMany _ _ => inferInstanceAs (Decidable (_ ∧ ¬ (_ ∧ _ ∧ _)))
  | .write _ _ => inferInstanceAs (Decidable (_ = none ∧ True))
  | .flush | .pop _ | .complete _ => inferInstanceAs (Decidable (True ∧ True))

def smallBound : GroupBound := ⟨100,by decide⟩

theorem commits_progress_after_one_commit :
    ∃ s,Run (step (fun _ => 0) smallBound) (SafeEvent smallBound) (created 1)
      [.stage 1 [],.pop 0,.write 0 .none,.complete 0] s ∧ CommitsProgress s := by
  have hsome : (execute (step (fun _ => 0) smallBound) (SafeEvent smallBound) (created 1)
      [.stage 1 [],.pop 0,.write 0 .none,.complete 0]).isSome := by
    decide +kernel
  obtain ⟨s,hs⟩ := Option.isSome_iff_exists.mp hsome
  have hrun:=Run.of_execute hs
  exact ⟨s,hrun,commits_progress_of_run (fun _ => 0) smallBound (Opened.created 1) hrun⟩

/-- A leader pops the only group; a record above the group bound is refused and
leaves an empty group behind; the leader completes, pops the empty group and
returns an error with the barrier still set. -/
theorem refused_stage_strands_barrier :
    ¬ ∀ (bound : GroupBound) (s₀ s : System) (es : List Event),Opened s₀ →
      Run (step (fun _ => 0) bound) NoWriteFailure s₀ es s → CommitsProgress s := by
  intro h
  have hrun : ((execute (step (fun _ => 0) smallBound) NoWriteFailure (created 1)
      [.stage 1 [],.pop 0,.stage 1 (List.replicate 100 0),.write 0 .none,.complete 0,
        .pop 0]).map fun s => (s.writer.barrierInFlight,s.leaders,s.writer.failure)) =
      some (true,[],none) := by
    decide +kernel
  obtain ⟨s,hs,hend⟩ := Option.map_eq_some_iff.mp hrun
  have hprog:=h smallBound (created 1) s _ (Opened.created 1) (Run.of_execute hs)
  simp only [Prod.mk.injEq] at hend
  exact hprog.2 hend

section Checksum
variable (xxh3 : Bytes → U64) (bound : GroupBound)

structure Untouched (st st' : WriterState) : Prop where
  nextSeq : st'.nextSeq = st.nextSeq
  visible : st'.visible = st.visible
  retainedBytes : st'.retainedBytes = st.retainedBytes
  pendingGroups : st'.pendingGroups = st.pendingGroups

theorem Untouched.refl (st : WriterState) : Untouched st st := ⟨rfl,rfl,rfl,rfl⟩

variable {st st' : WriterState} {e : WalWriteError} {records : List (U16 × Bytes)}

theorem not_untouched_ensurePendingGroup (h : st.pendingGroups = []) :
    ¬ Untouched st (ensurePendingGroup st) := by
  intro hsame
  apply ensurePendingGroup_ne_nil st
  rw [hsame.pendingGroups,h]

theorem modifyBack_ne_nil (f : Group → Group) (h : st.pendingGroups ≠ []) :
    (modifyBack f st).pendingGroups ≠ [] := by
  obtain ⟨front,g,hq⟩ := exists_concat_of_ne_nil h
  rw [modifyBack_concat f hq]
  simp

theorem placeRecord_ok (encoded : Bytes) (recordEnd : ℕ) (cur : SplitCursor) (st : WriterState)
    (h : st.pendingGroups ≠ []) :
    ∃ cur' st',placeRecord bound encoded recordEnd cur st = (.ok cur',st') ∧
      st'.pendingGroups ≠ [] := by
  fun_induction placeRecord bound encoded recordEnd cur st with
  | case1 cur st hlt hlast =>
    exact absurd (getLast?_eq_none_iff.mp hlast) h
  | case2 cur st hlt group hlast available hfull ih =>
    apply ih
    simp [closeBackGroup,pushEmptyPendingGroup]
  | case3 cur st hlt group hlast available hfull written ih =>
    exact ih (modifyBack_ne_nil _ h)
  | case4 cur st hdone => exact ⟨cur,st,rfl,h⟩

theorem splitBatch_ok (encoded : Bytes) (seq : LogSeq) (ls : List (U16 × ℕ)) (cur : SplitCursor)
    (st : WriterState) (h : st.pendingGroups ≠ []) :
    ∃ cur' st',splitBatch bound encoded seq ls cur st = (.ok cur',st') := by
  induction ls generalizing seq cur st with
  | nil => exact ⟨cur,st,rfl⟩
  | cons r rs ih =>
    obtain ⟨op,len⟩ := r
    obtain ⟨placed,mid,hplace,hmid⟩ :=
      placeRecord_ok bound encoded (cur.offset+len) cur st h
    simp only [splitBatch,hplace]
    exact ih _ _ _ (modifyBack_ne_nil _ hmid)

variable {payload : Bytes} {encode : Encoder}

theorem stage_refused {op : U16} (h : stage xxh3 bound op payload st = (.refused e,st')) :
    st' = st ∨ st.pendingGroups = [] ∧ StageRefusesLate bound payload st ∧
      st' = ensurePendingGroup st := by
  rcases stage_cases xxh3 bound h with ⟨_,_,hst⟩ | ⟨_,_,hnil,hst,hlate⟩ | ⟨hout,_⟩ |
    ⟨hout,_⟩
  · exact Or.inl hst
  · exact Or.inr ⟨hnil,hlate,hst⟩
  · cases hout
  · cases hout

theorem stageMany_refused (h : stageManyWithEncoder bound encode records st = (.refused e,st')) :
    st' = st ∨ st.pendingGroups = [] ∧ StageManyRefusesLate bound encode records st ∧
      st' = ensurePendingGroup st := by
  rcases stageMany_cases bound h with ⟨_,_,hst⟩ | ⟨_,_,hnil,hst,hlate⟩ | ⟨_,hout,_⟩ |
    ⟨_,encoded,_,_,hsplit⟩ | ⟨_,_,_,_,hout,_⟩
  · exact Or.inl hst
  · exact Or.inr ⟨hnil,hlate,hst⟩
  · cases hout
  · obtain ⟨cur,mid,hok⟩ := splitBatch_ok bound encoded st.nextSeq (batchLengths records) ⟨0,0⟩
      (ensurePendingGroup st) (ensurePendingGroup_ne_nil st)
    rw [hok] at hsplit
    cases hsplit
  · cases hout

theorem ensurePendingGroup_getLast? (h : st.pendingGroups = []) :
    (ensurePendingGroup st).pendingGroups.getLast? = some ⟨st.spareChunks,0,0,none⟩ := by
  rw [ensurePendingGroup_of_nil h]
  rfl

theorem stage_refuses_late (op : U16)
    (hnil : st.pendingGroups = []) (hlate : StageRefusesLate bound payload st) :
    ∃ e,stage xxh3 bound op payload st = (.refused e,ensurePendingGroup st) := by
  obtain ⟨hlen,hfail,hwhy⟩ := hlate
  have hlast:=ensurePendingGroup_getLast? hnil
  have hseq:=(ensurePendingGroup_fields st).1
  simp only [stage,encodedRecordLen,if_pos hlen,hfail,hlast,Nat.zero_add,hseq]
  by_cases hfit : minRecordLen+payload.length ≤ bound.bytes
  · have hfull : 2^64 ≤ st.nextSeq.toNat+1 := hwhy.resolve_left (by omega)
    have hadd : checkedAdd st.nextSeq 1 = none := by
      unfold checkedAdd
      rw [if_neg (by rw [toNat_one_64]; omega)]
    exact ⟨.sequenceExhausted,by rw [if_pos hfit,hadd]⟩
  · exact ⟨.groupTooLarge (minRecordLen+payload.length) bound.bytes,by
      rw [if_neg hfit,if_pos trivial]⟩

theorem encodedLengths_of_framable (h : ∀ r ∈ records,r.2.length < 2^32) :
    encodedLengths records = .ok (batchLengths records) := by
  induction records with
  | nil => rfl
  | cons r rs ih =>
    obtain ⟨op,payload⟩ := r
    have hlen : payload.length < 2^32 := h (op,payload) (mem_cons_self ..)
    have hrest:=ih fun q hq => h q (mem_cons_of_mem _ hq)
    simp only [encodedLengths,encodedRecordLen,if_pos hlen,hrest]
    rfl

theorem stageMany_refuses_late (hnil : st.pendingGroups = [])
    (hlate : StageManyRefusesLate bound encode records st) :
    ∃ e,stageManyWithEncoder bound encode records st = (.refused e,ensurePendingGroup st) := by
  obtain ⟨hne,hrecords,hfail,hwhy⟩ := hlate
  have hlast:=ensurePendingGroup_getLast? hnil
  have hseq:=(ensurePendingGroup_fields st).1
  have hlengths:=encodedLengths_of_framable fun r hr => (hrecords r hr).1
  have hfind : (batchLengths records).find? (fun r => decide (bound.bytes < r.2)) = none := by
    apply find?_eq_none.mpr
    intro q hq
    obtain ⟨r,hr,rfl⟩ := mem_map.mp hq
    have hle:=(hrecords r hr).2
    simpa using hle
  cases records with
  | nil => exact absurd rfl hne
  | cons r rs =>
    obtain ⟨op,payload⟩ := r
    have hfirst : minRecordLen+payload.length ≤ bound.bytes :=
      (hrecords (op,payload) (mem_cons_self ..)).2
    have hpass : ¬ (True ∧ bound.bytes < minRecordLen+payload.length) := by omega
    simp only [stageManyWithEncoder,hlengths,hfind,hfail,hlast,Nat.zero_add,hseq,
      if_neg hpass]
    by_cases hcount : 2^64 ≤ ((op,payload)::rs).length
    · exact ⟨.sequenceExhausted,by rw [if_pos hcount]⟩
    · have hofNat : (BitVec.ofNat 64 ((op,payload)::rs).length).toNat =
          ((op,payload)::rs).length := by
        simp only [BitVec.toNat_ofNat]
        exact Nat.mod_eq_of_lt (by omega)
      rw [if_neg hcount]
      by_cases hroom : st.nextSeq.toNat+((op,payload)::rs).length < 2^64
      · obtain ⟨e,hencode⟩ := hwhy.resolve_left (by omega)
        have hadd:=checkedAdd_of_lt (a := st.nextSeq)
          (b := BitVec.ofNat 64 ((op,payload)::rs).length) (by rw [hofNat]; exact hroom)
        exact ⟨.record e,by simp only [hadd,hencode]⟩
      · have hadd : checkedAdd st.nextSeq (BitVec.ofNat 64 ((op,payload)::rs).length) =
            none := by
          unfold checkedAdd
          rw [if_neg (by rw [hofNat]; exact hroom)]
        exact ⟨.sequenceExhausted,by simp only [hadd]⟩

/-- A failed staging call changes nothing exactly when it does not fail late on
an empty queue. -/
theorem failed_staging_changes_nothing :
    (∀ op payload st,
      (∀ e st',stage xxh3 bound op payload st = (.refused e,st') → Untouched st st') ↔
        ¬ (st.pendingGroups = [] ∧ StageRefusesLate bound payload st)) ∧
    (∀ encode records st,
      (∀ e st',stageManyWithEncoder bound encode records st = (.refused e,st') →
        Untouched st st') ↔
        ¬ (st.pendingGroups = [] ∧ StageManyRefusesLate bound encode records st)) := by
  constructor
  · intro op payload st
    constructor
    · intro hkeeps hlate
      obtain ⟨e,hrun⟩ := stage_refuses_late xxh3 bound op hlate.1 hlate.2
      exact not_untouched_ensurePendingGroup hlate.1 (hkeeps e _ hrun)
    · intro hearly e st' hrun
      rcases stage_refused xxh3 bound hrun with hsame | ⟨hnil,hlate,-⟩
      · rw [hsame]
        exact Untouched.refl st
      · exact absurd ⟨hnil,hlate⟩ hearly
  · intro encode records st
    constructor
    · intro hkeeps hlate
      obtain ⟨e,hrun⟩ := stageMany_refuses_late bound hlate.1 hlate.2
      exact not_untouched_ensurePendingGroup hlate.1 (hkeeps e _ hrun)
    · intro hearly e st' hrun
      rcases stageMany_refused bound hrun with hsame | ⟨hnil,hlate,-⟩
      · rw [hsame]
        exact Untouched.refl st
      · exact absurd ⟨hnil,hlate⟩ hearly

end Checksum

/-- Behind one durable commit the queue is empty, and a record above the group
bound is refused with a new empty group in it. -/
theorem refused_stage_pushes_group :
    ¬ ∀ (bound : GroupBound) (s₀ s : System) (es : List Event),Opened s₀ →
      Run (step (fun _ => 0) bound) NoWriteFailure s₀ es s →
      ∀ op payload e st',stage (fun _ => 0) bound op payload s.writer = (.refused e,st') →
        Untouched s.writer st' := by
  intro h
  have hrun : ((execute (step (fun _ => 0) smallBound) NoWriteFailure (created 1)
      [.stage 1 [],.pop 0,.write 0 .none,.complete 0]).map fun s =>
        (s.writer.pendingGroups,(stage (fun _ => 0) smallBound 1 (List.replicate 100 0)
          s.writer).1,(stage (fun _ => 0) smallBound 1 (List.replicate 100 0)
          s.writer).2.pendingGroups.length)) = some ([],.refused (.groupTooLarge 122 100),1) := by
    decide +kernel
  obtain ⟨s,hs,hend⟩ := Option.map_eq_some_iff.mp hrun
  simp only [Prod.mk.injEq] at hend
  obtain ⟨hempty,hout,hlength⟩ := hend
  have hsame:=h smallBound (created 1) s _ (Opened.created 1) (Run.of_execute hs) 1
    (List.replicate 100 0) _ _ (Prod.ext hout rfl)
  rw [hsame.pendingGroups,hempty] at hlength
  cases hlength

end Zeppelin.Wal
