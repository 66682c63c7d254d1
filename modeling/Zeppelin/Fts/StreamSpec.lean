import Zeppelin.Fts.TermStream

namespace Zeppelin.Fts
open List

def mergedTf (runs : List ListCursor) (row : ℕ) : ℕ :=
  min (min (runs.map fun run => tfOf run.rest row*run.weight).sum u64Max / 1000) u32Max

def TermStream.tf (s : TermStream) (row : ℕ) : ℕ := mergedTf s.runs row

/-- A cursor whose weighted field lengths are at most `lengthAt`. -/
structure RunWf (lengths : List (FieldId × List ℕ)) (rowCount : ℕ) (lengthAt : ℕ → ℕ)
    (run : ListCursor) : Prop extends run.Wf lengths rowCount where
  len : ∀ row < rowCount,
    min (fieldLength lengths run.span.field row*run.weight / 1000) u32Max ≤ lengthAt row

theorem ListCursor.advance_same (c : ListCursor) :
    c.advance.span = c.span ∧ c.advance.weight = c.weight := by
  unfold ListCursor.advance
  split
  · exact ⟨rfl,rfl⟩
  · split
    · exact ⟨rfl,rfl⟩
    · split <;> exact ⟨rfl,rfl⟩

theorem ListCursor.reset_same (c : ListCursor) :
    c.reset.span = c.span ∧ c.reset.weight = c.weight := by
  unfold ListCursor.reset
  split
  · exact ⟨rfl,rfl⟩
  · split <;> exact ⟨rfl,rfl⟩

theorem ListCursor.settle_same (row fuel : ℕ) (c : ListCursor) :
    (settle row fuel c).span = c.span ∧ (settle row fuel c).weight = c.weight := by
  induction fuel generalizing c with
  | zero => exact ⟨rfl,rfl⟩
  | succ fuel ih =>
    unfold ListCursor.settle
    split
    · exact ⟨rfl,rfl⟩
    · split
      · exact ⟨rfl,rfl⟩
      · have hstep:=ListCursor.advance_same { c with slot := c.loaded.length-1 }
        have hrec:=ih { c with slot := c.loaded.length-1 }.advance
        exact ⟨hrec.1.trans hstep.1,hrec.2.trans hstep.2⟩

theorem ListCursor.seek_same (row : ℕ) (c : ListCursor) :
    (c.seek row).span = c.span ∧ (c.seek row).weight = c.weight := by
  unfold ListCursor.seek
  split
  · exact ⟨rfl,rfl⟩
  · split
    · exact ⟨rfl,rfl⟩
    · split
      · split
        · exact ⟨rfl,rfl⟩
        · exact ListCursor.settle_same row _ _
      · exact ListCursor.settle_same row _ _

section Runs
variable {lengths : List (FieldId × List ℕ)} {rowCount : ℕ} {lengthAt : ℕ → ℕ} {run : ListCursor}
  {runs : List ListCursor} {row : ℕ}

theorem RunWf.advance (h : RunWf lengths rowCount lengthAt run) :
    RunWf lengths rowCount lengthAt run.advance := by
  refine ⟨h.toWf.advance.1,?_⟩
  rw [run.advance_same.1,run.advance_same.2]
  exact h.len

theorem RunWf.reset (h : RunWf lengths rowCount lengthAt run) :
    RunWf lengths rowCount lengthAt run.reset := by
  refine ⟨h.toWf.reset.1,?_⟩
  rw [run.reset_same.1,run.reset_same.2]
  exact h.len

theorem RunWf.seek (h : RunWf lengths rowCount lengthAt run) (row : ℕ) :
    RunWf lengths rowCount lengthAt (run.seek row) := by
  refine ⟨(h.toWf.seek row).1,?_⟩
  rw [(run.seek_same row).1,(run.seek_same row).2]
  exact h.len

theorem firstRow_eq (runs : List ListCursor) :
    firstRow runs = (runs.map ListCursor.current).foldl minRow none := by
  rw [firstRow,foldl_map]

theorem firstRow_some (h : firstRow runs = some row) :
    (∃ run ∈ runs,run.current = some row) ∧
      ∀ run ∈ runs,∀ r,run.current = some r → row ≤ r := by
  rw [firstRow_eq] at h
  obtain ⟨horigin,-,hleast⟩ := (foldl_minRow _ none).1 row h
  refine ⟨?_,?_⟩
  · rcases horigin with h | h
    · cases h
    · obtain ⟨run,hrun,hcurrent⟩ := mem_map.mp h
      exact ⟨run,hrun,hcurrent⟩
  · intro run hrun r hr
    exact hleast r (hr ▸ mem_map_of_mem hrun)

theorem firstRow_none (h : firstRow runs = none) : ∀ run ∈ runs,run.current = none := by
  rw [firstRow_eq] at h
  obtain ⟨-,hall⟩ := (foldl_minRow _ none).2 h
  intro run hrun
  cases hcurrent : run.current with
  | none => rfl
  | some r => exact absurd (hcurrent ▸ mem_map_of_mem hrun) (hall r)

theorem RunWf.current_cases (h : RunWf lengths rowCount lengthAt run) :
    run.current = none ∧ run.rest = [] ∨
      ∃ p tail,run.current = some p.1 ∧ run.currentTf = some p.2 ∧ run.rest = p::tail ∧
        ∀ q ∈ run.rest,p.1 ≤ q.1 := by
  cases hrest : run.rest with
  | nil => exact .inl ⟨by rw [h.toWf.current,hrest]; rfl,rfl⟩
  | cons p tail =>
    have hsorted:=h.toWf.rest_ascending
    rw [hrest] at hsorted
    refine .inr ⟨p,tail,by rw [h.toWf.current,hrest]; rfl,
      by rw [h.toWf.currentTf,hrest]; rfl,rfl,?_⟩
    intro q hq
    rcases mem_cons.mp hq with rfl | hq
    · exact le_rfl
    · exact ((pairwise_cons.mp hsorted).1 q hq).le

theorem firstRow_le (hruns : ∀ run ∈ runs,RunWf lengths rowCount lengthAt run)
    (h : firstRow runs = some row) : ∀ run ∈ runs,∀ p ∈ run.rest,row ≤ p.1 := by
  intro run hrun p hp
  rcases (hruns run hrun).current_cases with ⟨-,hnil⟩ | ⟨q,tail,hcurrent,-,-,hleast⟩
  · rw [hnil] at hp
    cases hp
  · exact ((firstRow_some h).2 run hrun q.1 hcurrent).trans (hleast p hp)

theorem RunWf.tfOf_current (h : RunWf lengths rowCount lengthAt run)
    (hleast : ∀ p ∈ run.rest,row ≤ p.1) :
    tfOf run.rest row = if run.current = some row then run.currentTf.getD 0 else 0 := by
  rcases h.current_cases with ⟨hcurrent,hnil⟩ | ⟨q,tail,hcurrent,htf,hrest,-⟩
  · rw [hnil,hcurrent]
    rfl
  · rw [hcurrent,htf,hrest,tfOf_cons]
    by_cases heq : row = q.1
    · simp [heq]
    · rw [if_neg heq,if_neg (by simpa using Ne.symm heq)]
      refine tfOf_eq_zero fun p hp => ?_
      have hsorted:=h.toWf.rest_ascending
      rw [hrest] at hsorted
      have hlt:=(pairwise_cons.mp hsorted).1 p hp
      have hle:=hleast q (by simp [hrest])
      omega

theorem foldl_tfAt (hruns : ∀ run ∈ runs,RunWf lengths rowCount lengthAt run)
    (hleast : ∀ run ∈ runs,∀ p ∈ run.rest,row ≤ p.1) (start : ℕ) (hstart : start ≤ u64Max) :
    runs.foldl (fun total run => if run.current = some row then
      min (total+run.currentWeightedTf.getD 0) u64Max else total) start =
    min (start+(runs.map fun run => tfOf run.rest row*run.weight).sum) u64Max := by
  induction runs generalizing start with
  | nil => simpa using hstart
  | cons run runs ih =>
    have hrun:=(hruns run mem_cons_self).tfOf_current (hleast run mem_cons_self)
    have hrest:=ih (fun run hmem => hruns run (mem_cons_of_mem _ hmem))
      fun run hmem => hleast run (mem_cons_of_mem _ hmem)
    rw [foldl_cons,map_cons,sum_cons,hrun]
    split
    · rename_i hcurrent
      rw [hrest _ (min_le_right _ _)]
      cases htf : run.currentTf with
      | none => simp [ListCursor.currentWeightedTf,htf]; omega
      | some tf =>
        simp only [ListCursor.currentWeightedTf,htf,Option.map_some,Option.getD_some]
        omega
    · rw [hrest _ hstart]
      simp

theorem tfAt_eq (hruns : ∀ run ∈ runs,RunWf lengths rowCount lengthAt run)
    (h : firstRow runs = some row) : tfAt runs row = mergedTf runs row := by
  rw [tfAt,foldl_tfAt hruns (firstRow_le hruns h) 0 (Nat.zero_le _),Nat.zero_add]
  rfl

theorem mergedTf_eq_zero (h : ∀ run ∈ runs,∀ p ∈ run.rest,p.1 ≠ row) : mergedTf runs row = 0 := by
  have hsum : (runs.map fun run => tfOf run.rest row*run.weight).sum = 0 := by
    rw [sum_eq_zero_iff]
    intro x hx
    obtain ⟨run,hrun,rfl⟩ := mem_map.mp hx
    rw [tfOf_eq_zero (h run hrun),Nat.zero_mul]
  simp [mergedTf,hsum]

theorem mergedTf_ne_zero (h : mergedTf runs row ≠ 0) : ∃ run ∈ runs,∃ p ∈ run.rest,p.1 = row := by
  by_contra hnone
  push Not at hnone
  exact h (mergedTf_eq_zero hnone)

theorem mergedTf_map {f : ListCursor → ListCursor} {cleared : Prop} [Decidable cleared]
    (h : ∀ run ∈ runs,tfOf (f run).rest row = (if cleared then 0 else tfOf run.rest row) ∧
      (f run).weight = run.weight) :
    mergedTf (runs.map f) row = if cleared then 0 else mergedTf runs row := by
  have hsum : ((runs.map f).map fun run => tfOf run.rest row*run.weight) =
      runs.map fun run => (if cleared then 0 else tfOf run.rest row)*run.weight := by
    rw [map_map]
    refine map_congr_left fun run hrun => ?_
    rw [Function.comp_apply,(h run hrun).1,(h run hrun).2]
  unfold mergedTf
  rw [hsum]
  split
  · simp
  · rfl

theorem RunWf.step (h : RunWf lengths rowCount lengthAt run)
    (hleast : ∀ p ∈ run.rest,row ≤ p.1) (r : ℕ) :
    tfOf (if run.current = some row then run.advance else run).rest r =
        (if r ≤ row then 0 else tfOf run.rest r) ∧
      (if run.current = some row then run.advance else run).weight = run.weight := by
  split
  · rename_i hcurrent
    rcases h.current_cases with ⟨hnone,-⟩ | ⟨p,tail,hp,-,hrest,-⟩
    · rw [hnone] at hcurrent
      cases hcurrent
    · have hrow : p.1 = row := Option.some.inj (hp.symm.trans hcurrent)
      have hsorted:=h.toWf.rest_ascending
      rw [hrest] at hsorted
      rw [h.toWf.advance.2,hrest,tail_cons,tfOf_tail hsorted,hrow]
      exact ⟨rfl,run.advance_same.2⟩
  · rename_i hcurrent
    refine ⟨?_,rfl⟩
    split
    · refine tfOf_eq_zero fun p hp heq => ?_
      rcases h.current_cases with ⟨-,hnil⟩ | ⟨q,tail,hq,-,hrest,hall⟩
      · rw [hnil] at hp
        cases hp
      · have hfirst:=hleast q (by simp [hrest])
        have hnext:=hall p hp
        have hrow : q.1 = row := by omega
        exact hcurrent (hrow ▸ hq)
    · rfl

theorem stepRuns_wf (hruns : ∀ run ∈ runs,RunWf lengths rowCount lengthAt run) :
    ∀ run ∈ stepRuns row runs,RunWf lengths rowCount lengthAt run := by
  intro run hrun
  obtain ⟨source,hsource,rfl⟩ := mem_map.mp hrun
  split
  · exact (hruns source hsource).advance
  · exact hruns source hsource

theorem stepRuns_tf (hruns : ∀ run ∈ runs,RunWf lengths rowCount lengthAt run)
    (h : firstRow runs = some row) (r : ℕ) :
    mergedTf (stepRuns row runs) r = if r ≤ row then 0 else mergedTf runs r :=
  mergedTf_map fun run hrun => (hruns run hrun).step (firstRow_le hruns h run hrun) r

theorem left_stepRuns (hruns : ∀ run ∈ runs,RunWf lengths rowCount lengthAt run)
    (h : firstRow runs = some row) : left (stepRuns row runs) < left runs := by
  unfold left stepRuns
  rw [map_map]
  obtain ⟨⟨first,hfirst,hcurrent⟩,-⟩ := firstRow_some h
  refine sum_lt_sum _ _ ?_ ⟨first,hfirst,?_⟩
  · intro run hrun
    rw [Function.comp_apply]
    split
    · rw [(hruns run hrun).toWf.advance.2,length_tail]
      exact Nat.sub_le _ _
    · exact le_rfl
  · rcases (hruns first hfirst).current_cases with ⟨hnone,-⟩ | ⟨p,tail,-,-,hrest,-⟩
    · rw [hnone] at hcurrent
      cases hcurrent
    · rw [Function.comp_apply,if_pos hcurrent,(hruns first hfirst).toWf.advance.2,hrest]
      simp

end Runs

/-- The head is the first row of the runs, and its frequency is not zero. -/
structure StreamWf (lengths : List (FieldId × List ℕ)) (rowCount : ℕ) (lengthAt : ℕ → ℕ)
    (s : TermStream) : Prop where
  runs : ∀ run ∈ s.runs,RunWf lengths rowCount lengthAt run
  head : s.head = firstRow s.runs
  head_pos : ∀ row,s.head = some row → 0 < s.tf row

section Streams
variable {lengths : List (FieldId × List ℕ)} {rowCount : ℕ} {lengthAt : ℕ → ℕ}
  {runs : List ListCursor} {s : TermStream} {row : ℕ}

theorem refreshRuns_spec (fuel : ℕ) (hfuel : left runs < fuel)
    (hruns : ∀ run ∈ runs,RunWf lengths rowCount lengthAt run) :
    StreamWf lengths rowCount lengthAt (refreshRuns fuel runs) ∧
      (∀ r,(refreshRuns fuel runs).tf r = mergedTf runs r) ∧
      left (refreshRuns fuel runs).runs ≤ left runs := by
  induction fuel generalizing runs with
  | zero => omega
  | succ fuel ih =>
    rw [refreshRuns]
    cases hfirst : firstRow runs with
    | none =>
      exact ⟨⟨hruns,hfirst.symm,fun row h => by cases h⟩,fun _ => rfl,le_rfl⟩
    | some row =>
      simp only
      split
      · rename_i hpos
        refine ⟨⟨hruns,hfirst.symm,?_⟩,fun _ => rfl,le_rfl⟩
        intro r hr
        obtain rfl := Option.some.inj hr
        rwa [tfAt_eq hruns hfirst] at hpos
      · rename_i hzero
        rw [tfAt_eq hruns hfirst] at hzero
        have hless:=left_stepRuns hruns hfirst
        have hstep : ∀ run ∈ stepRuns row runs,RunWf lengths rowCount lengthAt run :=
          stepRuns_wf hruns
        obtain ⟨hwf,htf,hleft⟩ := ih (by omega) hstep
        refine ⟨hwf,?_,hleft.trans hless.le⟩
        intro r
        rw [htf,stepRuns_tf hruns hfirst]
        split
        · -- rows up to a first row of frequency zero have frequency zero
          rename_i hle
          rcases Nat.lt_or_eq_of_le hle with hlt | rfl
          · refine (mergedTf_eq_zero fun run hrun p hp => ?_).symm
            have hge:=firstRow_le hruns hfirst run hrun p hp
            omega
          · omega
        · rfl

theorem headsAlwaysValid_pos (hruns : ∀ run ∈ runs,RunWf lengths rowCount lengthAt run)
    (hvalid : headsAlwaysValid runs = true) (h : firstRow runs = some row) :
    0 < mergedTf runs row := by
  obtain ⟨⟨run,hrun,hcurrent⟩,-⟩ := firstRow_some h
  have hweight : 1000 ≤ run.weight := by
    have hall:=all_eq_true.mp hvalid run hrun
    simpa using hall
  have htf : 0 < tfOf run.rest row := by
    rcases (hruns run hrun).current_cases with ⟨hnone,-⟩ | ⟨p,tail,hp,-,hrest,-⟩
    · rw [hnone] at hcurrent
      cases hcurrent
    · obtain ⟨b,hb,hmem⟩ := (hruns run hrun).toWf.mem_span (show p ∈ run.rest by simp [hrest])
      have hrow : row = p.1 := Option.some.inj (hcurrent.symm.trans hp)
      rw [hrest,tfOf_cons,if_pos hrow]
      exact ((hruns run hrun).span.block b hb).tf_pos p hmem
  have hterm : 1000 ≤ tfOf run.rest row*run.weight :=
    hweight.trans (Nat.le_mul_of_pos_left _ htf)
  have hsum : tfOf run.rest row*run.weight ≤
      (runs.map fun run => tfOf run.rest row*run.weight).sum :=
    le_sum_of_mem (mem_map.mpr ⟨run,hrun,rfl⟩)
  simp only [mergedTf,u64Max,u32Max]
  omega

theorem refresh_spec (hruns : ∀ run ∈ runs,RunWf lengths rowCount lengthAt run) :
    StreamWf lengths rowCount lengthAt (refresh runs) ∧
      (∀ r,(refresh runs).tf r = mergedTf runs r) ∧ left (refresh runs).runs ≤ left runs := by
  unfold refresh
  split
  · rename_i hvalid
    have hhead : (if unitSingle runs then runs.head?.bind ListCursor.current else firstRow runs) =
        firstRow runs := by
      split
      · rename_i hsingle
        simp only [unitSingle,Bool.and_eq_true,decide_eq_true_eq] at hsingle
        obtain ⟨run,rfl⟩ := length_eq_one_iff.mp hsingle.1
        cases hcurrent : run.current with
        | none => simp [firstRow,minRow,hcurrent]
        | some row => simp [firstRow,minRow,hcurrent]
      · rfl
    rw [hhead]
    refine ⟨⟨hruns,rfl,?_⟩,fun _ => rfl,le_rfl⟩
    intro row hrow
    exact headsAlwaysValid_pos hruns hvalid hrow
  · exact refreshRuns_spec _ (by omega) hruns

namespace StreamWf
variable (h : StreamWf lengths rowCount lengthAt s)
include h

theorem tf_below {r : ℕ} (hhead : s.head = some row) (hr : r < row) : s.tf r = 0 := by
  refine mergedTf_eq_zero fun run hrun p hp => ?_
  have hge:=firstRow_le h.runs (h.head ▸ hhead) run hrun p hp
  omega

theorem tf_none (hhead : s.head = none) (r : ℕ) : s.tf r = 0 := by
  refine mergedTf_eq_zero fun run hrun p hp => ?_
  have hnone:=firstRow_none (h.head ▸ hhead) run hrun
  rcases (h.runs run hrun).current_cases with ⟨-,hnil⟩ | ⟨q,tail,hq,-⟩
  · rw [hnil] at hp
    cases hp
  · rw [hnone] at hq
    cases hq

theorem row_lt {r : ℕ} (hr : s.tf r ≠ 0) : r < rowCount := by
  obtain ⟨run,hrun,p,hp,rfl⟩ := mergedTf_ne_zero hr
  obtain ⟨b,hb,hp⟩ := (h.runs run hrun).toWf.mem_span hp
  exact ((h.runs run hrun).span.block b hb).row p hp

theorem head_le {r : ℕ} (hr : s.tf r ≠ 0) : ∃ row,s.head = some row ∧ row ≤ r := by
  cases hhead : s.head with
  | none => exact absurd (h.tf_none hhead r) hr
  | some row =>
    refine ⟨row,rfl,?_⟩
    by_contra hlt
    exact hr (h.tf_below hhead (by omega))

theorem currentTf (hhead : s.head = some row) : s.currentTf = some (s.tf row) := by
  rw [TermStream.currentTf,hhead,Option.map_some,tfAt_eq h.runs (h.head ▸ hhead)]
  rfl

theorem advance (hhead : s.head = some row) :
    StreamWf lengths rowCount lengthAt s.advance ∧
      (∀ r,s.advance.tf r = if r ≤ row then 0 else s.tf r) ∧
      left s.advance.runs < left s.runs := by
  have hfirst : firstRow s.runs = some row := h.head ▸ hhead
  have heq : s.advance = refresh (stepRuns row s.runs) := by simp [TermStream.advance,hhead]
  have hstep : ∀ run ∈ stepRuns row s.runs,RunWf lengths rowCount lengthAt run :=
    stepRuns_wf h.runs
  obtain ⟨hwf,htf,hleft⟩ := refresh_spec hstep
  rw [heq]
  refine ⟨hwf,?_,hleft.trans_lt (left_stepRuns h.runs hfirst)⟩
  intro r
  rw [htf,stepRuns_tf h.runs hfirst]
  rfl

theorem seek_runs (row : ℕ) :
    ∀ run ∈ s.runs.map (ListCursor.seek row),RunWf lengths rowCount lengthAt run := by
  intro run hrun
  obtain ⟨source,hsource,rfl⟩ := mem_map.mp hrun
  exact (h.runs source hsource).seek row

theorem seek (row : ℕ) :
    StreamWf lengths rowCount lengthAt (s.seek row) ∧
      (∀ r,(s.seek row).tf r = if r < row then 0 else s.tf r) ∧
      left (s.seek row).runs ≤ left s.runs := by
  obtain ⟨hwf,htf,hleft⟩ := refresh_spec (h.seek_runs row)
  refine ⟨hwf,?_,hleft.trans ?_⟩
  · intro r
    rw [TermStream.seek,htf]
    refine mergedTf_map fun run hrun => ⟨?_,(run.seek_same row).2⟩
    rw [((h.runs run hrun).toWf.seek row).2,tfOf_dropWhile (h.runs run hrun).toWf.rest_ascending]
  · unfold left
    rw [map_map]
    refine sum_le_sum fun run hrun => ?_
    rw [Function.comp_apply,((h.runs run hrun).toWf.seek row).2]
    exact (dropWhile_sublist _).length_le

theorem seek_lt {bound : ℕ} (hhead : s.head = some row) (hlt : row < bound) :
    left (s.seek bound).runs < left s.runs := by
  refine (refresh_spec (h.seek_runs bound)).2.2.trans_lt ?_
  obtain ⟨⟨first,hfirst,hcurrent⟩,-⟩ := firstRow_some (h.head ▸ hhead)
  unfold left
  rw [map_map]
  refine sum_lt_sum _ _ (fun run hrun => ?_) ⟨first,hfirst,?_⟩
  · rw [Function.comp_apply,((h.runs run hrun).toWf.seek bound).2]
    exact (dropWhile_sublist _).length_le
  · rcases (h.runs first hfirst).current_cases with ⟨hnone,-⟩ | ⟨p,tail,hp,-,hrest,-⟩
    · rw [hnone] at hcurrent
      cases hcurrent
    · have hrow : p.1 = row := Option.some.inj (hp.symm.trans hcurrent)
      rw [Function.comp_apply,((h.runs first hfirst).toWf.seek bound).2,hrest,
        dropWhile_cons,if_pos (by simpa [hrow] using hlt),length_cons]
      exact Nat.lt_succ_of_le (dropWhile_sublist _).length_le

end StreamWf

section Bounds
variable {R : Type} [Zero R] [Preorder R] {scorer : TermScorer R}
  {pick : ListCursor → Option BlockImpact} {r : ℕ}

theorem boundFrom_nonneg (s : TermStream) (scorer : TermScorer R)
    (pick : ListCursor → Option BlockImpact) : 0 ≤ s.boundFrom scorer pick := by
  unfold TermStream.boundFrom
  split
  · exact le_rfl
  · exact scorer.nonneg _ _

theorem foldl_maxTf (runs : List ListCursor) (start : ℕ) (hstart : start ≤ u64Max) :
    runs.foldl (fun total run => (pick run).elim total fun impact =>
      min (total+(min (impact.maxTf*run.weight) u64Max+999) / 1000) u64Max) start =
    min (start+(runs.map fun run => (pick run).elim 0 fun impact =>
      (min (impact.maxTf*run.weight) u64Max+999) / 1000).sum) u64Max := by
  induction runs generalizing start with
  | nil => simpa using hstart
  | cons run runs ih =>
    rw [foldl_cons,map_cons,sum_cons]
    cases hpick : pick run with
    | none =>
      rw [Option.elim_none,ih start hstart,Option.elim_none,Nat.zero_add]
    | some impact =>
      rw [Option.elim_some,ih _ (min_le_right _ _),Option.elim_some]
      omega

theorem sum_weighted_le (hpick : ∀ run ∈ runs,tfOf run.rest r ≠ 0 →
      ∃ impact,pick run = some impact ∧ tfOf run.rest r ≤ impact.maxTf) :
    (runs.map fun run => tfOf run.rest r*run.weight).sum ≤
        1000*(runs.map fun run => (pick run).elim 0 fun impact =>
          (min (impact.maxTf*run.weight) u64Max+999) / 1000).sum ∨
      u32Max ≤ (runs.map fun run => (pick run).elim 0 fun impact =>
        (min (impact.maxTf*run.weight) u64Max+999) / 1000).sum := by
  induction runs with
  | nil => exact .inl (by simp)
  | cons run runs ih =>
    have hrest:=ih fun run hrun => hpick run (mem_cons_of_mem _ hrun)
    have hone : tfOf run.rest r*run.weight ≤ 1000*(pick run).elim 0 (fun impact =>
        (min (impact.maxTf*run.weight) u64Max+999) / 1000) ∨
        u32Max ≤ (pick run).elim 0 fun impact =>
          (min (impact.maxTf*run.weight) u64Max+999) / 1000 := by
      by_cases hzero : tfOf run.rest r = 0
      · exact .inl (by simp [hzero])
      · obtain ⟨impact,himpact,hle⟩ := hpick run mem_cons_self hzero
        have hproduct:=Nat.mul_le_mul_right run.weight hle
        rw [himpact,Option.elim_some]
        simp only [u64Max,u32Max]
        omega
    simp only [map_cons,sum_cons]
    omega

theorem StreamWf.boundFrom_dominates (h : StreamWf lengths rowCount lengthAt s)
    (hpick : ∀ run ∈ s.runs,∀ p ∈ run.rest,p.1 = r → ∃ impact,pick run = some impact ∧
      impact.Dominates lengths run.span.field p) :
    scorer.score (s.tf r) (lengthAt r) ≤ s.boundFrom scorer pick := by
  by_cases hzero : s.tf r = 0
  · rw [hzero,scorer.absent]
    exact boundFrom_nonneg s scorer pick
  · have hrow:=h.row_lt hzero
    obtain ⟨run,hrun,p,hp,rfl⟩ := mergedTf_ne_zero hzero
    obtain ⟨impact,himpact,hdominates⟩ := hpick run hrun p hp rfl
    have hmem : min (impact.minLen*run.weight) u64Max / 1000 ∈ s.runs.filterMap fun run =>
        (pick run).map fun impact => min (impact.minLen*run.weight) u64Max / 1000 :=
      mem_filterMap.mpr ⟨run,hrun,by rw [himpact]; rfl⟩
    unfold TermStream.boundFrom
    cases hmin : (s.runs.filterMap fun run => (pick run).map fun impact =>
        min (impact.minLen*run.weight) u64Max / 1000).min? with
    | none =>
      rw [min?_eq_none_iff] at hmin
      rw [hmin] at hmem
      cases hmem
    | some minLen =>
      have hleast:=(min?_eq_some_iff.mp hmin).2 _ hmem
      refine scorer.score_le ?_ ?_
      · have htfs : ∀ run ∈ s.runs,tfOf run.rest p.1 ≠ 0 →
            ∃ impact,pick run = some impact ∧ tfOf run.rest p.1 ≤ impact.maxTf := by
          intro run hrun hne
          obtain ⟨impact,himpact,hdominates⟩ := hpick run hrun _ (mem_of_tfOf hne) rfl
          exact ⟨impact,himpact,hdominates.1⟩
        have hsum:=sum_weighted_le htfs
        rw [foldl_maxTf s.runs 0 (Nat.zero_le _),TermStream.tf,mergedTf]
        simp only [u64Max,u32Max] at hsum ⊢
        omega
      · have hlength:=(h.runs run hrun).len p.1 hrow
        have hproduct:=Nat.mul_le_mul_right run.weight hdominates.2
        simp only [u64Max,u32Max] at hleast hlength ⊢
        omega

theorem StreamWf.upperBound_dominates (h : StreamWf lengths rowCount lengthAt s) (r : ℕ) :
    scorer.score (s.tf r) (lengthAt r) ≤ s.upperBound scorer := by
  refine h.boundFrom_dominates fun run hrun p hp _ => ?_
  cases hblock : run.block with
  | none =>
    rw [ListCursor.rest_of_none hblock] at hp
    cases hp
  | some b =>
    exact ⟨run.span.overall,by simp [ListCursor.exhausted,hblock],
      (h.runs run hrun).toWf.overall_dominates hp⟩

theorem boundHorizonFor_eq (s : TermStream) (row : ℕ) : s.boundHorizonFor row =
    (s.runs.map fun run => run.impactHorizonFor row).foldl minRow none := by
  rw [TermStream.boundHorizonFor,foldl_map]

theorem StreamWf.boundFor_dominates (h : StreamWf lengths rowCount lengthAt s) (hrow : row ≤ r)
    (hhorizon : ∀ e,s.boundHorizonFor row = some e → r ≤ e) :
    scorer.score (s.tf r) (lengthAt r) ≤ s.boundFor row scorer := by
  refine h.boundFrom_dominates fun run hrun p hp heq => ?_
  refine (h.runs run hrun).toWf.impactFor_dominates hp (heq ▸ hrow) fun e he => ?_
  have hmem : some e ∈ s.runs.map fun run => run.impactHorizonFor row :=
    mem_map.mpr ⟨run,hrun,he⟩
  cases hedge : s.boundHorizonFor row with
  | none =>
    rw [boundHorizonFor_eq] at hedge
    exact absurd hmem (((foldl_minRow _ none).2 hedge).2 e)
  | some edge =>
    have hle:=hhorizon edge hedge
    rw [boundHorizonFor_eq] at hedge
    exact heq ▸ hle.trans (((foldl_minRow _ none).1 edge hedge).2.2 e hmem)

theorem StreamWf.le_boundHorizon (h : StreamWf lengths rowCount lengthAt s) {e : ℕ}
    (he : s.boundHorizonFor row = some e) : row ≤ e ∧ e < rowCount := by
  rw [boundHorizonFor_eq] at he
  rcases ((foldl_minRow _ none).1 e he).1 with hnone | hmem
  · cases hnone
  · obtain ⟨run,hrun,hedge⟩ := mem_map.mp hmem
    exact (h.runs run hrun).toWf.le_horizon hedge

end Bounds

def ListCursor.source (c : ListCursor) : ListSpan × ℕ := (c.span,c.weight)

def sourceTf (sources : List (ListSpan × ℕ)) (row : ℕ) : ℕ :=
  min (min (sources.map fun source =>
    tfOf (source.1.blocks.flatMap Block.postings) row*source.2).sum u64Max / 1000) u32Max

def TermStream.sources (s : TermStream) : List (ListSpan × ℕ) := s.runs.map ListCursor.source

theorem stepRuns_sources (row : ℕ) (runs : List ListCursor) :
    (stepRuns row runs).map ListCursor.source = runs.map ListCursor.source := by
  unfold stepRuns
  rw [map_map]
  refine map_congr_left fun run _ => ?_
  rw [Function.comp_apply]
  split
  · exact Prod.ext run.advance_same.1 run.advance_same.2
  · rfl

theorem refreshRuns_sources (fuel : ℕ) (runs : List ListCursor) :
    (refreshRuns fuel runs).sources = runs.map ListCursor.source := by
  induction fuel generalizing runs with
  | zero => rfl
  | succ fuel ih =>
    unfold refreshRuns
    split
    · rfl
    · split
      · rfl
      · rw [ih,stepRuns_sources]

theorem refresh_sources (runs : List ListCursor) :
    (refresh runs).sources = runs.map ListCursor.source := by
  unfold refresh
  split
  · rfl
  · exact refreshRuns_sources _ runs

theorem reset_sources (s : TermStream) : s.reset.sources = s.sources := by
  unfold TermStream.reset
  rw [refresh_sources,map_map]
  exact map_congr_left fun run _ => Prod.ext run.reset_same.1 run.reset_same.2

theorem reset_spec (hruns : ∀ run ∈ s.runs,RunWf lengths rowCount lengthAt run) :
    StreamWf lengths rowCount lengthAt s.reset ∧ ∀ r,s.reset.tf r = sourceTf s.sources r := by
  have hreset : ∀ run ∈ s.runs.map ListCursor.reset,RunWf lengths rowCount lengthAt run := by
    intro run hrun
    obtain ⟨source,hsource,rfl⟩ := mem_map.mp hrun
    exact (hruns source hsource).reset
  obtain ⟨hwf,htf,-⟩ := refresh_spec hreset
  refine ⟨hwf,fun r => ?_⟩
  unfold TermStream.reset sourceTf TermStream.sources
  rw [htf,mergedTf,map_map,map_map]
  congr 4
  refine map_congr_left fun run hrun => ?_
  rw [Function.comp_apply,Function.comp_apply,(hruns run hrun).toWf.reset.2,run.reset_same.2]
  rfl

/-- The weighted length of a row; one token where there is none. -/
def lengthOf (lengths : List ℕ) (row : ℕ) : ℕ := lengths[row]?.getD 1

theorem openStream_spec {segment : SealedSegment} (h : segment.Valid) {term : String}
    {weights : FieldWeights} (hopen : segment.openStream term weights = some s) :
    StreamWf segment.lengths segment.rowCount (lengthOf (segment.weightedLengths weights)) s ∧
      ∀ r,s.tf r = sourceTf s.sources r := by
  unfold SealedSegment.openStream at hopen
  obtain ⟨-,hopen⟩ := Option.ite_none_left_eq_some.mp hopen
  obtain rfl := Option.some.inj hopen
  rw [reset_sources]
  refine reset_spec fun run hrun => ?_
  obtain ⟨span,hspan,rfl⟩ := mem_map.mp hrun
  obtain ⟨hmem,hweight⟩ := mem_filter.mp hspan
  have hspans : span ∈ segment.spans :=
    (dropWhile_sublist _).subset ((takeWhile_sublist _).subset hmem)
  refine ⟨⟨h.span span hspans,.inl rfl⟩,fun row hrow => ?_⟩
  obtain ⟨length,hget,hle⟩ :=
    weightedLengths_ge segment (by simpa using hweight) hrow
  rw [lengthOf,hget,Option.getD_some]
  exact hle

end Streams

end Zeppelin.Fts
