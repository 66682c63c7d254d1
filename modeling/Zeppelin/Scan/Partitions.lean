import Zeppelin.Scan.TopK

/-! scan/mod.rs, lifecycle/pool.rs: Scores come from a kernel. -/

namespace Zeppelin.Scan
open List

section Execution
variable {S ε : Type} [LinearOrder S]

def partitionRowCount (rowCount workers : ℕ) : List (ℕ × ℕ) :=
  (range workers).map fun worker => (worker*rowCount / workers,(worker+1)*rowCount / workers)

def BoundedTopK.push (top : BoundedTopK S) (c : ScanCandidate S) : BoundedTopK S :=
  match top.pushWithReserve (ε := Empty) (fun _ => .ok ()) c with
  | .ok next => next
  | .error e => e.elim

/-- The loop of `scan_f32_rows`, `scan_f16_rows` and `scan_int8_rows`. A row that the mask leaves
out has no score. (`scan_bit4_rows` scores four rows at once and is another loop.) -/
def scanRows (score : ℕ → Option (Except ε S)) : List ℕ → BoundedTopK S → Except ε (BoundedTopK S)
  | [],selected => .ok selected
  | row::rows,selected =>
    match score row with
    | none => scanRows score rows selected
    | some (.error e) => .error e
    | some (.ok s) => scanRows score rows (selected.push ⟨row,s⟩)

def scanPartition (score : ℕ → Option (Except ε S)) (k : ℕ) (range : ℕ × ℕ) :
    Except ε (List (ScanCandidate S)) := do
  let rowCount:=range.2-range.1
  return (← scanRows score (range' range.1 rowCount) (.new (min k rowCount))).intoSortedWithTies

def mergePartitions (k rowCount : ℕ) (partitions : List (List (ScanCandidate S))) :
    List (ScanCandidate S) :=
  (partitions.flatten.foldl BoundedTopK.push (.new (min k rowCount))).intoSortedWithTies

structure Completion (α : Type) where
  remaining : ℕ
  results : List (Option α)

def Completion.new {α : Type} (workers : ℕ) : Completion α := ⟨workers,replicate workers none⟩

/-- Only the first result of a slot counts. -/
def Completion.complete {α : Type} (completion : Completion α) (slot : ℕ) (result : α) :
    Completion α :=
  match completion.results[slot]? with
  | some none => ⟨completion.remaining-1,completion.results.set slot (some result)⟩
  | _ => completion

/-- `wait` once nothing remains; `empty` is the error of a slot without result. -/
def Completion.collect {α : Type} (empty : ε) (completion : Completion (Except ε α)) :
    Except ε (List α) :=
  completion.results.mapM fun result => result.getD (.error empty)

/-- The workers report in any order, and perhaps more than once. -/
def reported (score : ℕ → Option (Except ε S)) (k rowCount workers : ℕ) (slots : List ℕ) :
    Completion (Except ε (List (ScanCandidate S))) :=
  slots.foldl (fun completion slot => match (partitionRowCount rowCount workers)[slot]? with
    | some range => completion.complete slot (scanPartition score k range)
    | none => completion) (.new workers)

def execute (empty : ε) (score : ℕ → Option (Except ε S)) (k rowCount workers : ℕ)
    (slots : List ℕ) : Except ε (List (ScanCandidate S)) := do
  return mergePartitions k rowCount
    (← (reported score k rowCount workers slots).collect empty)

/-- The candidates of the rows, or the failure of the first row that has no score. -/
def candidates (score : ℕ → Option (Except ε S)) : List ℕ → Except ε (List (ScanCandidate S))
  | [] => .ok []
  | row::rows =>
    match score row with
    | none => candidates score rows
    | some (.error e) => .error e
    | some (.ok s) => do return ⟨row,s⟩::(← candidates score rows)

def bestOf (k : ℕ) (cs : List (ScanCandidate S)) : List (ScanCandidate S) :=
  bestWithTies k (cs : Multiset (ScanCandidate S))

variable {entries rest : Multiset (ScanCandidate S)} {k : ℕ}

/-- What a part leaves out never decides what is kept of the whole. -/
theorem within_kept (c : ScanCandidate S) :
    Within k (entries.filter (Within k entries)+rest) c ↔ Within k (entries+rest) c := by
  have hcount (of : Multiset (ScanCandidate S)) :
      Within k of c ↔ (of.filter fun other => c.score < other.score).card < k := Iff.rfl
  rw [hcount,hcount,Multiset.filter_add,Multiset.filter_add,Multiset.card_add,
    Multiset.card_add]
  constructor
  · intro hkept
    have hall : (entries.filter fun other => c.score < other.score) ≤
        entries.filter (Within k entries) := by
      refine Multiset.le_filter.mpr ⟨Multiset.filter_le _ _,fun a ha => ?_⟩
      by_contra hout
      have hlong : k ≤ (entries.filter fun other => a.score < other.score).card := not_lt.mp hout
      -- at least `k` entries are kept, all of them above `a`
      have hlength:=congrArg List.length (take_bestWithTies k entries)
      rw [best,length_take,length_take,bestWithTies,Multiset.length_sort,
        Multiset.length_sort] at hlength
      have hcard:=Multiset.card_le_card (Multiset.filter_le (fun other => a.score < other.score)
        entries)
      have habove : (entries.filter (Within k entries)).filter (fun other => c.score < other.score) =
          entries.filter (Within k entries) := by
        refine Multiset.filter_eq_self.mpr fun w hw => ?_
        by_contra hbelow
        have hless:=(not_lt.mp hbelow).trans_lt (Multiset.mem_filter.mp ha).2
        have hmono:=Multiset.card_le_card (Multiset.monotone_filter_right entries
          (fun other (hother : a.score < other.score) => hless.trans hother))
        exact absurd (Multiset.mem_filter.mp hw).2 (not_lt.mpr (hlong.trans hmono))
      rw [habove] at hkept
      omega
    have hsame : (entries.filter (Within k entries)).filter (fun other => c.score < other.score) =
        entries.filter fun other => c.score < other.score :=
      le_antisymm (Multiset.filter_le_filter _ (Multiset.filter_le _ _))
        (Multiset.le_filter.mpr ⟨hall,fun a ha => (Multiset.mem_filter.mp ha).2⟩)
    rwa [hsame] at hkept
  · intro hwhole
    have hmono:=Multiset.card_le_card (Multiset.filter_le_filter
      (fun other : ScanCandidate S => c.score < other.score)
      (Multiset.filter_le (Within k entries) entries))
    omega

theorem bestWithTies_kept : bestWithTies k ((bestWithTies k entries : Multiset _)+rest) =
    bestWithTies k (entries+rest) := by
  unfold bestWithTies
  rw [Multiset.sort_eq,
    Multiset.filter_congr fun c _ => within_kept c,Multiset.filter_add,Multiset.filter_add,
    Multiset.filter_filter]
  congr 2
  refine Multiset.filter_congr fun c _ => and_iff_left_of_imp fun hwhole => ?_
  have hmono:=Multiset.card_le_card (Multiset.filter_le_filter
    (fun other : ScanCandidate S => c.score < other.score) (Multiset.le_add_right entries rest))
  exact hmono.trans_lt hwhole

theorem Holds.pushOne {top : BoundedTopK S} (h : Holds top entries) (c : ScanCandidate S) :
    Holds (top.push c) (c ::ₘ entries) ∧ (top.push c).limit = top.limit := by
  cases hpush : top.pushWithReserve (ε := Empty) (fun _ => .ok ()) c with
  | ok next =>
    rw [BoundedTopK.push,hpush]
    exact h.push hpush
  | error e => exact e.elim

theorem Holds.pushes {top : BoundedTopK S} (h : Holds top entries) (cs : List (ScanCandidate S)) :
    Holds (cs.foldl BoundedTopK.push top) (entries+cs) ∧
      (cs.foldl BoundedTopK.push top).limit = top.limit := by
  induction cs generalizing top entries with
  | nil => exact ⟨(Multiset.add_zero entries).symm ▸ h,rfl⟩
  | cons c cs ih =>
    obtain ⟨hone,hlimit⟩ := h.pushOne c
    obtain ⟨hall,hlimit'⟩ := ih hone
    rw [← Multiset.cons_coe,Multiset.add_cons,← Multiset.cons_add]
    exact ⟨hall,hlimit'.trans hlimit⟩

variable {score : ℕ → Option (Except ε S)}

theorem scanRows_eq (rows : List ℕ) (selected : BoundedTopK S) :
    scanRows score rows selected =
      (fun cs => cs.foldl BoundedTopK.push selected) <$> candidates score rows := by
  induction rows generalizing selected with
  | nil => rfl
  | cons row rows ih =>
    rw [scanRows,candidates]
    cases score row with
    | none => exact ih selected
    | some given =>
      cases given with
      | error e => rfl
      | ok s =>
        dsimp only
        rw [ih]
        cases candidates score rows with
        | error e => rfl
        | ok cs => rfl

omit [LinearOrder S] in
theorem candidates_append (rows more : List ℕ) :
    candidates score (rows++more) = (do
      let cs ← candidates score rows
      return cs++(← candidates score more)) := by
  induction rows with
  | nil =>
    rw [nil_append,candidates,ok_bind]
    cases candidates score more with
    | error e => rfl
    | ok cs => rfl
  | cons row rows ih =>
    rw [cons_append,candidates,candidates]
    cases score row with
    | none => exact ih
    | some given =>
      cases given with
      | error e => rfl
      | ok s =>
        dsimp only
        rw [ih]
        cases candidates score rows with
        | error e => rfl
        | ok cs =>
          cases candidates score more with
          | error e => rfl
          | ok ds => rfl

omit [LinearOrder S] in
theorem candidates_length {rows : List ℕ} {cs : List (ScanCandidate S)}
    (h : candidates score rows = .ok cs) : cs.length ≤ rows.length := by
  induction rows generalizing cs with
  | nil =>
    obtain rfl := Except.ok.inj h
    exact le_rfl
  | cons row rows ih =>
    rw [candidates] at h
    cases hscore : score row with
    | none =>
      rw [hscore] at h
      exact (ih h).trans (Nat.le_succ _)
    | some given =>
      rw [hscore] at h
      cases given with
      | error e => cases h
      | ok s =>
        obtain ⟨ds,hds,rfl⟩ := bind_pure_eq_ok h
        exact Nat.succ_le_succ (ih hds)

theorem scanPartition_eq (k : ℕ) (range : ℕ × ℕ) : scanPartition score k range =
    bestOf k <$> candidates score (range' range.1 (range.2-range.1)) := by
  rw [scanPartition,scanRows_eq]
  cases hcs : candidates score (range' range.1 (range.2-range.1)) with
  | error e => rfl
  | ok cs =>
    obtain ⟨hholds,hlimit⟩ := (Holds.new (min k (range.2-range.1))).pushes cs
    have hlength:=candidates_length hcs
    rw [length_range'] at hlength
    rw [ok_map,ok_bind,hholds.intoSortedWithTies,hlimit,ok_map,Multiset.zero_add]
    exact congrArg Except.ok (bestWithTies_min hlength)

theorem scanPartition_min {k rowCount : ℕ} {range : ℕ × ℕ} (h : range.2-range.1 ≤ rowCount) :
    scanPartition score k range = scanPartition score (min k rowCount) range := by
  rw [scanPartition,scanPartition,Nat.min_assoc,Nat.min_eq_right h]

variable (score) in
/-- The best of the parts are the best of all their rows. -/
theorem mapM_scanPartition (k : ℕ) (ranges : List (ℕ × ℕ)) :
    (fun parts => bestOf k parts.flatten) <$> ranges.mapM (scanPartition score k) =
      bestOf k <$>
        candidates score (ranges.flatMap fun range => range' range.1 (range.2-range.1)) := by
  induction ranges with
  | nil => rfl
  | cons range ranges ih =>
    rw [mapM_cons,flatMap_cons,candidates_append,scanPartition_eq]
    cases candidates score (range' range.1 (range.2-range.1)) with
    | error e => rfl
    | ok front =>
      rw [ok_map,ok_bind,ok_bind]
      revert ih
      cases ranges.mapM (scanPartition score k) with
      | error e =>
        intro ih
        cases hcs : candidates score _ with
        | error e' =>
          rw [hcs] at ih
          obtain rfl := Except.error.inj ih
          rfl
        | ok cs =>
          rw [hcs] at ih
          cases ih
      | ok parts =>
        intro ih
        cases hcs : candidates score _ with
        | error e =>
          rw [hcs] at ih
          cases ih
        | ok cs =>
          rw [hcs] at ih
          have hrest : bestOf k parts.flatten = bestOf k cs := Except.ok.inj ih
          apply congrArg Except.ok
          unfold bestOf at hrest ⊢
          dsimp only
          rw [flatten_cons,← Multiset.coe_add,← Multiset.coe_add,bestWithTies_kept,
            Multiset.add_comm,← bestWithTies_kept,hrest,bestWithTies_kept,Multiset.add_comm]

theorem partitionRowCount_tiles (rowCount : ℕ) {workers : ℕ} (h : 0 < workers) :
    (partitionRowCount rowCount workers).flatMap (fun range => range' range.1 (range.2-range.1)) =
      range' 0 rowCount := by
  have hfront (count : ℕ) : ((range count).map fun worker =>
      (worker*rowCount / workers,(worker+1)*rowCount / workers)).flatMap
        (fun range => range' range.1 (range.2-range.1)) = range' 0 (count*rowCount / workers) := by
    induction count with
    | zero => simp
    | succ count ih =>
      have hle : count*rowCount / workers ≤ (count+1)*rowCount / workers :=
        Nat.div_le_div_right (Nat.mul_le_mul_right _ (Nat.le_succ count))
      rw [range_succ,map_append,flatMap_append,ih,map_singleton,flatMap_singleton]
      dsimp only
      nth_rewrite 2 [← Nat.zero_add (count*rowCount / workers)]
      rw [range'_append_1,Nat.add_sub_cancel' hle]
  rw [partitionRowCount,hfront,Nat.mul_div_cancel_left rowCount h]

/-- The slots that were reported hold their results, and as many are empty as remain. -/
structure Pending {α : Type} (given : List α) (completion : Completion α) : Prop where
  length : completion.results.length = given.length
  given : ∀ (i : ℕ) result,completion.results[i]? = some (some result) → given[i]? = some result
  remaining : completion.remaining = completion.results.countP Option.isNone

theorem Pending.complete {α : Type} {given : List α} {completion : Completion α} {slot : ℕ}
    {result : α} (h : Pending given completion) (hresult : given[slot]? = some result) :
    Pending given (completion.complete slot result) := by
  unfold Completion.complete
  split
  · rename_i hempty
    obtain ⟨hlt,hnone⟩ := List.getElem?_eq_some_iff.mp hempty
    refine ⟨(length_set ..).trans h.length,fun i other hother => ?_,?_⟩
    · rw [getElem?_set] at hother
      split_ifs at hother with hslot
      · obtain rfl := Option.some.inj (Option.some.inj hother)
        exact hslot ▸ hresult
      · exact h.given i other hother
    · dsimp only
      rw [countP_set hlt,hnone,h.remaining]
      simp
  · exact h

/-- All results are there once nothing remains. -/
theorem Pending.collect {α : Type} {given : List (Except ε α)}
    {completion : Completion (Except ε α)} (h : Pending given completion)
    (hdone : completion.remaining = 0) (empty : ε) :
    completion.collect empty = given.mapM id := by
  have hall : completion.results = given.map some := by
    have hfull : ∀ result ∈ completion.results,result.isNone = false := by
      intro result hresult
      have hnone:=countP_eq_zero.mp (h.remaining.symm.trans hdone) result hresult
      exact Bool.eq_false_of_not_eq_true hnone
    apply ext_getElem (by rw [h.length,length_map])
    intro i hi _
    cases hslot : completion.results[i] with
    | none => exact absurd (hfull _ (getElem_mem hi)) (by rw [hslot]; simp)
    | some result =>
      have hgiven:=h.given i result (by rw [getElem?_eq_getElem hi,hslot])
      rw [getElem_map,(getElem_eq_iff _).mpr hgiven]
  rw [Completion.collect,hall,mapM_map]
  rfl

theorem reported_pending (k rowCount workers : ℕ) (slots : List ℕ) :
    Pending ((partitionRowCount rowCount workers).map (scanPartition score k))
      (reported score k rowCount workers slots) := by
  have hstart : Pending ((partitionRowCount rowCount workers).map (scanPartition score k))
      (.new workers) := by
    refine ⟨by simp [Completion.new,partitionRowCount],fun i result hresult => ?_,?_⟩
    · obtain ⟨-,hsome⟩ := mem_replicate.mp (mem_of_getElem? hresult)
      cases hsome
    · simp [Completion.new,countP_replicate]
  unfold reported
  generalize Completion.new workers = start at hstart
  induction slots generalizing start with
  | nil => exact hstart
  | cons slot slots ih =>
    rw [foldl_cons]
    apply ih
    cases hrange : (partitionRowCount rowCount workers)[slot]? with
    | none => exact hstart
    | some range =>
      apply hstart.complete
      rw [getElem?_map,hrange,Option.map_some]

/-- A scan in partitions gives what one scan of all rows gives, the failure of the first row without
a score included, for any number of workers in whatever order they report. -/
theorem execute_eq_scan {workers : ℕ} (h : 0 < workers) (empty : ε) (k rowCount : ℕ)
    (score : ℕ → Option (Except ε S)) (slots : List ℕ)
    (hdone : (reported score k rowCount workers slots).remaining = 0) :
    execute empty score k rowCount workers slots = scanPartition score k (0,rowCount) := by
  have hparts : (partitionRowCount rowCount workers).map (scanPartition score k) =
      (partitionRowCount rowCount workers).map (scanPartition score (min k rowCount)) := by
    refine map_congr_left fun range hrange => scanPartition_min ?_
    obtain ⟨worker,hworker,rfl⟩ := mem_map.mp hrange
    exact (Nat.sub_le _ _).trans (Nat.div_le_of_le_mul
      (Nat.mul_le_mul_right rowCount (mem_range.mp hworker)))
  have hmerge (parts : List (List (ScanCandidate S))) :
      mergePartitions k rowCount parts = bestOf (min k rowCount) parts.flatten := by
    obtain ⟨hholds,hlimit⟩ := (Holds.new (min k rowCount)).pushes parts.flatten
    rw [mergePartitions,hholds.intoSortedWithTies,hlimit,Multiset.zero_add]
    rfl
  have hall:=mapM_scanPartition score (min k rowCount) (partitionRowCount rowCount workers)
  have hserial : scanPartition score k (0,rowCount) =
      scanPartition score (min k rowCount) (0,rowCount) := scanPartition_min (Nat.sub_le _ _)
  rw [partitionRowCount_tiles rowCount h] at hall
  have hcollect:=(reported_pending k rowCount workers slots).collect hdone empty
  rw [hserial,scanPartition_eq,Nat.sub_zero,← hall,execute,hcollect,hparts,mapM_map]
  simp only [hmerge]
  rfl

/-- Two workers, of which the second one reports first and twice. -/
theorem execute_eq_scan_two_workers :
    0 < 2 ∧
      (reported (fun row => some (.ok (row % 2) : Except Unit ℕ)) 1 5 2 [1,1,0]).remaining = 0 ∧
      execute () (fun row => some (.ok (row % 2))) 1 5 2 [1,1,0] =
        scanPartition (fun row => some (.ok (row % 2))) 1 (0,5) :=
  ⟨by decide,by decide,execute_eq_scan (by decide) _ _ _ _ _ (by decide)⟩

end Execution

end Zeppelin.Scan
