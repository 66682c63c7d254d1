import Zeppelin.Fts.WandExact

namespace Zeppelin.Fts
open Collections Machine List

variable {R : Type} [AddCommGroup R] [LinearOrder R]

section Threshold
variable {heap : TopK R} {segment row : ℕ} {allowed : ℕ → Bool} {score : R}

structure TopK.Ranked (heap : TopK R) : Prop where
  sorted : heap.entries.SortedLE
  length : heap.entries.length ≤ heap.capacity
  nonneg : ∀ e ∈ heap.entries,0 ≤ e.score

theorem TopK.Ranked.offerRow (h : heap.Ranked) (hscore : 0 ≤ score) :
    (offerRow segment allowed heap row score).Ranked := by
  unfold Fts.offerRow
  split
  · obtain ⟨hsorted,hlength⟩ := offerTop_sorted h.sorted h.length ⟨⟨segment,row⟩,score⟩
    refine ⟨hsorted,hlength,fun e he => ?_⟩
    rcases mem_offerTop he with rfl | he
    · exact hscore
    · exact h.nonneg e he
  · exact h

omit [AddCommGroup R] in
theorem score_le_of_le {d e : ScoredDoc R} (h : d ≤ e) : e.score ≤ d.score := by
  change rankKey d ≤ rankKey e at h
  rw [rankKey,rankKey,Prod.Lex.toLex_le_toLex] at h
  rcases h with h | h
  · exact (OrderDual.toDual_lt_toDual.mp h).le
  · exact (OrderDual.toDual_inj.mp h.1).ge

theorem TopK.Ranked.full_offerRow (h : heap.Ranked) (hfull : heap.isFull = true) :
    (Fts.offerRow segment allowed heap row score).isFull = true ∧
      heap.threshold ≤ (Fts.offerRow segment allowed heap row score).threshold := by
  unfold Fts.offerRow
  split
  · have hlen : heap.entries.length = heap.capacity := by
      have hge : heap.capacity ≤ heap.entries.length := by simpa [TopK.isFull] using hfull
      exact le_antisymm h.length hge
    have hentries:=offerTop_eq h.sorted h.length ⟨⟨segment,row⟩,score⟩
    have hlength : (offerTop heap.capacity heap.entries ⟨⟨segment,row⟩,score⟩).length =
        heap.capacity := by
      rw [hentries,length_take,orderedInsert_length,hlen]
      omega
    refine ⟨by simp [TopK.isFull,TopK.offer,hlength],?_⟩
    unfold TopK.threshold
    rw [if_neg (by omega),TopK.offer,if_neg (by simp only; omega)]
    simp only
    cases hnew : (offerTop heap.capacity heap.entries ⟨⟨segment,row⟩,score⟩).getLast? with
    | none =>
      have hnil:=getLast?_eq_none_iff.mp hnew
      rw [hnil,length_nil] at hlength
      rw [length_eq_zero_iff.mp (hlen.trans hlength.symm)]
      rfl
    | some last =>
      have hmem:=mem_of_getLast? hnew
      cases hold : heap.entries.getLast? with
      | none =>
        have hnil:=getLast?_eq_none_iff.mp hold
        rw [hnil,length_nil] at hlen
        rw [length_eq_zero_iff.mp (hlength.trans hlen.symm)] at hmem
        cases hmem
      | some old =>
        rw [hentries,← hlen] at hmem
        exact score_le_of_le (le_last_of_mem_take h.sorted hold hmem)
  · exact ⟨hfull,le_rfl⟩

variable [IsOrderedAddMonoid R] in
theorem rowScore_nonneg (lengths : List ℕ) (plans : List (TermPlan R)) (row : ℕ) :
    0 ≤ rowScore lengths plans row := by
  refine sum_nonneg fun x hx => ?_
  obtain ⟨t,-,rfl⟩ := mem_map.mp hx
  exact t.score_nonneg lengths row

variable [IsOrderedAddMonoid R] in
theorem TopK.Ranked.offered {lengths : List ℕ} {plans : List (TermPlan R)} (h : heap.Ranked)
    (bound : ℕ) : (offered lengths segment allowed plans heap bound).Ranked := by
  induction bound with
  | zero => exact h
  | succ bound ih =>
    rw [offered_succ]
    split
    · exact ih.offerRow (rowScore_nonneg lengths plans bound)
    · exact ih

end Threshold

section Essential
variable {cursors cursors' : List (TermCursor R)} {full full' : Bool} {threshold threshold' : R}

theorem essential_congr (h : ∀ slot,boundAt cursors' slot = boundAt cursors slot)
    (accumulated : R) (order : List ℕ) : essential cursors' full threshold accumulated order =
      essential cursors full threshold accumulated order := by
  induction order generalizing accumulated with
  | nil => rfl
  | cons slot rest ih => rw [essential,essential,h slot,ih]

theorem essential_split (cursors : List (TermCursor R)) (full : Bool) (threshold accumulated : R)
    (order : List ℕ) :
    ∃ front,order = front++essential cursors full threshold accumulated order ∧
      (front = [] ∨
        full = true ∧ accumulated+(front.map (boundAt cursors)).sum ≤ threshold) := by
  induction order generalizing accumulated with
  | nil => exact ⟨[],rfl,.inl rfl⟩
  | cons slot rest ih =>
    rw [essential]
    split
    · rename_i hcheap
      obtain ⟨front,horder,hfront⟩ := ih (accumulated+boundAt cursors slot)
      refine ⟨slot::front,by rw [cons_append,← horder],.inr ⟨hcheap.1,?_⟩⟩
      rw [map_cons,sum_cons,← add_assoc]
      rcases hfront with rfl | ⟨-,hsum⟩
      · simpa using hcheap.2
      · exact hsum
    · exact ⟨[],rfl,.inl rfl⟩

theorem essential_subset (h : full = true → full' = true ∧ threshold ≤ threshold')
    (accumulated : R) (order : List ℕ) :
    essential cursors full' threshold' accumulated order ⊆
      essential cursors full threshold accumulated order := by
  induction order generalizing accumulated with
  | nil => exact fun _ hmem => hmem
  | cons slot rest ih =>
    rw [essential.eq_2 cursors full]
    split
    · rename_i hcheap
      obtain ⟨hfull,hle⟩ := h hcheap.1
      rw [essential,if_pos ⟨hfull,hcheap.2.trans hle⟩]
      exact ih _
    · obtain ⟨front,horder,-⟩ :=
        essential_split cursors full' threshold' accumulated (slot::rest)
      intro x hx
      rw [horder]
      exact mem_append_right _ hx

end Essential

section Probe
variable {fields : List (FieldId × List ℕ)} {rowCount : ℕ} {lengths : List ℕ}
  {plans : List (TermPlan R)} {row : ℕ} {full : Bool} {threshold : R}
  {cursors : List (TermCursor R)}

def scoreAt (lengths : List ℕ) (plans : List (TermPlan R)) (row slot : ℕ) : R :=
  plans[slot]?.elim 0 (TermPlan.score lengths row)

structure Probed (row : ℕ) (c c' : TermCursor R) : Prop where
  left : left c'.stream.runs ≤ left c.stream.runs
  current : c.current = some row → c'.current = some row
  caught : Caught row c → Caught row c'

theorem Probed.trans {c c' c'' : TermCursor R} (h : Probed row c c') (h' : Probed row c' c'') :
    Probed row c c'' :=
  ⟨h'.left.trans h.left,fun hc => h'.current (h.current hc),
    fun hc => h'.caught (h.caught hc)⟩

theorem Follows.probed_seek {c : TermCursor R} {t : TermPlan R}
    (h : Follows fields rowCount lengths row c t) : Probed row c (c.seek row) := by
  obtain ⟨hwf,htf,hleft⟩ := h.wf.seek row
  refine ⟨hleft,fun hcurrent => ?_,fun _ => h.caught_seek row⟩
  have hpos : (c.stream.seek row).tf row ≠ 0 := by
    rw [htf,if_neg (lt_irrefl row)]
    exact (h.wf.head_pos row hcurrent).ne'
  obtain ⟨head,hhead,hle⟩ := hwf.head_le hpos
  have hge:=(h.seek le_rfl).head_ge (h.caught_seek row) hhead
  rw [TermCursor.current,TermCursor.seek,TermStream.currentRow,hhead,le_antisymm hle hge]

structure ProbeSpec (fields : List (FieldId × List ℕ)) (rowCount : ℕ) (lengths : List ℕ)
    (plans : List (TermPlan R)) (row : ℕ) (full : Bool) (threshold : R)
    (cursors : List (TermCursor R)) (total : R)
    (result : List (TermCursor R) × Option (List R)) : Prop where
  follows : List.Forall₂ (Follows fields rowCount lengths row) result.1 plans
  probed : List.Forall₂ (fun c' c => Probed row c c') result.1 cursors
  abandoned : result.2 = none → full = true ∧ total < threshold
  scored : ∀ contributions,result.2 = some contributions → contributions.sum = total

theorem scoreAt_le_upperAt (hbounded : ∀ t ∈ plans,t.Bounded lengths) (slot : ℕ) :
    scoreAt lengths plans row slot ≤ upperAt plans slot := by
  unfold scoreAt upperAt
  cases hget : plans[slot]? with
  | none => exact le_rfl
  | some t => exact hbounded t (mem_of_getElem? hget) row

variable [IsOrderedAddMonoid R] in
theorem sum_scoreAt_le (hbounded : ∀ t ∈ plans,t.Bounded lengths) (slots : List ℕ) :
    (slots.map (scoreAt lengths plans row)).sum ≤ (slots.map (upperAt plans)).sum :=
  sum_le_sum fun slot _ => scoreAt_le_upperAt hbounded slot

variable [IsOrderedAddMonoid R] in
theorem probe_spec (hbounded : ∀ t ∈ plans,t.Bounded lengths) {cursors₀ : List (TermCursor R)}
    {slots : List ℕ} {contributions : List R} {running remaining : R}
    (hfollows : List.Forall₂ (Follows fields rowCount lengths row) cursors plans)
    (hprobed : List.Forall₂ (fun c' c => Probed row c c') cursors cursors₀)
    (hlength : contributions.length = plans.length) (hnodup : slots.Nodup)
    (hzero : ∀ slot ∈ slots,contributions[slot]?.getD 0 = 0)
    (hrunning : contributions.sum = running)
    (hremaining : remaining = (slots.map (upperAt plans)).sum) :
    ProbeSpec fields rowCount lengths plans row full threshold cursors₀
      (running+(slots.map (scoreAt lengths plans row)).sum)
      (probe lengths full threshold row slots cursors contributions running remaining) := by
  induction slots generalizing cursors contributions running remaining with
  | nil =>
    refine ⟨hfollows,hprobed,fun h => absurd h (by simp [probe]),fun contributions' h => ?_⟩
    obtain rfl := Option.some.inj h
    rw [hrunning,map_nil,sum_nil,add_zero]
  | cons slot slots ih =>
    rw [nodup_cons] at hnodup
    rw [map_cons,sum_cons] at hremaining
    rw [probe]
    cases hget : cursors[slot]? with
    | none =>
      -- no such slot
      have hplan : plans[slot]? = none := by
        rw [List.getElem?_eq_none_iff,← hfollows.length_eq]
        exact List.getElem?_eq_none_iff.mp hget
      have hupper : upperAt plans slot = 0 := by rw [upperAt,hplan,Option.elim_none]
      have hscore : scoreAt lengths plans row slot = 0 := by rw [scoreAt,hplan,Option.elim_none]
      rw [map_cons,sum_cons,hscore,zero_add]
      refine ih hfollows hprobed hlength hnodup.2 (fun s hs => ?_) hrunning ?_
      · exact hzero s (mem_cons_of_mem _ hs)
      · rw [hremaining,hupper,zero_add]
    | some c =>
      obtain ⟨t,ht,hct⟩ := (forall₂_get hfollows).1 c hget
      obtain ⟨c₀,-,hc₀⟩ := (forall₂_get hprobed).1 c hget
      have hscore : scoreAt lengths plans row slot = t.score lengths row := by
        rw [scoreAt,ht,Option.elim_some]
      have hupper : c.upperBound = upperAt plans slot := by
        rw [upperAt,ht,Option.elim_some,hct.upper]
      have hrest : remaining-c.upperBound = (slots.map (upperAt plans)).sum := by
        rw [hremaining,hupper,add_sub_cancel_left]
      have htail : (slots.map (scoreAt lengths plans row)).sum ≤ (slots.map (upperAt plans)).sum :=
        sum_scoreAt_le hbounded slots
      have hsought : Follows fields rowCount lengths row (c.seek row) t := hct.seek le_rfl
      have hcontribution : (c.seek row).contribution lengths row = t.score lengths row :=
        hsought.contribution le_rfl (hct.caught_seek row)
      have hfollows' : List.Forall₂ (Follows fields rowCount lengths row)
          (cursors.set slot (c.seek row)) plans := by
        refine forall₂_set hfollows fun t' ht' => ?_
        rwa [← Option.some.inj (ht.symm.trans ht')]
      have hprobed' : List.Forall₂ (fun c' c => Probed row c c')
          (cursors.set slot (c.seek row)) cursors₀ := by
        refine forall₂_set hprobed fun c₁ hc₁ => ?_
        obtain ⟨c₂,hc₂,hstep⟩ := (forall₂_get hprobed).2 c₁ hc₁
        obtain rfl := Option.some.inj (hget.symm.trans hc₂)
        exact hstep.trans hct.probed_seek
      simp only
      rw [hrest,hcontribution,map_cons,sum_cons,hscore,← add_assoc]
      split
      · rename_i hskip
        refine ⟨hfollows,hprobed,fun _ => ⟨hskip.1,lt_of_le_of_lt ?_ hskip.2.2⟩,
          fun _ h => by cases h⟩
        have hdominates : t.score lengths row ≤ c.stream.boundFor row c.scorer := by
          rw [TermPlan.score,← hct.tf row le_rfl,← hct.scorer]
          exact hct.wf.boundFor_dominates le_rfl fun e he => (hct.wf.le_boundHorizon he).1
        exact add_le_add (add_le_add_right hdominates _) htail
      · split
        · rename_i hskip
          refine ⟨hfollows',hprobed',fun _ => ⟨hskip.2,lt_of_le_of_lt ?_ hskip.1⟩,
            fun _ h => by cases h⟩
          exact add_le_add_right htail _
        · refine ih hfollows' hprobed' (by rw [length_set,hlength]) hnodup.2
            (fun s hs => ?_) ?_ rfl
          · have hne : slot ≠ s := fun heq => hnodup.1 (heq ▸ hs)
            rw [getElem?_set_ne hne]
            exact hzero s (mem_cons_of_mem _ hs)
          · have hlt : slot < contributions.length := by
              rw [hlength,← hfollows.length_eq]
              exact (List.getElem?_eq_some_iff.mp hget).1
            have hold:=hzero slot mem_cons_self
            rw [getElem?_eq_getElem hlt,Option.getD_some] at hold
            rw [sum_set',dif_pos hlt,hold,hrunning,neg_zero,zero_add]

theorem sum_scoreAt_perm {order : List ℕ} (horder : order.Perm (List.range plans.length)) :
    (order.map (scoreAt lengths plans row)).sum = rowScore lengths plans row := by
  rw [(horder.map _).sum_eq,rowScore,sum_map_eq_range (TermPlan.score lengths row)]
  rfl

end Probe

section Loop
variable {fields : List (FieldId × List ℕ)} {rowCount : ℕ} {lengths : List ℕ}
  {plans : List (TermPlan R)} {segment : ℕ} {allowed : ℕ → Bool} {heap : TopK R} {order : List ℕ}
  {totalBound : R} {state : PruneState R} {bound row : ℕ}

/-- No essential cursor has a row left below `bound`. -/
def EssentialCaught (order : List ℕ) (bound : ℕ) (state : PruneState R) : Prop :=
  ∀ slot ∈ essential state.1 state.2.isFull state.2.threshold 0 order,∀ c,
    state.1[slot]? = some c → Caught bound c

structure MaxscoreAt (fields : List (FieldId × List ℕ)) (rowCount : ℕ) (lengths : List ℕ)
    (plans : List (TermPlan R)) (segment : ℕ) (allowed : ℕ → Bool) (heap : TopK R)
    (order : List ℕ) (state : PruneState R) (bound : ℕ) : Prop where
  follows : List.Forall₂ (Follows fields rowCount lengths bound) state.1 plans
  heap_eq : state.2 = offered lengths segment allowed plans heap bound
  caught : EssentialCaught order bound state

section Candidate

theorem nextCandidate_some {cursors : List (TermCursor R)} {slots : List ℕ}
    (h : nextCandidate cursors slots = some row) :
    (∃ slot ∈ slots,∃ c,cursors[slot]? = some c ∧ c.current = some row) ∧
      ∀ slot ∈ slots,∀ c,cursors[slot]? = some c → ∀ r,c.current = some r → row ≤ r := by
  obtain ⟨horigin,-,hleast⟩ := (foldl_minRow _ none).1 row h
  refine ⟨?_,fun slot hslot c hc r hr => ?_⟩
  · rcases horigin with hnone | hmem
    · cases hnone
    · obtain ⟨slot,hslot,hcurrent⟩ := mem_map.mp hmem
      obtain ⟨c,hc,hrow⟩ := Option.bind_eq_some_iff.mp hcurrent
      exact ⟨slot,hslot,c,hc,hrow⟩
  · exact hleast r (mem_map.mpr ⟨slot,hslot,by rw [hc,Option.bind_some,hr]⟩)

theorem nextCandidate_none {cursors : List (TermCursor R)} {slots : List ℕ}
    (h : nextCandidate cursors slots = none) :
    ∀ slot ∈ slots,∀ c,cursors[slot]? = some c → c.current = none := by
  intro slot hslot c hc
  cases hcurrent : c.current with
  | none => rfl
  | some r =>
    have hmem : some r ∈ slots.map fun slot => cursors[slot]?.bind TermCursor.current :=
      mem_map.mpr ⟨slot,hslot,by rw [hc,Option.bind_some,hcurrent]⟩
    exact absurd hmem (((foldl_minRow _ none).2 h).2 r)

end Candidate

variable [IsOrderedAddMonoid R]
variable (hbounded : ∀ t ∈ plans,t.Bounded lengths) (hbefore : Before segment 0 heap)
  (horder : order.Perm (List.range plans.length))
include hbounded hbefore horder

theorem MaxscoreAt.skip (h : MaxscoreAt fields rowCount lengths plans segment allowed heap order
      state bound) {last : ℕ} (hle : bound ≤ last)
    (hessential : ∀ slot ∈ essential state.1 state.2.isFull state.2.threshold 0 order,∀ c,
      state.1[slot]? = some c → ∀ r,c.current = some r → last ≤ r) :
    offered lengths segment allowed plans heap last = state.2 := by
  obtain ⟨front,hsplit,hsum⟩ :=
    essential_split state.1 state.2.isFull state.2.threshold 0 order
  rw [h.heap_eq]
  refine offered_covered hbounded hbefore hle front ?_ ?_
  · intro r hr hlt i t ht htf
    have hmem : i ∈ order :=
      horder.mem_iff.mpr (mem_range.mpr (List.getElem?_eq_some_iff.mp ht).1)
    rw [hsplit] at hmem
    rcases mem_append.mp hmem with hmem | hmem
    · exact hmem
    · obtain ⟨c,hc,hfollows⟩ := (forall₂_get h.follows).2 t ht
      rw [← hfollows.tf r hr] at htf
      obtain ⟨head,hhead,hhead_le⟩ := hfollows.wf.head_le htf
      have hge:=hessential i hmem c hc head hhead
      omega
  · rw [← h.heap_eq]
    rcases hsum with rfl | ⟨hfull,hsum⟩
    · exact .inl rfl
    · refine .inr ⟨hfull,?_⟩
      rw [zero_add] at hsum
      have hmap : front.map (upperAt plans) = front.map (boundAt state.1) :=
        map_congr_left fun slot _ => (boundAt_eq_upperAt h.follows slot).symm
      rwa [hmap]

theorem maxscoreRow_inv (hranked : heap.Ranked) (htotal : totalBound = (order.map (upperAt plans)).sum)
    (h : MaxscoreAt fields rowCount lengths plans segment allowed heap order state bound)
    (hcandidate : nextCandidate state.1
      (essential state.1 state.2.isFull state.2.threshold 0 order) = some row) :
    MaxscoreAt fields rowCount lengths plans segment allowed heap order
        (maxscoreRow lengths segment allowed order totalBound state row) (row+1) ∧
      cursorsLeft (maxscoreRow lengths segment allowed order totalBound state row).1 <
        cursorsLeft state.1 := by
  obtain ⟨⟨slot₀,hslot₀,c₀,hc₀,hcurrent₀⟩,hleast⟩ := nextCandidate_some hcandidate
  obtain ⟨t₀,ht₀,hfollows₀⟩ := (forall₂_get h.follows).1 c₀ hc₀
  have hbound : bound ≤ row := hfollows₀.head_ge (h.caught slot₀ hslot₀ c₀ hc₀) hcurrent₀
  have hskip : offered lengths segment allowed plans heap row = state.2 :=
    h.skip hbounded hbefore horder hbound hleast
  have hmatch : matchesRow plans row = true := by
    have htf : t₀.tf row ≠ 0 := by
      rw [← hfollows₀.tf row hbound]
      exact (hfollows₀.wf.head_pos row hcurrent₀).ne'
    exact any_eq_true.mpr ⟨t₀,mem_of_getElem? ht₀,by simpa using htf⟩
  have hspec : ProbeSpec fields rowCount lengths plans row state.2.isFull state.2.threshold state.1
      (0+(order.reverse.map (scoreAt lengths plans row)).sum)
      (probe lengths state.2.isFull state.2.threshold row order.reverse state.1
        (List.replicate state.1.length 0) 0 totalBound) := by
    refine probe_spec hbounded (h.follows.imp fun c t hct => hct.mono hbound) ?_ ?_ ?_ ?_ ?_ ?_
    · exact forall₂_same.mpr fun c _ => ⟨le_rfl,id,id⟩
    · rw [length_replicate,h.follows.length_eq]
    · exact nodup_reverse.mpr (horder.nodup_iff.mpr nodup_range)
    · intro slot _
      rw [getElem?_replicate]
      split <;> rfl
    · simp
    · rw [htotal,((reverse_perm order).map _).sum_eq]
  rw [zero_add,((reverse_perm order).map _).sum_eq,sum_scoreAt_perm horder] at hspec
  have hranked' : state.2.Ranked := h.heap_eq ▸ hranked.offered bound
  unfold maxscoreRow
  generalize probe lengths state.2.isFull state.2.threshold row order.reverse state.1
    (List.replicate state.1.length 0) 0 totalBound = result at hspec
  obtain ⟨cursors,contributions⟩ := result
  have hfollows : List.Forall₂ (Follows fields rowCount lengths (row+1))
      (cursors.map (TermCursor.advanceFrom row)) plans := by
    rw [forall₂_map_left_iff]
    exact hspec.follows.imp fun c t hct => hct.advanceFrom (Nat.le_succ row)
  have hheap : contributions.elim state.2 (fun contributions =>
      offerRow segment allowed state.2 row contributions.sum) =
      offerRow segment allowed state.2 row (rowScore lengths plans row) := by
    cases hcontributions : contributions with
    | none =>
      obtain ⟨hfull,hlow⟩ := hspec.abandoned hcontributions
      have hearlier : Before segment row (offered lengths segment allowed plans heap row) :=
        hbefore.offered
      rw [hskip] at hearlier
      exact (offerRow_of_le hearlier hfull hlow.le).symm
    | some contributions =>
      rw [Option.elim_some,hspec.scored contributions hcontributions]
  simp only
  rw [hheap]
  refine ⟨⟨hfollows,by rw [offered_succ,if_pos hmatch,hskip],?_⟩,?_⟩
  · intro slot hslot c' hc'
    have hbounds : ∀ slot,boundAt (cursors.map (TermCursor.advanceFrom row)) slot =
        boundAt state.1 slot := fun slot => by
      rw [boundAt_eq_upperAt hfollows,boundAt_eq_upperAt h.follows]
    simp only at hslot hc'
    rw [essential_congr hbounds] at hslot
    have hstill:=essential_subset (fun hfull => hranked'.full_offerRow hfull) 0 order hslot
    rw [getElem?_map] at hc'
    obtain ⟨c,hc,rfl⟩ := Option.map_eq_some_iff.mp hc'
    obtain ⟨t,-,hct⟩ := (forall₂_get hspec.follows).1 c hc
    obtain ⟨cOld,hcOld,hprobed⟩ := (forall₂_get hspec.probed).1 c hc
    obtain ⟨tOld,-,hctOld⟩ := (forall₂_get h.follows).1 cOld hcOld
    refine hct.caught_advanceFrom (hprobed.caught ?_)
    exact hctOld.caught_of_head (hleast slot hstill cOld hcOld)
  · have hadvanced : cursorsLeft (cursors.map (TermCursor.advanceFrom row)) <
        cursorsLeft cursors := by
      obtain ⟨c,hc,hprobed⟩ := (forall₂_get hspec.probed).2 c₀ hc₀
      obtain ⟨t,-,hct⟩ := (forall₂_get hspec.follows).1 c hc
      have hcurrent:=hprobed.current hcurrent₀
      unfold cursorsLeft
      rw [map_map]
      refine sum_lt_sum _ _ (fun c hc => ?_) ⟨c,mem_of_getElem? hc,?_⟩
      · obtain ⟨i,hi⟩ := getElem?_of_mem hc
        obtain ⟨t,-,hct⟩ := (forall₂_get hspec.follows).1 c hi
        exact left_advanceFrom_le hct row
      · rw [Function.comp_apply,TermCursor.advanceFrom,if_pos hcurrent]
        exact (hct.wf.advance hcurrent).2.2
    have hprobed : cursorsLeft cursors ≤ cursorsLeft state.1 := by
      refine List.Forall₂.sum_le_sum ?_
      rw [forall₂_map_left_iff,forall₂_map_right_iff]
      exact hspec.probed.imp fun c' c hc => hc.left
    exact hadvanced.trans_le hprobed

theorem maxscoreStep_next (hranked : heap.Ranked)
    (htotal : totalBound = (order.map (upperAt plans)).sum) {next : PruneState R}
    (h : ∃ bound,MaxscoreAt fields rowCount lengths plans segment allowed heap order state bound)
    (hstep : maxscoreStep lengths segment allowed order totalBound state = .next next) :
    (∃ bound,MaxscoreAt fields rowCount lengths plans segment allowed heap order next bound) ∧
      cursorsLeft next.1 < cursorsLeft state.1 := by
  obtain ⟨bound,h⟩ := h
  unfold maxscoreStep at hstep
  split at hstep
  · cases hstep
  · rename_i row hcandidate
    obtain ⟨hinv,hleft⟩ :=
      maxscoreRow_inv hbounded hbefore horder hranked htotal h hcandidate
    split at hstep
    · cases hstep
    · obtain rfl := Flow.next.inj hstep
      exact ⟨⟨row+1,hinv⟩,hleft⟩

theorem maxscoreStep_stop (hranked : heap.Ranked)
    (htotal : totalBound = (order.map (upperAt plans)).sum) {last : PruneState R}
    (h : ∃ bound,MaxscoreAt fields rowCount lengths plans segment allowed heap order state bound)
    (hstep : maxscoreStep lengths segment allowed order totalBound state = .stop last) :
    ∃ bound,last.2 = offered lengths segment allowed plans heap bound ∧
      ∀ row,bound ≤ row → offered lengths segment allowed plans heap row = last.2 := by
  obtain ⟨bound,h⟩ := h
  unfold maxscoreStep at hstep
  split at hstep
  · rename_i hnone
    obtain rfl := Flow.stop.inj hstep
    refine ⟨bound,h.heap_eq,fun row hrow => ?_⟩
    refine h.skip hbounded hbefore horder hrow fun slot hslot c hc r hr => ?_
    rw [nextCandidate_none hnone slot hslot c hc] at hr
    cases hr
  · rename_i row hcandidate
    obtain ⟨hinv,-⟩ := maxscoreRow_inv hbounded hbefore horder hranked htotal h hcandidate
    split at hstep
    · rename_i hexhausted
      obtain rfl := Flow.stop.inj hstep
      refine ⟨row+1,hinv.heap_eq,fun r hr => ?_⟩
      refine hinv.skip hbounded hbefore horder hr fun slot _ c hc r' hr' => ?_
      have hend:=all_eq_true.mp hexhausted c (mem_of_getElem? hc)
      have hnone : c.stream.head = none := by simpa [TermStream.exhausted] using hend
      rw [TermCursor.current,TermStream.currentRow,hnone] at hr'
      cases hr'
    · cases hstep

end Loop

end Zeppelin.Fts
