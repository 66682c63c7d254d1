import Mathlib.Data.Multiset.Sort
import Mathlib.Data.Prod.Lex
import Zeppelin.Machine.Except

/-! scan/topk.rs: Scores have any linear order, and a heap is the list of its elements, the worst
first. -/

namespace Zeppelin.Scan
open List

structure ScanCandidate (S : Type) where
  rowId : ℕ
  score : S
  deriving DecidableEq

section Order
variable {S : Type} [LinearOrder S]

instance : LinearOrder (ScanCandidate S) :=
  LinearOrder.lift' (fun c => toLex (OrderDual.toDual c.score,c.rowId)) (by
    intro a b h
    obtain ⟨hscore,hrow⟩ := Prod.mk.inj (toLex.injective h)
    cases a
    cases b
    exact congrArg₂ _ hrow (OrderDual.toDual.injective hscore))

theorem before_iff {a b : ScanCandidate S} :
    a ≤ b ↔ b.score < a.score ∨ a.score = b.score ∧ a.rowId ≤ b.rowId := by
  rw [← OrderDual.toDual_lt_toDual,← OrderDual.toDual.injective.eq_iff]
  exact Prod.Lex.toLex_le_toLex

theorem score_le_of_before {a b : ScanCandidate S} (h : a ≤ b) : b.score ≤ a.score := by
  rcases before_iff.mp h with h | h
  · exact h.le
  · exact h.1.ge

def best (k : ℕ) (entries : Multiset (ScanCandidate S)) : List (ScanCandidate S) :=
  (entries.sort (· ≤ ·)).take k

/-- Fewer than `k` entries have a higher score. -/
def Within (k : ℕ) (entries : Multiset (ScanCandidate S)) (c : ScanCandidate S) : Prop :=
  (entries.filter fun other => c.score < other.score).card < k

instance (k : ℕ) (entries : Multiset (ScanCandidate S)) : DecidablePred (Within k entries) :=
  fun _ => inferInstanceAs (Decidable (_ < _))

def bestWithTies (k : ℕ) (entries : Multiset (ScanCandidate S)) : List (ScanCandidate S) :=
  (entries.filter (Within k entries)).sort (· ≤ ·)

variable {entries : Multiset (ScanCandidate S)} {k : ℕ}

theorem within_of_card_le (h : entries.card ≤ k) {c : ScanCandidate S} (hc : c ∈ entries) :
    Within k entries c := by
  apply lt_of_lt_of_le _ h
  apply Multiset.card_lt_card
  apply lt_of_le_of_ne (Multiset.filter_le _ _)
  intro heq
  rw [Multiset.filter_eq_self] at heq
  exact lt_irrefl _ (heq c hc)

/-- With `k` entries in front, none of them below `score`, and the others not above it. -/
theorem within_iff {front rest : Multiset (ScanCandidate S)} {worst : ScanCandidate S}
    (hworst : worst ∈ front) (hfront : ∀ a ∈ front,worst.score ≤ a.score)
    (hrest : ∀ b ∈ rest,b.score ≤ worst.score) (c : ScanCandidate S) :
    Within front.card (front+rest) c ↔ worst.score ≤ c.score := by
  rw [Within,Multiset.filter_add,Multiset.card_add]
  constructor
  · intro hlt
    by_contra hbelow
    have hall : front.filter (fun other => c.score < other.score) = front :=
      Multiset.filter_eq_self.mpr fun a ha => (not_le.mp hbelow).trans_le (hfront a ha)
    rw [hall] at hlt
    omega
  · intro hscore
    have hnone : rest.filter (fun other => c.score < other.score) = 0 :=
      Multiset.filter_eq_nil.mpr fun b hb => ((hrest b hb).trans hscore).not_gt
    have hsome : (front.filter fun other => c.score < other.score).card < front.card := by
      apply Multiset.card_lt_card
      apply lt_of_le_of_ne (Multiset.filter_le _ _)
      intro heq
      rw [Multiset.filter_eq_self] at heq
      exact (heq worst hworst).not_ge hscore
    rw [hnone,Multiset.card_zero]
    omega

theorem bestWithTies_eq (h : entries.card ≤ k) : bestWithTies k entries = entries.sort (· ≤ ·) :=
  congrArg (Multiset.sort · _) (Multiset.filter_eq_self.mpr fun _ => within_of_card_le h)

theorem bestWithTies_zero : bestWithTies 0 entries = [] := by
  have hnone : entries.filter (Within 0 entries) = 0 :=
    Multiset.filter_eq_nil.mpr fun c _ => Nat.not_lt_zero _
  rw [bestWithTies,hnone,Multiset.sort_zero]

/-- The entries cut in two at position `k` of their order. -/
theorem exists_cut (h : k < entries.card) : ∃ (front : Multiset (ScanCandidate S)) (rest : _)
    (worst : ScanCandidate S),entries = front+rest ∧ front.card = k+1 ∧ worst ∈ front ∧
      (entries.sort (· ≤ ·))[k]? = some worst ∧ (∀ a ∈ front,worst.score ≤ a.score) ∧
      ∀ b ∈ rest,b.score ≤ worst.score := by
  have hlen : k < (entries.sort (· ≤ ·)).length := by rwa [Multiset.length_sort]
  have hsorted:=(Multiset.pairwise_sort entries (· ≤ ·)).sortedLE
  refine ⟨(entries.sort (· ≤ ·)).take (k+1),(entries.sort (· ≤ ·)).drop (k+1),
    (entries.sort (· ≤ ·))[k],?_,?_,?_,getElem?_eq_getElem hlen,?_,?_⟩
  · rw [Multiset.coe_add,take_append_drop,Multiset.sort_eq]
  · rw [Multiset.coe_card,length_take]
    omega
  · exact Multiset.mem_coe.mpr (mem_take_iff_getElem.mpr ⟨k,by omega,rfl⟩)
  · intro a ha
    obtain ⟨i,hi,rfl⟩ := mem_take_iff_getElem.mp (Multiset.mem_coe.mp ha)
    exact score_le_of_before (hsorted.getElem_le_getElem_of_le (by omega))
  · intro b hb
    obtain ⟨i,hi,rfl⟩ := mem_drop_iff_getElem.mp (Multiset.mem_coe.mp hb)
    exact score_le_of_before (hsorted.getElem_le_getElem_of_le (by omega))

theorem sort_add {kept dropped : Multiset (ScanCandidate S)}
    (h : ∀ a ∈ kept,∀ d ∈ dropped,d.score < a.score) :
    (kept+dropped).sort (· ≤ ·) = kept.sort (· ≤ ·)++dropped.sort (· ≤ ·) := by
  apply List.Perm.eq_of_sortedLE
  · exact (Multiset.pairwise_sort _ _).sortedLE
  · rw [sortedLE_iff_pairwise,pairwise_append]
    refine ⟨Multiset.pairwise_sort _ _,Multiset.pairwise_sort _ _,?_⟩
    intro a ha d hd
    rw [Multiset.mem_sort] at ha hd
    exact before_iff.mpr (.inl (h a ha d hd))
  · rw [← Multiset.coe_eq_coe,← Multiset.coe_add]
    simp only [Multiset.sort_eq]

theorem bestWithTies_cut {front rest : Multiset (ScanCandidate S)} {worst : ScanCandidate S}
    (hworst : worst ∈ front) (hfront : ∀ a ∈ front,worst.score ≤ a.score)
    (hrest : ∀ b ∈ rest,b.score ≤ worst.score) : bestWithTies front.card (front+rest) =
      (front+rest.filter fun b => worst.score ≤ b.score).sort (· ≤ ·) := by
  have hiff:=within_iff hworst hfront hrest
  rw [bestWithTies,Multiset.filter_add,
    Multiset.filter_eq_self.mpr fun a ha => (hiff a).mpr (hfront a ha),
    Multiset.filter_congr fun b _ => hiff b]

theorem take_bestWithTies (k : ℕ) (entries : Multiset (ScanCandidate S)) :
    (bestWithTies k entries).take k = best k entries := by
  rcases Nat.lt_or_ge k entries.card with hlt | hle
  · cases k with
    | zero => rw [take_zero,best,take_zero]
    | succ k =>
      obtain ⟨front,rest,worst,rfl,hcard,hworst,-,hfront,hrest⟩ :=
        exists_cut (Nat.lt_of_succ_lt hlt)
      have hiff:=within_iff hworst hfront hrest
      rw [← hcard,bestWithTies,best]
      have hall : front ≤ (front+rest).filter (Within front.card (front+rest)) :=
        Multiset.le_filter.mpr ⟨Multiset.le_add_right front rest,
          fun a ha => (hiff a).mpr (hfront a ha)⟩
      nth_rewrite 4 [← Multiset.filter_add_not (Within front.card (front+rest)) (front+rest)]
      rw [sort_add,take_append_of_le_length]
      · rw [Multiset.length_sort]
        exact Multiset.card_le_card hall
      · intro a ha d hd
        have habove:=(hiff a).mp (Multiset.of_mem_filter ha)
        have hbelow:=fun h => Multiset.of_mem_filter hd ((hiff d).mpr h)
        exact (not_le.mp hbelow).trans_le habove
  · rw [bestWithTies_eq hle,best]

end Order

section Collect
variable {S : Type} [LinearOrder S] {ε : Type}

structure BoundedTopK (S : Type) where
  limit : ℕ
  heap : List (ScanCandidate S)
  boundary : List (ScanCandidate S)

def BoundedTopK.new (limit : ℕ) : BoundedTopK S := ⟨limit,[],[]⟩

/-- `BinaryHeap::push` -/
def heapPush (c : ScanCandidate S) (heap : List (ScanCandidate S)) : List (ScanCandidate S) :=
  heap.orderedInsert (· ≥ ·) c

abbrev Reserve (S ε : Type) := List (ScanCandidate S) → Except ε Unit

def pushTied (reserve : Reserve S ε) (c : ScanCandidate S) (boundary : List (ScanCandidate S)) :
    Except ε (List (ScanCandidate S)) := do
  reserve boundary
  return boundary++[c]

/-- The boundary once `evicted` has left the heap and its worst score is `score`. -/
def retainTied (reserve : Reserve S ε) (evicted : ScanCandidate S) (score : S)
    (boundary : List (ScanCandidate S)) : Except ε (List (ScanCandidate S)) := do
  let boundary ← (if evicted.score = score then pushTied reserve evicted boundary
    else .ok boundary)
  return boundary.filter fun tied => tied.score = score

def BoundedTopK.evict (reserve : Reserve S ε) (top : BoundedTopK S)
    (evicted : ScanCandidate S) (heap : List (ScanCandidate S)) : Except ε (BoundedTopK S) :=
  match heap with
  | [] => .ok ⟨top.limit,heap,[]⟩
  | worst::_ => do return ⟨top.limit,heap,← retainTied reserve evicted worst.score top.boundary⟩

def BoundedTopK.pushWithReserve (reserve : Reserve S ε) (top : BoundedTopK S)
    (c : ScanCandidate S) : Except ε (BoundedTopK S) :=
  if top.limit = 0 then .ok top
  else if top.heap.length < top.limit then .ok { top with heap := heapPush c top.heap }
  else match top.heap with
    | [] => .ok { top with heap := heapPush c [] }
    | worst::rest =>
      if c.score < worst.score then .ok top
      else if c.score = worst.score then do
        let boundary ← pushTied reserve c top.boundary
        return { top with boundary := boundary }
      else top.evict reserve worst (heapPush c rest)

def sortCandidates (candidates : List (ScanCandidate S)) : List (ScanCandidate S) :=
  candidates.mergeSort fun a b => a ≤ b

def BoundedTopK.intoSortedWithTies (top : BoundedTopK S) : List (ScanCandidate S) :=
  sortCandidates (top.heap++top.boundary)

def BoundedTopK.intoSorted (top : BoundedTopK S) : List (ScanCandidate S) :=
  top.intoSortedWithTies.take top.limit

inductive ExactTopK (S : Type) where
  | heap (top : BoundedTopK S)
  | unordered (limit capacity : ℕ) (candidates : List (ScanCandidate S))

def ExactTopK.new (limit eligible : ℕ) : ExactTopK S :=
  let limit:=min limit eligible
  if eligible ≤ limit*2 then .unordered limit eligible [] else .heap (BoundedTopK.new limit)

/-- `full` is the error of a push into a buffer without room. -/
def ExactTopK.tryPush (full : ε) (reserve : Reserve S ε) (c : ScanCandidate S) :
    ExactTopK S → Except ε (ExactTopK S)
  | .heap top => do return .heap (← top.pushWithReserve reserve c)
  | .unordered limit capacity candidates =>
    if candidates.length = capacity then .error full
    else .ok (.unordered limit capacity (candidates++[c]))

/-- The score that `select_nth_unstable_by` puts at a position. -/
def scoreAt (candidates : List (ScanCandidate S)) (position : ℕ) : Option S :=
  (sortCandidates candidates)[position]?.map ScanCandidate.score

def ExactTopK.intoSortedWithTies : ExactTopK S → List (ScanCandidate S)
  | .heap top => top.intoSortedWithTies
  | .unordered limit _ candidates =>
    sortCandidates (if limit = 0 then []
      else if limit < candidates.length then candidates.filter fun c =>
        (scoreAt candidates (limit-1)).all fun score => score ≤ c.score
      else candidates)

theorem sortCandidates_eq (candidates : List (ScanCandidate S)) :
    sortCandidates candidates = (candidates : Multiset (ScanCandidate S)).sort (· ≤ ·) :=
  (Multiset.coe_sort _ _).symm

structure Holds (top : BoundedTopK S) (entries : Multiset (ScanCandidate S)) : Prop where
  sorted : top.heap.Pairwise (· ≥ ·)
  length : top.heap.length = min top.limit entries.card
  split : ∃ dropped : Multiset (ScanCandidate S),entries = top.heap+(top.boundary+dropped) ∧
    (∀ b ∈ top.boundary,∃ worst ∈ top.heap.head?,b.score = worst.score) ∧
    ∀ d ∈ dropped,∀ worst ∈ top.heap.head?,d.score < worst.score

theorem heapPush_spec (c : ScanCandidate S) {heap : List (ScanCandidate S)}
    (h : heap.Pairwise (· ≥ ·)) : (heapPush c heap).Pairwise (· ≥ ·) ∧
      (heapPush c heap : Multiset (ScanCandidate S)) = c ::ₘ heap ∧
      (heapPush c heap).length = heap.length+1 :=
  ⟨h.orderedInsert c _,Multiset.coe_eq_coe.mpr (perm_orderedInsert _ c heap),
    orderedInsert_length _ heap c⟩

theorem retainTied_spec {reserve : Reserve S ε} {evicted : ScanCandidate S} {score : S}
    {boundary boundary' : List (ScanCandidate S)}
    (htied : ∀ b ∈ boundary,b.score = evicted.score)
    (h : retainTied reserve evicted score boundary = .ok boundary') :
    boundary' = if evicted.score = score then boundary++[evicted] else [] := by
  obtain ⟨extended,hextended,rfl⟩ := bind_pure_eq_ok h
  split at hextended
  · rename_i heq
    obtain ⟨_,-,rfl⟩ := bind_pure_eq_ok hextended
    rw [if_pos heq,filter_eq_self]
    intro b hb
    rcases mem_append.mp hb with hb | hb
    · exact decide_eq_true ((htied b hb).trans heq)
    · exact decide_eq_true (mem_singleton.mp hb ▸ heq)
  · rename_i hne
    obtain rfl := Except.ok.inj hextended
    rw [if_neg hne,filter_eq_nil_iff]
    intro b hb
    rw [htied b hb,decide_eq_true_iff]
    exact hne

omit [LinearOrder S] in
theorem coe_append_single (boundary : List (ScanCandidate S)) (c : ScanCandidate S) :
    ((boundary++[c] : List _) : Multiset (ScanCandidate S)) = c ::ₘ boundary :=
  Multiset.coe_eq_coe.mpr (perm_append_singleton c boundary)

variable {top top' : BoundedTopK S} {entries : Multiset (ScanCandidate S)}

theorem Holds.room (h : Holds top entries) (hroom : top.heap.length < top.limit) :
    top.boundary = [] ∧ entries = top.heap := by
  obtain ⟨dropped,hsplit,-⟩ := h.split
  have hlen:=h.length
  have hcard : entries.card = top.heap.length+(top.boundary.length+dropped.card) := by
    rw [hsplit,Multiset.card_add,Multiset.card_add,Multiset.coe_card,Multiset.coe_card]
  have hboundary : top.boundary = [] := length_eq_zero_iff.mp (by omega)
  have hdropped : dropped = 0 := Multiset.card_eq_zero.mp (by omega)
  refine ⟨hboundary,?_⟩
  rw [hsplit,hboundary,hdropped]
  exact Multiset.add_zero _

theorem Holds.of_room {heap : List (ScanCandidate S)} {limit : ℕ}
    (hsorted : heap.Pairwise (· ≥ ·)) (hroom : heap.length ≤ limit) :
    Holds ⟨limit,heap,[]⟩ heap where
  sorted := hsorted
  length := (Nat.min_eq_right hroom).symm
  split := by
    refine ⟨0,(Multiset.add_zero _).symm,fun _ h => ?_,fun _ h => ?_⟩
    · cases h
    · cases h

theorem Holds.new (limit : ℕ) : Holds (BoundedTopK.new limit : BoundedTopK S) 0 :=
  Holds.of_room List.Pairwise.nil (Nat.zero_le limit)

variable {limit : ℕ} {worst : ScanCandidate S} {heap rest boundary : List (ScanCandidate S)}

structure Full (limit : ℕ) (worst : ScanCandidate S) (heap boundary : List (ScanCandidate S))
    (dropped : Multiset (ScanCandidate S)) : Prop where
  length : heap.length = limit
  worst_mem : worst ∈ heap.head?
  sorted : heap.Pairwise (· ≥ ·)
  tied : ∀ b ∈ boundary,b.score = worst.score
  lower : ∀ d ∈ dropped,d.score < worst.score

theorem Full.holds {dropped : Multiset (ScanCandidate S)}
    (h : Full limit worst heap boundary dropped) (hentries : entries = heap+(boundary+dropped)) :
    Holds ⟨limit,heap,boundary⟩ entries where
  sorted := h.sorted
  length := by
    rw [hentries,Multiset.card_add,Multiset.coe_card,h.length]
    exact (Nat.min_eq_left (Nat.le_add_right _ _)).symm
  split := by
    refine ⟨dropped,hentries,fun b hb => ⟨worst,h.worst_mem,h.tied b hb⟩,fun d hd w hw => ?_⟩
    · rw [Option.mem_unique hw h.worst_mem]
      exact h.lower d hd

theorem Holds.full (h : Holds ⟨limit,worst::rest,boundary⟩ entries)
    (hfull : limit ≤ rest.length+1) : ∃ dropped,
      Full limit worst (worst::rest) boundary dropped ∧
        entries = (worst::rest : List _)+(boundary+dropped) := by
  have hlen : rest.length+1 = min limit entries.card := h.length
  obtain ⟨dropped,hsplit,htied,hlower⟩ := h.split
  have hcard : entries.card = rest.length+1+_ :=
    (congrArg Multiset.card hsplit).trans (Multiset.card_add _ _)
  refine ⟨dropped,⟨?_,rfl,h.sorted,fun b hb => ?_,fun d hd => hlower d hd worst rfl⟩,hsplit⟩
  swap
  · obtain ⟨_,hw,heq⟩ := htied b hb
    exact Option.mem_some_iff.mp hw ▸ heq
  rw [length_cons,hlen]
  exact Nat.min_eq_left (by omega)

variable {dropped : Multiset (ScanCandidate S)} {reserve : Reserve S ε} {c : ScanCandidate S}

/-- The worst entry gives way: it stays as a tie, or it falls below with all its ties. -/
theorem Full.evict (h : Full limit worst (worst::rest) boundary dropped)
    (hscore : worst.score < c.score) {next : BoundedTopK S}
    (hevict : BoundedTopK.evict reserve ⟨limit,worst::rest,boundary⟩ worst (heapPush c rest) =
      .ok next) :
    Holds next (c ::ₘ ((worst::rest : List _)+(boundary+dropped))) ∧ next.limit = limit := by
  have hsorted:=pairwise_cons.mp h.sorted
  obtain ⟨hpushed,hcoe,hlength⟩ := heapPush_spec c hsorted.2
  unfold BoundedTopK.evict at hevict
  split at hevict
  · rename_i hnil
    rw [hnil] at hlength
    cases hlength
  rename_i worst' rest' hheap
  obtain ⟨boundary',hretain,rfl⟩ := bind_pure_eq_ok hevict
  have hmem : worst' ∈ c ::ₘ (rest : Multiset (ScanCandidate S)) := by
    rw [← hcoe,hheap]
    exact mem_cons_self
  have hworst : worst.score ≤ worst'.score := by
    rcases Multiset.mem_cons.mp hmem with rfl | hmem
    · exact hscore.le
    · exact score_le_of_before (hsorted.1 worst' hmem)
  have hentries : c ::ₘ (((worst::rest : List _) : Multiset (ScanCandidate S))+
      (boundary+dropped)) = (heapPush c rest : Multiset _)+(worst ::ₘ (boundary+dropped)) := by
    rw [hcoe,← Multiset.cons_coe]
    simp only [Multiset.cons_add,Multiset.add_cons]
    exact Multiset.cons_swap _ _ _
  have hfull : (heapPush c rest).length = limit := hlength.trans h.length
  have hlast : worst' ∈ (heapPush c rest).head? := by
    rw [hheap]
    rfl
  rw [hentries]
  refine ⟨?_,rfl⟩
  rw [retainTied_spec h.tied hretain]
  split
  · rename_i heq
    have hnext : Full limit worst' (heapPush c rest) (boundary++[worst]) dropped := by
      refine ⟨hfull,hlast,hpushed,fun b hb => ?_,fun d hd => heq ▸ h.lower d hd⟩
      rcases mem_append.mp hb with hb | hb
      · exact (h.tied b hb).trans heq
      · exact mem_singleton.mp hb ▸ heq
    apply hnext.holds
    rw [coe_append_single,Multiset.cons_add]
  · rename_i hne
    have hlt : worst.score < worst'.score := lt_of_le_of_ne hworst hne
    have hnext : Full limit worst' (heapPush c rest) [] (worst ::ₘ (boundary+dropped)) := by
      refine ⟨hfull,hlast,hpushed,fun _ hb => absurd hb not_mem_nil,fun d hd => ?_⟩
      rcases Multiset.mem_cons.mp hd with rfl | hd
      · exact hlt
      · rcases Multiset.mem_add.mp hd with hd | hd
        · exact (h.tied d hd).trans_lt hlt
        · exact (h.lower d hd).trans hlt
    apply hnext.holds
    rw [Multiset.coe_nil,Multiset.zero_add]

theorem Holds.push (h : Holds top entries) (hpush : top.pushWithReserve reserve c = .ok top') :
    Holds top' (c ::ₘ entries) ∧ top'.limit = top.limit := by
  obtain ⟨limit,heap,boundary⟩ := top
  rw [BoundedTopK.pushWithReserve] at hpush
  split at hpush
  · -- nothing is kept
    rename_i hzero
    obtain rfl : limit = 0 := hzero
    obtain rfl := Except.ok.inj hpush
    have hlen : heap.length = min 0 _ := h.length
    obtain rfl : heap = [] := length_eq_zero_iff.mp (hlen.trans (Nat.zero_min _))
    obtain ⟨dropped,rfl,htied,-⟩ := h.split
    refine ⟨⟨h.sorted,(Nat.zero_min _).symm,c ::ₘ dropped,?_,htied,?_⟩,rfl⟩
    · simp only [Multiset.add_cons]
    · intro _ _ _ hworst
      cases hworst
  split at hpush
  · rename_i hroom
    obtain rfl := Except.ok.inj hpush
    obtain ⟨rfl,rfl⟩ := h.room hroom
    obtain ⟨hsorted,hcoe,hlength⟩ := heapPush_spec c h.sorted
    rw [← hcoe]
    exact ⟨Holds.of_room hsorted (hlength.trans_le hroom),rfl⟩
  rename_i hpos hfull
  cases heap with
  | nil => exact absurd (Nat.pos_of_ne_zero hpos) hfull
  | cons worst rest =>
    obtain ⟨dropped,hsplit,rfl⟩ := h.full (Nat.le_of_not_lt hfull)
    simp only at hpush
    split at hpush
    · rename_i hlower
      obtain rfl := Except.ok.inj hpush
      have hnext : Full limit worst (worst::rest) boundary (c ::ₘ dropped) :=
        { hsplit with lower := fun d hd =>
            (Multiset.mem_cons.mp hd).elim (· ▸ hlower) (hsplit.lower d) }
      exact ⟨hnext.holds (by simp only [Multiset.add_cons]),rfl⟩
    split at hpush
    · rename_i htied
      obtain ⟨boundary',hreserve,hpush⟩ := bind_eq_ok hpush
      obtain ⟨_,-,rfl⟩ := bind_pure_eq_ok hreserve
      obtain rfl := Except.ok.inj hpush
      have hnext : Full limit worst (worst::rest) (boundary++[c]) dropped :=
        { hsplit with tied := fun b hb => (mem_append.mp hb).elim (hsplit.tied b) fun hc =>
            mem_singleton.mp hc ▸ htied }
      refine ⟨hnext.holds ?_,rfl⟩
      rw [coe_append_single,Multiset.cons_add,Multiset.add_cons]
    · rename_i hlower hne
      exact hsplit.evict (lt_of_le_of_ne (not_lt.mp hlower) (Ne.symm hne)) hpush

theorem Holds.intoSortedWithTies (h : Holds top entries) :
    top.intoSortedWithTies = bestWithTies top.limit entries := by
  obtain ⟨limit,heap,boundary⟩ := top
  rw [BoundedTopK.intoSortedWithTies,sortCandidates_eq,← Multiset.coe_add]
  rcases Nat.lt_or_ge heap.length limit with hroom | hfull
  · obtain ⟨rfl,rfl⟩ := h.room hroom
    rw [Multiset.coe_nil,Multiset.add_zero]
    exact (bestWithTies_eq hroom.le).symm
  cases heap with
  | nil =>
    obtain rfl : limit = 0 := Nat.le_zero.mp hfull
    obtain ⟨_,-,htied,-⟩ := h.split
    have hnil : boundary = [] := eq_nil_iff_forall_not_mem.mpr fun b hb => by
      obtain ⟨_,hw,-⟩ := htied b hb
      cases hw
    rw [hnil,bestWithTies_zero]
    exact Multiset.sort_zero _
  | cons worst rest =>
    obtain ⟨dropped,hsplit,rfl⟩ := h.full hfull
    have hfront : ∀ a ∈ ((worst::rest : List _) : Multiset (ScanCandidate S)),
        worst.score ≤ a.score := by
      intro a ha
      rcases mem_cons.mp (Multiset.mem_coe.mp ha) with rfl | ha
      · exact le_rfl
      · exact score_le_of_before ((pairwise_cons.mp hsplit.sorted).1 a ha)
    have hrest : ∀ b ∈ (boundary : Multiset (ScanCandidate S))+dropped,
        b.score ≤ worst.score := by
      intro b hb
      rcases Multiset.mem_add.mp hb with hb | hb
      · exact (hsplit.tied b hb).le
      · exact (hsplit.lower b hb).le
    have hcut:=bestWithTies_cut mem_cons_self hfront hrest
    rw [Multiset.coe_card,hsplit.length] at hcut
    rw [hcut,Multiset.filter_add,Multiset.filter_eq_self.mpr fun b hb => (hsplit.tied b hb).ge,
      Multiset.filter_eq_nil.mpr fun d hd => (hsplit.lower d hd).not_ge,Multiset.add_zero]

theorem unordered_intoSortedWithTies (limit capacity : ℕ) (candidates : List (ScanCandidate S)) :
    (ExactTopK.unordered limit capacity candidates).intoSortedWithTies =
      bestWithTies limit candidates := by
  rw [ExactTopK.intoSortedWithTies,sortCandidates_eq]
  split
  · rename_i hzero
    rw [hzero,bestWithTies_zero]
    exact Multiset.sort_zero _
  rename_i hpos
  split
  · rename_i hlimit
    have hlt : limit-1 < (candidates : Multiset (ScanCandidate S)).card :=
      (Nat.sub_le limit 1).trans_lt hlimit
    obtain ⟨front,rest,worst,hsplit,hcard,hworst,hat,hfront,hrest⟩ := exists_cut hlt
    have hscore : scoreAt candidates (limit-1) = some worst.score := by
      rw [scoreAt,sortCandidates_eq,hat]
      rfl
    have hk : front.card = limit := by omega
    have hiff:=within_iff hworst hfront hrest
    rw [hk,← hsplit] at hiff
    rw [bestWithTies,Multiset.filter_coe,hscore]
    have hsame : candidates.filter (fun c => Within limit candidates c) =
        candidates.filter fun c => worst.score ≤ c.score :=
      filter_congr fun c _ => decide_eq_decide.mpr (hiff c)
    rw [hsame]
    rfl
  · rename_i hfits
    exact (bestWithTies_eq (Nat.le_of_not_lt hfits)).symm

abbrev Pushes (S ε : Type) := List (ScanCandidate S × Reserve S ε)

def BoundedTopK.pushAll (top : BoundedTopK S) (pushes : Pushes S ε) : Except ε (BoundedTopK S) :=
  pushes.foldlM (fun top push => top.pushWithReserve push.2 push.1) top

def ExactTopK.pushAll (full : ε) (top : ExactTopK S) (pushes : Pushes S ε) :
    Except ε (ExactTopK S) :=
  pushes.foldlM (fun top push => top.tryPush full push.2 push.1) top

def pushed (pushes : Pushes S ε) : Multiset (ScanCandidate S) := pushes.map Prod.fst

variable {pushes : Pushes S ε} {capacity : ℕ} {candidates : List (ScanCandidate S)}
  {next : ExactTopK S}

theorem Holds.pushAll (h : Holds top entries) (hpush : top.pushAll pushes = .ok top') :
    Holds top' (entries+pushed pushes) ∧ top'.limit = top.limit := by
  induction pushes generalizing top entries with
  | nil =>
    obtain rfl := Except.ok.inj hpush
    exact ⟨(Multiset.add_zero entries).symm ▸ h,rfl⟩
  | cons push pushes ih =>
    obtain ⟨next,hnext,hpush⟩ := bind_eq_ok hpush
    obtain ⟨hholds,hlimit⟩ := h.push hnext
    obtain ⟨hholds,hlimit'⟩ := ih hholds hpush
    refine ⟨?_,hlimit'.trans hlimit⟩
    rw [pushed,map_cons,← Multiset.cons_coe,Multiset.add_cons,← Multiset.cons_add]
    exact hholds

theorem unordered_pushAll {full : ε} {limit : ℕ}
    (hpush : (ExactTopK.unordered limit capacity candidates).pushAll full pushes = .ok next) :
    next = .unordered limit capacity (candidates++pushes.map Prod.fst) := by
  induction pushes generalizing candidates with
  | nil =>
    obtain rfl := Except.ok.inj hpush
    rw [map_nil,append_nil]
  | cons push pushes ih =>
    obtain ⟨next',hnext,hpush⟩ := bind_eq_ok hpush
    simp only [ExactTopK.tryPush] at hnext
    obtain ⟨-,hnext⟩ := of_ite_error hnext
    obtain rfl := Except.ok.inj hnext
    rw [ih hpush,append_assoc]
    rfl

theorem heap_pushAll {full : ε} (hpush : (ExactTopK.heap top).pushAll full pushes = .ok next) :
    ∃ top',next = .heap top' ∧ top.pushAll pushes = .ok top' := by
  induction pushes generalizing top with
  | nil => exact ⟨top,(Except.ok.inj hpush).symm,rfl⟩
  | cons push pushes ih =>
    obtain ⟨next',hnext,hpush⟩ := bind_eq_ok hpush
    obtain ⟨top',htop,rfl⟩ := bind_pure_eq_ok hnext
    obtain ⟨last,rfl,hlast⟩ := ih hpush
    refine ⟨last,rfl,?_⟩
    rw [BoundedTopK.pushAll,foldlM_cons,htop]
    exact hlast

def ExactTopK.strategies (limit eligible : ℕ) : List (ExactTopK S) :=
  [.heap (BoundedTopK.new (min limit eligible)),.unordered (min limit eligible) eligible []]

theorem bestWithTies_min {k eligible : ℕ} (h : entries.card ≤ eligible) :
    bestWithTies (min k eligible) entries = bestWithTies k entries := by
  rcases Nat.le_total k eligible with hle | hle
  · rw [Nat.min_eq_left hle]
  · rw [Nat.min_eq_right hle,bestWithTies_eq h,bestWithTies_eq (h.trans hle)]

def Granted (pushes : Pushes S ε) : Prop :=
  ∀ push ∈ pushes,∀ boundary,push.2 boundary = .ok ()

theorem exists_push (top : BoundedTopK S) (hreserve : ∀ boundary,reserve boundary = .ok ()) :
    ∃ next,top.pushWithReserve reserve c = .ok next := by
  have htied (c : ScanCandidate S) (boundary) :
      pushTied reserve c boundary = .ok (boundary++[c]) := by
    rw [pushTied,hreserve]
    rfl
  unfold BoundedTopK.pushWithReserve BoundedTopK.evict retainTied
  simp only [htied]
  repeat' split
  all_goals exact ⟨_,rfl⟩

theorem exists_pushAll (hgranted : Granted pushes) (top : BoundedTopK S) :
    ∃ next,top.pushAll pushes = .ok next := by
  induction pushes generalizing top with
  | nil => exact ⟨top,rfl⟩
  | cons push pushes ih =>
    obtain ⟨hpush,hpushes⟩ := forall_mem_cons.mp hgranted
    obtain ⟨next,hnext⟩ := exists_push (c := push.1) top hpush
    rw [BoundedTopK.pushAll,foldlM_cons,hnext]
    exact ih hpushes next

theorem exists_pushAll_heap (hgranted : Granted pushes) (full : ε)
    (top : BoundedTopK S) : ∃ next,(ExactTopK.heap top).pushAll full pushes = .ok next := by
  induction pushes generalizing top with
  | nil => exact ⟨_,rfl⟩
  | cons push pushes ih =>
    obtain ⟨hpush,hpushes⟩ := forall_mem_cons.mp hgranted
    obtain ⟨next,hnext⟩ := exists_push (c := push.1) top hpush
    rw [ExactTopK.pushAll,foldlM_cons,ExactTopK.tryPush,hnext]
    exact ih hpushes next

theorem exists_pushAll_unordered (full : ε) {limit : ℕ}
    (h : candidates.length+pushes.length ≤ capacity) :
    ∃ next,(ExactTopK.unordered limit capacity candidates).pushAll full pushes = .ok next := by
  induction pushes generalizing candidates with
  | nil => exact ⟨_,rfl⟩
  | cons push pushes ih =>
    rw [length_cons] at h
    rw [ExactTopK.pushAll,foldlM_cons,ExactTopK.tryPush,if_neg (by omega)]
    apply ih
    rw [length_append,length_singleton]
    omega

/-- Both collectors and both strategies return what the multiset of the pushes determines. -/
theorem topK_of_pushed (k eligible : ℕ) (full : ε) (pushes : Pushes S ε) :
    (∀ top,(BoundedTopK.new k).pushAll pushes = .ok top →
      top.intoSorted = best k (pushed pushes) ∧
        top.intoSortedWithTies = bestWithTies k (pushed pushes)) ∧
    (pushes.length ≤ eligible → ∀ start ∈ ExactTopK.strategies k eligible,
      (∀ top,ExactTopK.pushAll full start pushes = .ok top →
        top.intoSortedWithTies = bestWithTies k (pushed pushes)) ∧
      (Granted pushes → ∃ top,ExactTopK.pushAll full start pushes = .ok top)) ∧
    (Granted pushes → ∃ top,(BoundedTopK.new k).pushAll pushes = .ok top) ∧
    (bestWithTies k (pushed pushes)).take k = best k (pushed pushes) := by
  have hbounded {limit : ℕ} {top : BoundedTopK S}
      (hpush : (BoundedTopK.new limit).pushAll pushes = .ok top) :
      top.limit = limit ∧ top.intoSortedWithTies = bestWithTies limit (pushed pushes) := by
    obtain ⟨hholds,hlimit⟩ := (Holds.new limit).pushAll hpush
    rw [Multiset.zero_add] at hholds
    refine ⟨hlimit,?_⟩
    rw [hholds.intoSortedWithTies,hlimit]
    rfl
  refine ⟨fun top hpush => ?_,fun heligible start hstart => ?_,
    fun hgranted => exists_pushAll hgranted _,take_bestWithTies _ _⟩
  · obtain ⟨hlimit,hties⟩ := hbounded hpush
    refine ⟨?_,hties⟩
    rw [BoundedTopK.intoSorted,hties,hlimit,take_bestWithTies]
  have hcard : (pushed pushes).card ≤ eligible := by
    rw [pushed,Multiset.coe_card,length_map]
    exact heligible
  rw [← bestWithTies_min hcard]
  rcases mem_cons.mp hstart with rfl | hstart
  · refine ⟨fun top hpush => ?_,fun hgranted => exists_pushAll_heap hgranted full _⟩
    obtain ⟨top',rfl,htop⟩ := heap_pushAll hpush
    exact (hbounded htop).2
  · obtain rfl := mem_singleton.mp hstart
    refine ⟨fun top hpush => ?_,fun _ => exists_pushAll_unordered full ?_⟩
    · rw [unordered_pushAll hpush,unordered_intoSortedWithTies]
      rfl
    · rw [length_nil,Nat.zero_add]
      exact heligible

/-- Two entries of one score: both are returned, though only one was asked for. -/
theorem ties_exceed_limit : ¬ ∀ (k eligible : ℕ) (pushes : Pushes ℕ Unit) (top : ExactTopK ℕ),
    pushes.length ≤ eligible → (ExactTopK.new k eligible).pushAll () pushes = .ok top →
      top.intoSortedWithTies = best k (pushed pushes) := by
  intro h
  have hbest:=congrArg List.length <|
    h 1 2 [(⟨0,5⟩,fun _ => .ok ()),(⟨1,5⟩,fun _ => .ok ())] _ le_rfl rfl
  rw [unordered_intoSortedWithTies,bestWithTies,Multiset.length_sort,best,length_take,
    Multiset.length_sort] at hbest
  revert hbest
  decide

end Collect

end Zeppelin.Scan
