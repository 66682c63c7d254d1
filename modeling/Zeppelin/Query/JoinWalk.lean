import Zeppelin.Query.JoinTable

namespace Zeppelin.Query
open Machine List
open Collections

namespace Join

variable {join : Join}

theorem bagged_offerRow_eq (cells : List BackedValue) (uses : List RelationshipUse) :
    Option.map Output.bagged <$> join.offerRow cells uses = (do
      let _ ← (RowBatch.empty 1 join.capacity.limit).push needList cells
      let set ← List.toFinset <$> copyUses (useCapacity join.capacity) uses []
      let retained ← join.predicateRetained cells
      return if retained then some (cells,set) else none) := by
  rw [offerRow,emitRow]
  cases (RowBatch.empty 1 join.capacity.limit).push needList cells with
  | error e => rfl
  | ok batch =>
    cases copyUses (useCapacity join.capacity) uses [] with
    | error e => rfl
    | ok copied =>
      simp only [ok_bind,ok_map,pure_bind]
      cases join.predicateRetained cells with
      | error e => rfl
      | ok retained => cases retained <;> rfl

theorem bagged_offerRow_congr (cells : List BackedValue) {uses other : List RelationshipUse}
    (h : uses.toFinset = other.toFinset) :
    Option.map Output.bagged <$> join.offerRow cells uses =
      Option.map Output.bagged <$> join.offerRow cells other := by
  have hsets : List.toFinset <$> copyUses (useCapacity join.capacity) uses [] =
      List.toFinset <$> copyUses (useCapacity join.capacity) other [] := by
    rw [toFinset_copyUses nodup_nil (Nat.zero_le _),
      toFinset_copyUses nodup_nil (Nat.zero_le _),nil_append,nil_append,h]
  rw [bagged_offerRow_eq,bagged_offerRow_eq,hsets]

variable (join) in
def pairBag (left right : ChildRow) : Except RuntimeError (Option Bagged) :=
  Option.map Output.bagged <$> join.currentPair left right

theorem pairBag_eq {left right : ChildRow} (hleft : left ∈ join.left.rows)
    (hright : right ∈ join.right.rows) :
    join.pairBag left right =
      if join.joins left right then
        Option.map Output.bagged <$>
          join.offerRow (join.combinedCells left right) (left.uses++right.uses)
      else .ok none := by
  rw [pairBag,currentPair_eq hleft hright]
  split_ifs <;> rfl

section Sides

variable {side : BuildSide} {probe build : ChildRow}

theorem bagged_retainedPair {retained : RetainedRows} {row : ℕ}
    (hretains : Retains join.capacity (join.build side).rows retained)
    (hprobe : probe ∈ (join.probe side).rows) (hrow : (join.build side).rows[row]? = some build) :
    Option.map Output.bagged <$> join.retainedPair side retained probe row =
      join.pairBag (leftOf side probe build) (rightOf side probe build) := by
  have hbuild:=mem_of_getElem? hrow
  rw [retainedPair_eq hretains hprobe hrow,
    pairBag_eq (leftOf_mem hprobe hbuild) (rightOf_mem hprobe hbuild)]
  split_ifs
  · apply bagged_offerRow_congr
    cases side with
    | left =>
      rw [toFinset_append,toFinset_append,Finset.union_comm]
      rfl
    | right => rfl
  · rfl

theorem hash_of_joins (h : join.joins (leftOf side probe build) (rightOf side probe build) = true) :
    slotsHash join.digest (join.probe side).schema probe.cells join.shared hashSeed =
      retainedHash join.digest (join.build side).schema join.shared build := by
  have hagrees:=(Bool.and_eq_true_iff.mp h).1
  rw [← agreesOn_sides] at hagrees
  exact slotsHash_congr join.digest hagrees hashSeed

variable (join side) in
def pairWalk (probe build : ChildRow) : Walk Bagged RuntimeError :=
  Walk.once (join.pairBag (leftOf side probe build) (rightOf side probe build))

theorem pairWalk_nil (hprobe : probe ∈ (join.probe side).rows)
    (hbuild : build ∈ (join.build side).rows)
    (h : slotsHash join.digest (join.probe side).schema probe.cells join.shared hashSeed ≠
      retainedHash join.digest (join.build side).schema join.shared build) :
    join.pairWalk side probe build = Walk.nil := by
  have hjoins : join.joins (leftOf side probe build) (rightOf side probe build) ≠ true :=
    fun hjoins => h (hash_of_joins hjoins)
  rw [pairWalk,pairBag_eq (leftOf_mem hprobe hbuild) (rightOf_mem hprobe hbuild),if_neg hjoins]
  rfl

variable (join side) in
structure Table (built : Built) : Prop where
  retains : Retains join.capacity (join.build side).rows built.retained
  indexed : Indexed join.digest (join.build side).schema join.shared (join.build side).rows
    join.capacity.rows.nextPowerOfTwo (join.build side).rows.length built.index

variable {built : Built}

theorem candidate_walk (h : join.Table side built) (hprobe : probe ∈ (join.probe side).rows)
    {row : ℕ} (hrow : (join.build side).rows[row]? = some build) :
    Walk.mapFound Output.bagged (Walk.once (join.candidate side built probe row)) =
      join.pairWalk side probe build := by
  have hhash : join.probeHash side probe =
      .ok (slotsHash join.digest (join.probe side).schema probe.cells join.shared hashSeed) :=
    rowHash_ok join.digest (has_probe hprobe) hashSeed
  have hstored : built.index.hashes[row]? =
      some (retainedHash join.digest (join.build side).schema join.shared build) := by
    rw [h.indexed.hashes_eq,take_length,getElem?_map,hrow]
    rfl
  rw [candidate,hhash,ok_bind,hstored,Walk.mapFound_once]
  by_cases hsame : retainedHash join.digest (join.build side).schema join.shared build =
      slotsHash join.digest (join.probe side).schema probe.cells join.shared hashSeed
  · rw [if_pos (congrArg some hsame),bagged_retainedPair h.retains hprobe hrow]
    rfl
  · rw [if_neg fun hequal => hsame (Option.some.inj hequal),
      pairWalk_nil hprobe (mem_of_getElem? hrow) (Ne.symm hsame)]
    rfl

variable (join side) in
def chainOf (probe : ChildRow) : List ℕ :=
  bucketItems (retainedBucket join.digest (join.build side).schema join.shared
    (join.build side).rows join.capacity.rows.nextPowerOfTwo) (join.build side).rows.length
    ((slotsHash join.digest (join.probe side).schema probe.cells join.shared hashSeed).toNat %
      join.capacity.rows.nextPowerOfTwo)

variable (join side) in
def candidateWalk (built : Built) (probe : ChildRow) : Walk Output RuntimeError :=
  Walk.each (fun row => Walk.once (join.candidate side built probe row)) (join.chainOf side probe)

theorem chain_walk (h : join.Table side built) (hprobe : probe ∈ (join.probe side).rows) :
    Walk.mapFound Output.bagged (join.candidateWalk side built probe) =
      Walk.each (join.pairWalk side probe) (join.build side).rows.reverse := by
  rw [candidateWalk,Walk.mapFound_each,chainOf]
  calc
    _ = Walk.each (fun row => (join.build side).rows[row]?.elim Walk.nil (join.pairWalk side probe))
        (bucketItems _ (join.build side).rows.length _) := by
      apply Walk.each_congr
      intro row hrow
      have hlt:=mem_range.mp (mem_filter.mp (mem_reverse.mp hrow)).1
      have hfound:=getElem?_eq_getElem hlt
      rw [candidate_walk h hprobe hfound,hfound]
      rfl
    _ = Walk.each (fun row => (join.build side).rows[row]?.elim Walk.nil (join.pairWalk side probe))
        (List.range (join.build side).rows.length).reverse := by
      rw [bucketItems,← filter_reverse]
      apply Walk.each_filter
      intro row hrow hother
      have hfound:=getElem?_eq_getElem (mem_range.mp (mem_reverse.mp hrow))
      rw [hfound]
      apply pairWalk_nil hprobe (getElem_mem _)
      intro hhash
      rw [retainedBucket,hfound] at hother
      apply of_decide_eq_false hother
      rw [hhash]
      rfl
    _ = _ := Walk.each_range_reverse _ _

end Sides

variable (join) in
def nestedWalk : Walk Output RuntimeError :=
  Walk.each (fun left =>
    Walk.each (fun right => Walk.once (join.currentPair left right)) join.right.rows) join.left.rows

theorem nested_rights (lefts : List ChildRow) (left : ChildRow) (rights : List ChildRow) :
    Follows join.nestedRound id ⟨lefts,some left,rights,true⟩
      (Walk.each (fun right => Walk.once (join.currentPair left right)) rights)
      ⟨lefts,some left,[],true⟩ := by
  induction rights with
  | nil => exact Follows.refl _
  | cons right rights ih => exact Follows.offer rfl ih

theorem nested_lefts (lefts : List ChildRow) (current : Option ChildRow) :
    ∃ t,Follows join.nestedRound id ⟨lefts,current,[],false⟩
      (Walk.each (fun left =>
        Walk.each (fun right => Walk.once (join.currentPair left right)) join.right.rows) lefts) t ∧
        join.nestedRound t = .ok .done := by
  induction lefts generalizing current with
  | nil => exact ⟨_,Follows.refl _,rfl⟩
  | cons left lefts ih =>
    obtain ⟨t,hrest,hdone⟩ := ih (some left)
    refine ⟨t,?_,hdone⟩
    apply Follows.next rfl
    apply Follows.andThen (nested_rights lefts left join.right.rows)
    exact Follows.next rfl hrest

theorem nested_drains :
    Drains join.nestedRound join.nestedStart join.nestedWalk.1 join.nestedWalk.2 := by
  obtain ⟨t,hfollows,hdone⟩ := @nested_lefts join join.left.rows none
  exact Follows.drains hfollows hdone

section Hash

variable {side : BuildSide} {built : Built}

theorem hash_chain (probes : List ChildRow) (probe : ChildRow) {candidate : Option ℕ}
    {items : List ℕ} (h : Chain built.index.links candidate items) :
    Follows (join.hashRound side) id ⟨some built,probes,some probe,true,candidate⟩
      (Walk.each (fun row => Walk.once (join.candidate side built probe row)) items)
      ⟨some built,probes,some probe,true,none⟩ := by
  induction h with
  | nil => exact Follows.refl _
  | @cons item next rest link _ ih =>
    refine Follows.offer ?_ ih
    rw [hashRound]
    simp only [if_true,link,orBatch,ok_bind]
    rfl

theorem hash_probes (h : join.Table side built) {probes : List ChildRow}
    (hprobes : ∀ probe ∈ probes,probe ∈ (join.probe side).rows) (current : Option ChildRow) :
    ∃ t,Follows (join.hashRound side) id ⟨some built,probes,current,false,none⟩
      (Walk.each (join.candidateWalk side built) probes) t ∧
        join.hashRound side t = .ok .done := by
  induction probes generalizing current with
  | nil => exact ⟨_,Follows.refl _,rfl⟩
  | cons probe probes ih =>
    obtain ⟨t,hrest,hdone⟩ := ih (fun other hother =>
      hprobes other (mem_cons_of_mem _ hother)) (some probe)
    refine ⟨t,?_,hdone⟩
    have hhash : join.probeHash side probe =
        .ok (slotsHash join.digest (join.probe side).schema probe.cells join.shared hashSeed) :=
      rowHash_ok join.digest (has_probe (hprobes probe mem_cons_self)) hashSeed
    obtain ⟨head,hhead⟩ : ∃ head,built.index.heads[built.index.bucket (slotsHash join.digest
        (join.probe side).schema probe.cells join.shared hashSeed)]? = some head := by
      refine ⟨_,getElem?_eq_getElem ?_⟩
      apply Nat.mod_lt
      rw [h.indexed.heads_length]
      exact Nat.pos_of_isPowerOfTwo (Nat.isPowerOfTwo_nextPowerOfTwo _)
    have hchain:=h.indexed.chained.chains _ head hhead
    rw [h.indexed.links_length,HashIndex.bucket,h.indexed.heads_length] at hchain
    have hstep : join.hashRound side ⟨some built,probe::probes,current,false,none⟩ =
        .ok (.next ⟨some built,probes,some probe,true,head⟩) := by
      rw [hashRound]
      simp only [Bool.false_eq_true,if_false,hhash,ok_bind,hhead,orBatch]
      rfl
    apply Follows.next hstep
    apply Follows.andThen (hash_chain probes probe hchain)
    exact Follows.next rfl hrest

theorem buildTable_eq {built : Built} (h : join.buildTable side = .ok built) :
    join.Table side built ∧ Holds join.capacity (join.build side).rows := by
  obtain ⟨retained,hdrain,h⟩ := bind_eq_ok h
  obtain ⟨index,hindex,rfl⟩ := bind_pure_eq_ok h
  obtain ⟨hretains,hholds⟩ := drainOccurrence_eq (retains_new _) (holds_nil _) hdrain
  obtain ⟨other,hother,hindexed⟩ := @buildHashIndex_ok join.digest (join.build side).schema
    join.shared _ _ _ _ hretains (Nat.pos_of_isPowerOfTwo (Nat.isPowerOfTwo_nextPowerOfTwo _))
    hholds.count fun row hrow => has_build hrow
  rw [hindex] at hother
  obtain rfl := Except.ok.inj hother
  exact ⟨⟨hretains,hindexed⟩,hholds⟩

theorem buildTable_ok (h : Holds join.capacity (join.build side).rows) :
    ∃ built,join.buildTable side = .ok built := by
  obtain ⟨retained,hdrain⟩ := drainOccurrence_ok (retains_new join.capacity) h
  obtain ⟨hretains,_⟩ := drainOccurrence_eq (retains_new _) (holds_nil _) hdrain
  obtain ⟨index,hindex,_⟩ := @buildHashIndex_ok join.digest (join.build side).schema
    join.shared _ _ _ _ hretains (Nat.pos_of_isPowerOfTwo (Nat.isPowerOfTwo_nextPowerOfTwo _))
    h.count fun row hrow => has_build hrow
  refine ⟨⟨retained,index⟩,?_⟩
  rw [buildTable,hdrain,ok_bind,hindex]
  rfl

variable (join side) in
def hashWalk : Walk Output RuntimeError :=
  match join.buildTable side with
  | .error e => Walk.fail e
  | .ok built => Walk.each (join.candidateWalk side built) (join.probe side).rows

theorem hash_drains : Drains (join.hashRound side) (join.hashStart side)
    (join.hashWalk side).1 (join.hashWalk side).2 := by
  cases hbuild : join.buildTable side with
  | error e =>
    have hstep : join.hashRound side (join.hashStart side) = .error e := by
      rw [hashRound,hashStart]
      simp only [hbuild,error_bind]
    have hfollows : Follows (join.hashRound side) id (join.hashStart side) (Walk.fail e)
        ⟨some ⟨.new join.capacity,⟨[],[],[]⟩⟩,[],none,false,none⟩ := Follows.fail hstep
    rw [hashWalk,hbuild]
    exact Follows.drains hfollows rfl
  | ok built =>
    obtain ⟨htable,_⟩ := buildTable_eq hbuild
    have hstep : join.hashRound side (join.hashStart side) =
        .ok (.next ⟨some built,(join.probe side).rows,none,false,none⟩) := by
      rw [hashRound,hashStart]
      simp only [hbuild,ok_bind]
      rfl
    obtain ⟨t,hfollows,hdone⟩ := hash_probes htable (fun _ hprobe => hprobe) none
    rw [hashWalk,hbuild]
    exact Follows.drains (Follows.next hstep hfollows) hdone

end Hash

variable (join) in
def keeps (cells : List BackedValue) : Bool :=
  match join.predicate with
  | none => true
  | some predicate =>
    match predicate cells with
    | .ok (.bool kept) => kept
    | _ => false

variable (join) in
def joinedRow (left right : ChildRow) : Option Bagged :=
  if join.joins left right && join.keeps (join.combinedCells left right) then
    some (join.combinedCells left right,(left.uses++right.uses).toFinset)
  else none

variable (join) in
def bag : List Bagged :=
  join.left.rows.flatMap fun left => join.right.rows.filterMap (join.joinedRow left)

variable (join) in
/-- There is room for the row of a pair that joins, and the predicate has a truth there. -/
structure EvaluatesPair (left right : ChildRow) : Prop where
  cells : needList (join.combinedCells left right) ≤ join.capacity.limit
  uses : (left.uses++right.uses).toFinset.card ≤ useCapacity join.capacity
  predicate : ∀ predicate,join.predicate = some predicate →
    ∃ value truth,predicate (join.combinedCells left right) = .ok value ∧ value.truth = .ok truth

variable (join) in
def Evaluates : Prop :=
  ∀ left ∈ join.left.rows,∀ right ∈ join.right.rows,join.joins left right = true →
    join.EvaluatesPair left right

variable {cells : List BackedValue} {left right : ChildRow}

theorem keeps_eq {retained : Bool}
    (h : join.predicateRetained cells = .ok retained) : join.keeps cells = retained := by
  unfold predicateRetained at h
  unfold keeps
  cases hpredicate : join.predicate with
  | none =>
    rw [hpredicate] at h
    exact Except.ok.inj h
  | some predicate =>
    rw [hpredicate] at h
    obtain ⟨value,hvalue,h⟩ := bind_eq_ok h
    obtain ⟨truth,htruth,rfl⟩ := bind_pure_eq_ok h
    dsimp only
    rw [hvalue]
    have htruth:=mapError_eq_ok htruth
    cases value with
    | null =>
      obtain rfl := Except.ok.inj htruth
      rfl
    | bool kept => cases kept <;> (obtain rfl := Except.ok.inj htruth; rfl)
    | _ => cases htruth

theorem predicateRetained_ok_iff : (∃ retained,join.predicateRetained cells = .ok retained) ↔
      ∀ predicate,join.predicate = some predicate →
        ∃ value truth,predicate cells = .ok value ∧ value.truth = .ok truth := by
  unfold predicateRetained
  cases join.predicate with
  | none => exact iff_of_true ⟨true,rfl⟩ nofun
  | some predicate =>
    constructor
    · intro ⟨retained,h⟩ other hother
      obtain rfl := Option.some.inj hother
      obtain ⟨value,hvalue,h⟩ := bind_eq_ok h
      obtain ⟨truth,htruth,_⟩ := bind_eq_ok h
      exact ⟨value,truth,hvalue,mapError_eq_ok htruth⟩
    · intro h
      obtain ⟨value,truth,hvalue,htruth⟩ := h predicate rfl
      refine ⟨truth.retained,?_⟩
      simp only [hvalue,htruth,ok_bind]
      rfl

theorem push_one_ok_iff {limit : Usage} :
    (∃ batch,(RowBatch.empty 1 limit).push needList cells = .ok batch) ↔
      needList cells ≤ limit := by
  rw [RowBatch.push,if_neg (by simp [RowBatch.empty]),Pi.le_def]
  simp only [RowBatch.empty,map_nil,sum_nil,Nat.zero_add]
  split_ifs with hfits
  · exact iff_of_true ⟨_,rfl⟩ hfits
  · refine iff_of_false (fun hpush => ?_) hfits
    obtain ⟨batch,hbatch⟩ := hpush
    cases hbatch

theorem pairBag_found (hleft : left ∈ join.left.rows)
    (hright : right ∈ join.right.rows) {found : Option Bagged}
    (h : join.pairBag left right = .ok found) : found = join.joinedRow left right := by
  rw [pairBag_eq hleft hright] at h
  unfold joinedRow
  cases hjoins : join.joins left right with
  | false =>
    rw [hjoins] at h
    exact (Except.ok.inj h).symm
  | true =>
    rw [hjoins,if_pos rfl,bagged_offerRow_eq,
      toFinset_copyUses nodup_nil (Nat.zero_le _)] at h
    obtain ⟨_,_,h⟩ := bind_eq_ok h
    obtain ⟨set,hset,h⟩ := bind_eq_ok h
    obtain ⟨retained,hretained,h⟩ := bind_eq_ok h
    split_ifs at hset
    obtain rfl := Except.ok.inj hset
    obtain rfl := Except.ok.inj h
    rw [keeps_eq hretained,Bool.true_and,nil_append]

theorem pairBag_ok_iff (hleft : left ∈ join.left.rows) (hright : right ∈ join.right.rows) :
    (∃ found,join.pairBag left right = .ok found) ↔
      (join.joins left right = true → join.EvaluatesPair left right) := by
  rw [pairBag_eq hleft hright]
  cases hjoins : join.joins left right with
  | false => exact iff_of_true ⟨none,rfl⟩ nofun
  | true =>
    rw [if_pos rfl,bagged_offerRow_eq,toFinset_copyUses nodup_nil (Nat.zero_le _),
      nil_append]
    constructor
    · intro ⟨found,h⟩ _
      obtain ⟨batch,hbatch,h⟩ := bind_eq_ok h
      obtain ⟨set,hset,h⟩ := bind_eq_ok h
      obtain ⟨retained,hretained,h⟩ := bind_eq_ok h
      split_ifs at hset with hroom
      exact ⟨push_one_ok_iff.mp ⟨batch,hbatch⟩,hroom,predicateRetained_ok_iff.mp ⟨_,hretained⟩⟩
    · intro h
      obtain ⟨hcells,huses,hpredicate⟩ := h rfl
      obtain ⟨batch,hbatch⟩ := push_one_ok_iff.mpr hcells
      obtain ⟨retained,hretained⟩ := predicateRetained_ok_iff.mpr hpredicate
      rw [hbatch,ok_bind,if_pos huses,ok_bind,hretained]
      exact ⟨_,rfl⟩

end Join

theorem flatMap_comm {α β γ : Type} (xs : List α) (ys : List β) (f : α → β → List γ) :
    (ys.flatMap fun y => xs.flatMap fun x => f x y).Perm
      (xs.flatMap fun x => ys.flatMap fun y => f x y) := by
  have hbind:=Multiset.bind_bind (ys : Multiset β) (xs : Multiset α)
    (f := fun y x => (f x y : Multiset γ))
  simp only [Multiset.coe_bind] at hbind
  exact Multiset.coe_eq_coe.mp hbind

namespace Join

variable {join : Join}

theorem pair_once {left right : ChildRow} (hleft : left ∈ join.left.rows)
    (hright : right ∈ join.right.rows) :
    ((Walk.once (join.pairBag left right)).2 = none ↔
      (join.joins left right = true → join.EvaluatesPair left right)) ∧
      ((Walk.once (join.pairBag left right)).2 = none →
        (Walk.once (join.pairBag left right)).1 = (join.joinedRow left right).toList) := by
  constructor
  · rw [Walk.once_eq_none,pairBag_ok_iff hleft hright]
  · intro hnone
    obtain ⟨found,hfound⟩ := Walk.once_eq_none.mp hnone
    rw [hfound,← pairBag_found hleft hright hfound]
    cases found <;> rfl

theorem bag_eq : join.bag = join.left.rows.flatMap fun left =>
    join.right.rows.flatMap fun right => (join.joinedRow left right).toList := by
  simp only [bag,filterMap_eq_flatMap_toList]

theorem nested_bag :
    (join.nestedWalk.2 = none ↔ join.Evaluates) ∧
      (join.nestedWalk.2 = none → join.nestedWalk.1.map Output.bagged = join.bag) := by
  have hwalk : Walk.mapFound Output.bagged join.nestedWalk =
      Walk.each (fun left => Walk.each (fun right => Walk.once (join.pairBag left right))
        join.right.rows) join.left.rows := by
    rw [nestedWalk,Walk.mapFound_each]
    apply Walk.each_congr
    intro left _
    rw [Walk.mapFound_each]
    apply Walk.each_congr
    intro right _
    rw [Walk.mapFound_once]
    rfl
  have hfailed : (Walk.mapFound Output.bagged join.nestedWalk).2 = join.nestedWalk.2 := rfl
  have hfound : (Walk.mapFound Output.bagged join.nestedWalk).1 =
      join.nestedWalk.1.map Output.bagged := rfl
  rw [← hfailed,← hfound,hwalk,bag_eq]
  constructor
  · rw [Walk.each_eq_none_iff]
    simp only [Walk.each_eq_none_iff]
    constructor
    · intro h left hleft right hright
      exact (pair_once hleft hright).1.mp (h left hleft right hright)
    · intro h left hleft right hright
      exact (pair_once hleft hright).1.mpr (h left hleft right hright)
  · intro hnone
    obtain ⟨hall,hlist⟩ := Walk.each_eq_none hnone
    rw [hlist]
    apply flatMap_congr
    intro left hleft
    obtain ⟨hright,hlist⟩ := Walk.each_eq_none (hall left hleft)
    rw [hlist]
    apply flatMap_congr
    intro right hmem
    exact (pair_once hleft hmem).2 (hright right hmem)

section Hash

variable {side : BuildSide} {built : Built}

theorem hash_walk (h : join.buildTable side = .ok built) :
    Walk.mapFound Output.bagged (join.hashWalk side) =
      Walk.each (fun probe => Walk.each (join.pairWalk side probe) (join.build side).rows.reverse)
        (join.probe side).rows := by
  rw [hashWalk,h,Walk.mapFound_each]
  apply Walk.each_congr
  intro probe hprobe
  exact chain_walk (buildTable_eq h).1 hprobe

theorem hash_evaluates :
    (∀ probe ∈ (join.probe side).rows,∀ build ∈ (join.build side).rows.reverse,
      (join.pairWalk side probe build).2 = none) ↔ join.Evaluates := by
  constructor
  · intro h left hleft right hright
    cases side with
    | left =>
      exact (pair_once hleft hright).1.mp (h right hright left (mem_reverse.mpr hleft))
    | right =>
      exact (pair_once hleft hright).1.mp (h left hleft right (mem_reverse.mpr hright))
  · intro h probe hprobe build hbuild
    have hbuild:=mem_reverse.mp hbuild
    have hleft:=leftOf_mem hprobe hbuild
    have hright:=rightOf_mem hprobe hbuild
    exact (pair_once hleft hright).1.mpr (h _ hleft _ hright)

theorem probes_perm :
    ((join.probe side).rows.flatMap fun probe => (join.build side).rows.reverse.flatMap fun build =>
      (join.joinedRow (leftOf side probe build) (rightOf side probe build)).toList).Perm join.bag := by
  rw [bag_eq]
  have hinner : ((join.probe side).rows.flatMap fun probe =>
      (join.build side).rows.reverse.flatMap fun build =>
        (join.joinedRow (leftOf side probe build) (rightOf side probe build)).toList).Perm
      ((join.probe side).rows.flatMap fun probe => (join.build side).rows.flatMap fun build =>
        (join.joinedRow (leftOf side probe build) (rightOf side probe build)).toList) := by
    apply List.Perm.flatMap_left
    intro probe _
    exact (reverse_perm _).flatMap_right _
  apply hinner.trans
  cases side with
  | left => exact flatMap_comm _ _ _
  | right => exact List.Perm.refl _

theorem hash_bag :
    ((join.hashWalk side).2 = none ↔
      Holds join.capacity (join.build side).rows ∧ join.Evaluates) ∧
      ((join.hashWalk side).2 = none →
        ((join.hashWalk side).1.map Output.bagged).Perm join.bag) := by
  cases hbuild : join.buildTable side with
  | error e =>
    have hfailed : (join.hashWalk side).2 ≠ none := by
      rw [hashWalk,hbuild]
      nofun
    refine ⟨iff_of_false hfailed ?_,fun hnone => absurd hnone hfailed⟩
    intro ⟨hholds,_⟩
    obtain ⟨built,hok⟩ := buildTable_ok hholds
    rw [hbuild] at hok
    cases hok
  | ok built =>
    have hfailed : (Walk.mapFound Output.bagged (join.hashWalk side)).2 = (join.hashWalk side).2 :=
      rfl
    have hfound : (Walk.mapFound Output.bagged (join.hashWalk side)).1 =
        (join.hashWalk side).1.map Output.bagged := rfl
    rw [← hfailed,← hfound,hash_walk hbuild]
    constructor
    · rw [Walk.each_eq_none_iff]
      simp only [Walk.each_eq_none_iff]
      rw [hash_evaluates]
      exact ⟨fun h => ⟨(buildTable_eq hbuild).2,h⟩,And.right⟩
    · intro hnone
      obtain ⟨hall,hlist⟩ := Walk.each_eq_none hnone
      rw [hlist]
      have hrows : ((join.probe side).rows.flatMap fun probe =>
          (Walk.each (join.pairWalk side probe) (join.build side).rows.reverse).1) =
          (join.probe side).rows.flatMap fun probe =>
            (join.build side).rows.reverse.flatMap fun build =>
              (join.joinedRow (leftOf side probe build) (rightOf side probe build)).toList := by
        apply flatMap_congr
        intro probe hprobe
        obtain ⟨heach,hlist⟩ := Walk.each_eq_none (hall probe hprobe)
        rw [hlist]
        apply flatMap_congr
        intro build hmem
        have hbuild:=mem_reverse.mp hmem
        exact (pair_once (leftOf_mem hprobe hbuild) (rightOf_mem hprobe hbuild)).2
          (heach build hmem)
      rw [hrows]
      exact probes_perm

end Hash

theorem joins_iff {left right : ChildRow} :
    join.joins left right = true ↔
      (∀ slot ∈ join.shared,
        (cellAt join.left.schema left.cells slot).value.predicateEqual
          (cellAt join.right.schema right.cells slot).value = .true) ∧
        ∀ l ∈ left.uses,∀ r ∈ right.uses,l.pattern = r.pattern →
          l.relationship = r.relationship → l.origin = r.origin := by
  rw [joins,Bool.and_eq_true,usesCompatible_iff,agrees,agreesOn,all_eq_true]
  simp only [decide_eq_true_eq]

/-- Both joins end or fail. Where they do not fail, they put out the same bag, that of the pairs
that join: the nested loop fails on a pair that joins but has no room or no truth, and the hash
join on such a pair or where the build side does not fit. -/
theorem hashJoin_bag (join : Join) (side : BuildSide) :
    ∃ nested nestedFailed hashed hashFailed,
      Drains join.nestedRound join.nestedStart nested nestedFailed ∧
      Drains (join.hashRound side) (join.hashStart side) hashed hashFailed ∧
      (nestedFailed = none ↔ join.Evaluates) ∧
      (hashFailed = none ↔ Holds join.capacity (join.build side).rows ∧ join.Evaluates) ∧
      (nestedFailed = none → nested.map Output.bagged = join.bag) ∧
      (hashFailed = none → (hashed.map Output.bagged).Perm join.bag) ∧
      (∀ left right,join.joins left right = true ↔
        (∀ slot ∈ join.shared,
          (cellAt join.left.schema left.cells slot).value.predicateEqual
            (cellAt join.right.schema right.cells slot).value = .true) ∧
          ∀ l ∈ left.uses,∀ r ∈ right.uses,l.pattern = r.pattern →
            l.relationship = r.relationship → l.origin = r.origin) ∧
      ∀ a b : QueryValue,a.predicateEqual b = .true →
        a.definite = true ∧ b.definite = true :=
  ⟨_,_,_,_,nested_drains,hash_drains,nested_bag.1,hash_bag.1,nested_bag.2,hash_bag.2,
    fun _ _ => joins_iff,fun a b h => ((predicateEqual_iff a b).mp h).2⟩

end Join

end Zeppelin.Query
