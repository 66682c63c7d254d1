import Zeppelin.Query.TopRows

namespace Zeppelin.Query
open List

open Collections

variable {capacity : StorageCapacity} {order : List Bool} {offers : List (Offer capacity order)}

theorem valueList_eq_map (values : List BackedValue) :
    valueList values = values.map BackedValue.value := by
  induction values with
  | nil => rfl
  | cons value values ih => rw [valueList,ih,map_cons]

theorem coversKeys_keyRow (offer : Offer capacity order) :
    CoversKeys (keyColumns order) offer.keyRow := by
  intro key hkey
  rw [keyColumns,mem_map] at hkey
  obtain ⟨⟨descending,column⟩,hmem,rfl⟩ := hkey
  have hlt:=snd_lt_of_mem_zipIdx hmem
  rw [Offer.keyRow,valueList_eq_map,length_map,offer.keys_length]
  simpa using hlt

variable {offer : Offer capacity order} {i j : ℕ}

theorem keyCells_owned {owned : OwnedRow} (h : Owns owned offer.keys.cells) :
    keyCells owned.value = fun column => offer.keyRow[column]? := by
  funext column
  rw [keyCells,h.value_eq,Offer.keyRow,valueList_eq_map,getElem?_map]

theorem keyCells_cells (offer : Offer capacity order) :
    (keyCells fun column => offer.keys.cells[column]?) =
      fun column => offer.keyRow[column]? := by
  funext column
  rw [keyCells,Offer.keyRow,valueList_eq_map,getElem?_map]

def keyAt (offers : List (Offer capacity order)) (ordinal : ℕ) : Row :=
  (offers[ordinal]?.map Offer.keyRow).getD []

theorem keyAt_eq {ordinal : ℕ}
    (h : offers[ordinal]? = some offer) : keyAt offers ordinal = offer.keyRow := by
  rw [keyAt,h]
  rfl

def rankOrder (offers : List (Offer capacity order)) (i j : ℕ) : Ordering :=
  (keyOrder (keyColumns order) (keyAt offers i) (keyAt offers j)).then (compare i j)

instance (offers : List (Offer capacity order)) : Std.TransCmp (rankOrder offers) :=
  have : Std.TransCmp fun i j =>
      keyOrder (keyColumns order) (keyAt offers i) (keyAt offers j) :=
    { eq_swap := Std.OrientedCmp.eq_swap
      isLE_trans := Std.TransCmp.isLE_trans }
  inferInstanceAs (Std.TransCmp (compareLex (fun i j =>
    keyOrder (keyColumns order) (keyAt offers i) (keyAt offers j)) compare))

def RankLe (offers : List (Offer capacity order)) (i j : ℕ) : Prop := rankOrder offers i j ≠ .gt

instance (offers : List (Offer capacity order)) : DecidableRel (RankLe offers) :=
  fun _ _ => inferInstanceAs (Decidable (_ ≠ _))

theorem rankLe_iff_isLE : RankLe offers i j ↔ (rankOrder offers i j).isLE = true :=
  Ordering.isLE_iff_ne_gt.symm

instance : IsTrans ℕ (RankLe offers) where
  trans := by
    intro i j k hij hjk
    rw [rankLe_iff_isLE] at hij hjk ⊢
    exact Std.TransCmp.isLE_trans hij hjk

instance : Std.Total (RankLe offers) where
  total := by
    intro i j
    by_cases hij : RankLe offers i j
    · exact .inl hij
    · right
      have hgt : rankOrder offers i j = .gt := not_not.mp hij
      rw [Std.OrientedCmp.gt_iff_lt] at hgt
      rw [RankLe,hgt]
      nofun

instance : Std.Antisymm (RankLe offers) where
  antisymm := by
    intro i j hij hji
    rw [rankLe_iff_isLE] at hij hji
    have heq:=Std.OrientedCmp.isLE_antisymm hij hji
    rw [rankOrder,Ordering.then_eq_eq] at heq
    exact compare_eq_iff_eq.mp heq.2

def KeysLe (offers : List (Offer capacity order)) (i j : ℕ) : Prop :=
  KeyLe (keyColumns order) (keyAt offers i) (keyAt offers j)

instance (offers : List (Offer capacity order)) : DecidableRel (KeysLe offers) :=
  fun _ _ => inferInstanceAs (Decidable (_ ≠ _))

instance : IsTrans ℕ (KeysLe offers) where
  trans := fun _ _ _ hij hjk => IsTrans.trans (r := KeyLe (keyColumns order)) _ _ _ hij hjk

theorem RankLe.keysLe (h : RankLe offers i j) : KeysLe offers i j := by
  intro hgt
  apply h
  rw [rankOrder,hgt]
  rfl

theorem rankLe_iff_of_lt (h : i < j) : KeysLe offers i j ↔ RankLe offers i j := by
  refine ⟨?_,RankLe.keysLe⟩
  intro hle
  rw [KeysLe,KeyLe] at hle
  rw [RankLe,rankOrder,compare_lt_iff_lt.mpr h]
  cases hkeys : keyOrder (keyColumns order) (keyAt offers i) (keyAt offers j) with
  | lt => nofun
  | eq => nofun
  | gt => exact absurd hkeys hle

theorem map_range_getElem? {α : Type} (list : List α) :
    (List.range list.length).map (list[·]?) = list.map some := by
  apply ext_getElem?
  intro i
  rw [getElem?_map,getElem?_map]
  by_cases hi : i < list.length
  · rw [getElem?_range hi,getElem?_eq_getElem hi]
    simp [hi]
  · rw [getElem?_eq_none (by simpa using hi),getElem?_eq_none (not_lt.mp hi)]
    rfl

theorem sortOffers_eq_keys (offers : List (Offer capacity order)) :
    (sortOffers order offers).map some =
      ((List.range offers.length).insertionSort (KeysLe offers)).map (offers[·]?) := by
  have hsome : (offers.map some).insertionSort (fun a b : Option (Offer capacity order) =>
      ∀ x ∈ a,∀ y ∈ b,OfferLe order x y) = (sortOffers order offers).map some := by
    symm
    apply map_insertionSort
    intro a _ b _
    simp
  rw [← hsome,← map_range_getElem? offers]
  symm
  apply map_insertionSort
  intro i hi j hj
  rw [mem_range] at hi hj
  rw [getElem?_eq_getElem hi,getElem?_eq_getElem hj,KeysLe,
    keyAt_eq (getElem?_eq_getElem hi),keyAt_eq (getElem?_eq_getElem hj)]
  simp [OfferLe]

theorem sortOffers_eq (offers : List (Offer capacity order)) :
    (sortOffers order offers).map some =
      ((List.range offers.length).insertionSort (RankLe offers)).map (offers[·]?) := by
  have hrange : (List.range offers.length).Pairwise fun i j =>
      KeysLe offers i j ↔ RankLe offers i j :=
    pairwise_lt_range.imp rankLe_iff_of_lt
  rw [sortOffers_eq_keys,insertionSort_congr (KeysLe offers) hrange]

structure Represents (offers : List (Offer capacity order)) (kept : Kept)
    (offer : Offer capacity order) : Prop where
  visible : Owns kept.visible offer.row.cells
  keys : Owns kept.keys offer.keys.cells
  uses_eq : kept.uses = offer.row.uses
  at_ordinal : offers[kept.ordinal]? = some offer

def KeptLe (offers : List (Offer capacity order)) (a b : Kept) : Prop :=
  RankLe offers a.ordinal b.ordinal

instance : IsTrans Kept (KeptLe offers) where
  trans := fun _ _ _ hab hbc => IsTrans.trans (r := RankLe offers) _ _ _ hab hbc

instance : Std.Total (KeptLe offers) where
  total := fun a b => Std.Total.total (r := RankLe offers) a.ordinal b.ordinal

theorem compareCells_offers {a b : Offer capacity order} {left right : ℕ → Option QueryValue}
    (hleft : left = fun column => a.keyRow[column]?)
    (hright : right = fun column => b.keyRow[column]?) :
    compareCells left right (keyColumns order) =
      .ok (keyOrder (keyColumns order) a.keyRow b.keyRow) := by
  rw [hleft,hright]
  exact compareCells_ok (coversKeys_keyRow a) (coversKeys_keyRow b)

theorem kept_comparesBy {rows : List Kept}
    (h : ∀ kept ∈ rows,∃ offer,Represents offers kept offer) :
    ComparesBy (KeptLe offers) (Kept.compare order) rows := by
  intro a ha b hb
  obtain ⟨first,hfirst⟩ := h a ha
  obtain ⟨second,hsecond⟩ := h b hb
  refine ⟨rankOrder offers a.ordinal b.ordinal,?_,not_not.symm⟩
  rw [Kept.compare,compareCells_offers (keyCells_owned hfirst.keys) (keyCells_owned hsecond.keys),
    rankOrder,keyAt_eq hfirst.at_ordinal,keyAt_eq hsecond.at_ordinal]
  rfl

structure TopHolds (offers : List (Offer capacity order)) (limit count : ℕ) (top : TopRows) :
    Prop where
  limit_eq : top.limit = limit
  ordinal_eq : top.ordinal = count
  length_eq : top.rows.length = min limit count
  represents : ∀ kept ∈ top.rows,∃ offer,Represents offers kept offer
  heap : HeapOn (KeptLe offers) top.rows.length top.rows
  dropped : ∃ dropped,(top.rows.map Kept.ordinal++dropped).Perm (List.range count) ∧
    ∀ kept ∈ top.rows,∀ ordinal ∈ dropped,RankLe offers kept.ordinal ordinal

theorem topHolds_new (offers : List (Offer capacity order)) (limit : ℕ) :
    TopHolds offers limit 0 (TopRows.new limit) where
  limit_eq := rfl
  ordinal_eq := rfl
  length_eq := (Nat.min_zero limit).symm
  represents := fun _ hkept => absurd hkept not_mem_nil
  heap := fun k hk => absurd hk (Nat.not_lt_zero k)
  dropped := ⟨[],List.Perm.refl _,fun _ hkept => absurd hkept not_mem_nil⟩

def earlier (offers : List (Offer capacity order)) (ordinal : ℕ) (offer : Offer capacity order) :
    ℕ :=
  (offers.take ordinal).countP fun other => decide (OfferLe order other offer)

theorem earlier_eq {ordinal : ℕ} (h : offers[ordinal]? = some offer) :
    earlier offers ordinal offer =
      (List.range ordinal).countP fun other => decide (KeysLe offers other ordinal) := by
  have hlt:=(List.getElem?_eq_some_iff.mp h).1
  have hkeys : (offers.take ordinal).map Offer.keyRow =
      (List.range ordinal).map (keyAt offers) := by
    apply ext_getElem?
    intro other
    rw [getElem?_map,getElem?_map]
    by_cases hother : other < ordinal
    · rw [getElem?_take_of_lt hother,getElem?_range hother,
        getElem?_eq_getElem (by omega),Option.map_some,Option.map_some,
        keyAt_eq (getElem?_eq_getElem (by omega))]
    · rw [getElem?_eq_none (by rw [length_take]; omega),
        getElem?_eq_none (by rw [length_range]; omega)]
      rfl
  have hcount:=congrArg
    (List.countP fun row => decide (KeyLe (keyColumns order) row offer.keyRow)) hkeys
  rw [countP_map,countP_map] at hcount
  rw [earlier]
  refine Eq.trans hcount ?_
  apply countP_congr
  intro other _
  simp only [Function.comp_apply,KeysLe,keyAt_eq h]

section Step

variable {limit count : ℕ} {top : TopRows}

theorem TopHolds.root (h : TopHolds offers limit count top) {worst : Kept}
    (hworst : top.rows[0]? = some worst) {kept : Kept} (hkept : kept ∈ top.rows) :
    RankLe offers kept.ordinal worst.ordinal := by
  obtain ⟨index,hindex,rfl⟩ := mem_iff_getElem.mp hkept
  by_cases hzero : index = 0
  · subst hzero
    rw [getElem?_eq_getElem hindex] at hworst
    rw [Option.some.inj hworst]
    exact (Std.Total.total (r := RankLe offers) _ _).elim id id
  · exact h.heap.root (Nat.le_refl _) index (by omega) hindex _ _
      (getElem?_eq_getElem hindex) hworst

variable {offer : Offer capacity order}

theorem TopHolds.late_eq (h : TopHolds offers limit count top) (hlimit : limit ≠ 0)
    (hoffer : offers[count]? = some offer) :
    top.late order offer.keys.cells = .ok (decide (limit ≤ earlier offers count offer)) := by
  have hlength:=h.length_eq
  rw [TopRows.late,h.limit_eq]
  by_cases hfull : top.rows.length = limit
  · rw [if_pos hfull]
    obtain ⟨worst,hworst⟩ : ∃ worst,top.rows[0]? = some worst :=
      ⟨_,getElem?_eq_getElem (by omega)⟩
    obtain ⟨held,hheld⟩ := h.represents worst (mem_of_getElem? hworst)
    obtain ⟨dropped,hperm,hcross⟩ := h.dropped
    have hcomparison : decide
        (keyOrder (keyColumns order) offer.keyRow held.keyRow ≠ .lt) =
          decide (limit ≤ earlier offers count offer) := by
      rw [decide_eq_decide,earlier_eq hoffer,← hperm.countP_eq,countP_append,
        countP_map,← keyAt_eq hoffer,← keyAt_eq hheld.at_ordinal]
      have hkeys : keyOrder (keyColumns order) (keyAt offers count)
          (keyAt offers worst.ordinal) ≠ .lt ↔ KeysLe offers worst.ordinal count := by
        rw [KeysLe,KeyLe,ne_eq,ne_eq,Std.OrientedCmp.gt_iff_lt]
      rw [hkeys]
      constructor
      · -- all the kept rows come before it
        intro hle
        have hall : (top.rows.countP
            ((fun other => decide (KeysLe offers other count)) ∘ Kept.ordinal)) =
              top.rows.length := by
          rw [countP_eq_length]
          intro kept hkept
          rw [Function.comp_apply,decide_eq_true_eq]
          exact IsTrans.trans _ _ _ (h.root hworst hkept).keysLe hle
        omega
      · -- neither the root nor a dropped row comes before it
        intro hcount
        by_contra hnot
        have hnone : dropped.countP (fun other => decide (KeysLe offers other count)) = 0 := by
          rw [countP_eq_zero]
          intro ordinal hordinal
          rw [decide_eq_true_eq]
          intro hle
          apply hnot
          exact IsTrans.trans _ _ _
            (hcross worst (mem_of_getElem? hworst) ordinal hordinal).keysLe hle
        have hbound : top.rows.countP
            ((fun other => decide (KeysLe offers other count)) ∘ Kept.ordinal) <
              top.rows.length := by
          refine lt_of_le_of_ne countP_le_length ?_
          intro hall
          rw [countP_eq_length] at hall
          have hroot:=hall worst (mem_of_getElem? hworst)
          rw [Function.comp_apply,decide_eq_true_eq] at hroot
          exact hnot hroot
        omega
    rw [fetch,hworst]
    simp only [Option.elim_some,ok_bind]
    rw [compareCells_offers (keyCells_cells offer) (keyCells_owned hheld.keys),ok_bind,
      hcomparison]
    rfl
  · rw [if_neg hfull]
    have hcount : earlier offers count offer ≤ (offers.take count).length := countP_le_length
    rw [length_take] at hcount
    rw [decide_eq_false (by omega)]

theorem TopHolds.keep (h : TopHolds offers limit count top)
    (hoffer : offers[count]? = some offer) (hearly : earlier offers count offer < limit)
    {row : Kept} (hrow : Represents offers row offer) (hordinal : row.ordinal = count) :
    ∃ rows,top.keep order row = .ok rows ∧
      TopHolds offers limit (count+1) { top with rows := rows,ordinal := count+1 } := by
  obtain ⟨dropped,hperm,hcross⟩ := h.dropped
  have hlength:=h.length_eq
  have hcount : (List.range count).length = (top.rows.map Kept.ordinal++dropped).length :=
    hperm.length_eq.symm
  rw [length_range,length_append,length_map] at hcount
  rw [TopRows.keep,h.limit_eq]
  by_cases hroom : top.rows.length < limit
  · -- the row goes to the end and up
    rw [if_pos hroom]
    have hrepresents : ∀ kept ∈ top.rows++[row],∃ offer,Represents offers kept offer := by
      intro kept hkept
      rcases mem_append.mp hkept with hkept | hkept
      · exact h.represents kept hkept
      · rw [mem_singleton.mp hkept]
        exact ⟨offer,hrow⟩
    have hup : UpOrder (KeptLe offers) top.rows.length (top.rows++[row]) := by
      constructor
      · intro k hk hpos hne a b ha hb
        rw [length_append,length_singleton] at hk
        rw [getElem?_append_left (by omega)] at ha hb
        exact h.heap k (by omega) hpos a b ha hb
      · intro k hk hpos hparent _
        rw [length_append,length_singleton] at hk
        omega
    obtain ⟨rows,hrows,hrowsPerm,hheap⟩ := siftUp_ok .batch top.rows.length (Nat.le_refl _)
      (by rw [length_append,length_singleton]; omega) hup (kept_comparesBy hrepresents)
    refine ⟨rows,hrows,rfl,rfl,?_,?_,hheap,[],?_,fun _ _ _ hmem => by cases hmem⟩
    · have := hrowsPerm.length_eq
      rw [length_append,length_singleton] at this
      simp only
      omega
    · exact fun kept hkept => hrepresents kept (hrowsPerm.mem_iff.mp hkept)
    · obtain rfl : dropped = [] := length_eq_zero_iff.mp (by omega)
      have hordinals:=hrowsPerm.map Kept.ordinal
      rw [map_append,map_singleton,hordinal] at hordinals
      rw [append_nil] at hperm ⊢
      rw [range_succ]
      exact hordinals.trans (hperm.append_right [count])
  · -- the row takes the place of the root
    rw [if_neg hroom]
    have hfull : top.rows.length = limit := by omega
    obtain ⟨worst,tail,hrowsEq⟩ : ∃ worst tail,top.rows = worst::tail :=
      exists_cons_of_length_pos (by omega)
    have hworst : top.rows[0]? = some worst := by rw [hrowsEq]; rfl
    have hworstMem:=mem_of_getElem? hworst
    have hset : top.rows.set 0 row = row::tail := by rw [hrowsEq]; rfl
    have hbefore : RankLe offers count worst.ordinal := by
      have hlate:=h.late_eq (by omega) hoffer
      obtain ⟨held,hheld⟩ := h.represents worst hworstMem
      rw [decide_eq_false (by omega),TopRows.late,h.limit_eq,if_pos hfull,fetch,hworst] at hlate
      simp only [Option.elim_some,ok_bind] at hlate
      rw [compareCells_offers (keyCells_cells offer) (keyCells_owned hheld.keys),ok_bind] at hlate
      have hlt:=of_decide_eq_false (Except.ok.inj hlate)
      rw [not_not,← keyAt_eq hoffer,← keyAt_eq hheld.at_ordinal] at hlt
      rw [RankLe,rankOrder,hlt]
      exact fun hgt => by cases hgt
    have htail : ∀ kept ∈ tail,kept ∈ top.rows := by
      rw [hrowsEq]
      exact fun kept hkept => mem_cons_of_mem _ hkept
    have hrepresents : ∀ kept ∈ row::tail,∃ offer,Represents offers kept offer := by
      intro kept hkept
      rcases mem_cons.mp hkept with rfl | hkept
      · exact ⟨offer,hrow⟩
      · exact h.represents kept (htail kept hkept)
    have hdown : DownOrder (KeptLe offers) top.rows.length 0 (row::tail) := by
      constructor
      · intro k hk hpos hparent a b ha hb
        have hsame : ∀ j,0 < j → (row::tail)[j]? = top.rows[j]? := by
          intro j hj
          rw [hrowsEq,getElem?_cons,getElem?_cons,if_neg (by omega),
            if_neg (by omega)]
        rw [hsame _ (by omega)] at ha hb
        exact h.heap k hk hpos a b ha hb
      · intro k _ _ _ hpos
        exact absurd hpos (Nat.lt_irrefl 0)
    have hsameLength : (row::tail).length = top.rows.length := by rw [hrowsEq]; rfl
    rw [hset]
    obtain ⟨rows,hrows,hrowsPerm,hheap,-⟩ := siftDown_ok .batch top.rows.length (by omega)
      hsameLength.ge hdown (kept_comparesBy hrepresents)
    have hrowsLength:=hrowsPerm.length_eq.trans hsameLength
    refine ⟨rows,hrows,rfl,rfl,?_,?_,?_,worst.ordinal::dropped,?_,?_⟩
    · simp only
      omega
    · exact fun kept hkept => hrepresents kept (hrowsPerm.mem_iff.mp hkept)
    · simp only [hrowsLength]
      exact hheap
    · have hordinals:=hrowsPerm.map Kept.ordinal
      rw [map_cons,hordinal] at hordinals
      rw [hrowsEq,map_cons] at hperm
      rw [range_succ]
      have hmoved : (rows.map Kept.ordinal++worst.ordinal::dropped).Perm
          (count::(worst.ordinal::tail.map Kept.ordinal++dropped)) := by
        refine (hordinals.append_right _).trans ?_
        rw [cons_append]
        exact perm_middle.cons count
      exact hmoved.trans ((hperm.cons count).trans (perm_append_singleton _ _).symm)
    · intro kept hkept ordinal hdropped
      have hroot : RankLe offers kept.ordinal worst.ordinal := by
        rcases mem_cons.mp (hrowsPerm.mem_iff.mp hkept) with rfl | hkept
        · rw [hordinal]
          exact hbefore
        · exact h.root hworst (htail kept hkept)
      rcases mem_cons.mp hdropped with rfl | hdropped
      · exact hroot
      · exact IsTrans.trans _ _ _ hroot (hcross worst hworstMem ordinal hdropped)

theorem TopHolds.drop (h : TopHolds offers limit count top)
    (hoffer : offers[count]? = some offer) (hlate : limit ≤ earlier offers count offer) :
    TopHolds offers limit (count+1) { top with ordinal := count+1 } := by
  obtain ⟨dropped,hperm,hcross⟩ := h.dropped
  have hlength:=h.length_eq
  have hcount : earlier offers count offer ≤ (offers.take count).length := countP_le_length
  rw [length_take] at hcount
  refine ⟨h.limit_eq,rfl,?_,h.represents,h.heap,dropped++[count],?_,?_⟩
  · simp only
    omega
  · rw [range_succ,← append_assoc]
    exact hperm.append_right [count]
  · intro kept hkept ordinal hordinal
    rcases mem_append.mp hordinal with hordinal | hordinal
    · exact hcross kept hkept ordinal hordinal
    · rw [mem_singleton.mp hordinal]
      have hkeptLt : kept.ordinal < count := by
        have hmem : kept.ordinal ∈ top.rows.map Kept.ordinal++dropped :=
          mem_append_left _ (mem_map_of_mem hkept)
        exact mem_range.mp (hperm.mem_iff.mp hmem)
      rw [← rankLe_iff_of_lt hkeptLt]
      have hnonempty : 0 < top.rows.length := length_pos_of_mem hkept
      have heq:=h.late_eq (by omega) hoffer
      obtain ⟨worst,hworst⟩ : ∃ worst,top.rows[0]? = some worst :=
        ⟨_,getElem?_eq_getElem hnonempty⟩
      obtain ⟨held,hheld⟩ := h.represents worst (mem_of_getElem? hworst)
      rw [decide_eq_true hlate,TopRows.late,h.limit_eq,if_pos (by omega),fetch,hworst] at heq
      simp only [Option.elim_some,ok_bind] at heq
      rw [compareCells_offers (keyCells_cells offer) (keyCells_owned hheld.keys),ok_bind] at heq
      have hnotLt:=of_decide_eq_true (Except.ok.inj heq)
      rw [← keyAt_eq hoffer,← keyAt_eq hheld.at_ordinal,ne_eq,
        ← Std.OrientedCmp.gt_iff_lt] at hnotLt
      exact IsTrans.trans _ _ _ (h.root hworst hkept).keysLe hnotLt

def OfferFits (limit ordinal : ℕ) (offers : List (Offer capacity order))
    (offer : Offer capacity order) : Prop :=
  earlier offers ordinal offer < limit → MapsFit offer.row.cells ∧ MapsFit offer.keys.cells

theorem TopHolds.offer_ok (h : TopHolds offers limit count top)
    (hoffer : offers[count]? = some offer) (hcount : count+1 < 2^64)
    (hfits : OfferFits limit count offers offer) :
    ∃ next,top.offer order offer.row.cells offer.keys.cells offer.row.uses = .ok next ∧
      TopHolds offers limit (count+1) next := by
  rw [TopRows.offer,h.ordinal_eq,failIf_neg _ (not_le.mpr hcount),ok_bind,h.limit_eq]
  by_cases hzero : limit = 0
  · have hnext:=h.drop hoffer (by omega)
    rw [h.limit_eq] at hnext
    rw [if_pos hzero]
    exact ⟨_,rfl,hnext⟩
  · rw [if_neg hzero,h.late_eq hzero hoffer,ok_bind]
    by_cases hlate : limit ≤ earlier offers count offer
    · have hnext:=h.drop hoffer hlate
      rw [h.limit_eq] at hnext
      rw [if_pos (decide_eq_true hlate)]
      exact ⟨_,rfl,hnext⟩
    · obtain ⟨hvisible,hkeys⟩ := hfits (not_le.mp hlate)
      obtain ⟨visible,hvisibleOk,hvisibleOwns⟩ := ownRow_ok offer.row.toQueryRow hvisible
      obtain ⟨keys,hkeysOk,hkeysOwns⟩ := ownRow_ok offer.keys hkeys
      have hrow : Represents offers ⟨visible,keys,offer.row.uses,count⟩ offer :=
        ⟨hvisibleOwns,hkeysOwns,rfl,hoffer⟩
      obtain ⟨rows,hrows,hnext⟩ := h.keep hoffer (not_le.mp hlate) hrow rfl
      rw [h.limit_eq] at hnext
      rw [if_neg (by simpa using hlate),hvisibleOk,ok_bind,hkeysOk,ok_bind,hrows]
      exact ⟨_,rfl,hnext⟩

theorem TopHolds.offer_error (h : TopHolds offers limit count top)
    (hoffer : offers[count]? = some offer)
    (hfails : count+1 < 2^64 → ¬ OfferFits limit count offers offer) :
    ∃ error,top.offer order offer.row.cells offer.keys.cells offer.row.uses = .error error := by
  rw [TopRows.offer,h.ordinal_eq]
  by_cases hcount : count+1 < 2^64
  · obtain ⟨hearly,hmaps⟩ := Classical.not_imp.mp (hfails hcount)
    rw [failIf_neg _ (not_le.mpr hcount),ok_bind,h.limit_eq,if_neg (by omega),
      h.late_eq (by omega) hoffer,ok_bind,if_neg (by simpa using hearly)]
    by_cases hvisible : MapsFit offer.row.cells
    · obtain ⟨visible,hvisibleOk,-⟩ := ownRow_ok offer.row.toQueryRow hvisible
      have hkeys : ¬ MapsFit offer.keys.cells := fun hkeys => hmaps ⟨hvisible,hkeys⟩
      rw [hvisibleOk,ok_bind,ownRow_error _ hkeys]
      exact ⟨_,rfl⟩
    · rw [ownRow_error offer.row.toQueryRow hvisible]
      exact ⟨_,rfl⟩
  · rw [failIf,if_pos (not_lt.mp hcount)]
    exact ⟨_,rfl⟩

theorem TopHolds.offers_ok : ∀ {rest : List (Offer capacity order)} {count : ℕ} {top : TopRows},
    TopHolds offers limit count top → offers.drop count = rest → offers.length < 2^64 →
    (∀ ordinal offer,count ≤ ordinal → offers[ordinal]? = some offer →
      OfferFits limit ordinal offers offer) →
    ∃ final,rest.foldlM (fun (top : TopRows) offer =>
      top.offer order offer.row.cells offer.keys.cells offer.row.uses) top = .ok final ∧
        TopHolds offers limit (count+rest.length) final := by
  intro rest
  induction rest with
  | nil =>
    intro count top h hrest _ _
    exact ⟨top,rfl,h⟩
  | cons offer rest ih =>
    intro count top h hrest hlength hfits
    have hoffer : offers[count]? = some offer := by
      rw [← Nat.add_zero count,← getElem?_drop,hrest]
      rfl
    have hcount:=(List.getElem?_eq_some_iff.mp hoffer).1
    obtain ⟨next,hnext,hholds⟩ := h.offer_ok hoffer (by omega)
      (hfits count offer (Nat.le_refl _) hoffer)
    have htail : offers.drop (count+1) = rest := by
      rw [← drop_drop,hrest]
      rfl
    obtain ⟨final,hfinal,hfinalHolds⟩ := ih hholds htail hlength
      fun ordinal other hordinal => hfits ordinal other (by omega)
    refine ⟨final,?_,?_⟩
    · rw [foldlM_cons,hnext,ok_bind]
      exact hfinal
    · rw [length_cons,← Nat.add_assoc,Nat.add_right_comm]
      exact hfinalHolds

theorem TopHolds.offers_error : ∀ {rest : List (Offer capacity order)} {count : ℕ}
    {top : TopRows},TopHolds offers limit count top → offers.drop count = rest →
    (∃ ordinal offer,count ≤ ordinal ∧ offers[ordinal]? = some offer ∧
      (ordinal+1 < 2^64 → ¬ OfferFits limit ordinal offers offer)) →
    ∃ error,rest.foldlM (fun (top : TopRows) offer =>
      top.offer order offer.row.cells offer.keys.cells offer.row.uses) top = .error error := by
  intro rest
  induction rest with
  | nil =>
    intro count top h hrest ⟨ordinal,offer,hle,hoffer,_⟩
    have hlt:=(List.getElem?_eq_some_iff.mp hoffer).1
    have hempty:=congrArg List.length hrest
    rw [length_drop,length_nil] at hempty
    omega
  | cons first rest ih =>
    intro count top h hrest ⟨ordinal,offer,hle,hoffer,hfails⟩
    have hfirst : offers[count]? = some first := by
      rw [← Nat.add_zero count,← getElem?_drop,hrest]
      rfl
    have htail : offers.drop (count+1) = rest := by
      rw [← drop_drop,hrest]
      rfl
    rw [foldlM_cons]
    by_cases hnow : count+1 < 2^64 → ¬ OfferFits limit count offers first
    · obtain ⟨error,herror⟩ := h.offer_error hfirst hnow
      rw [herror]
      exact ⟨error,rfl⟩
    · obtain ⟨hcount,hfits⟩ := Classical.not_imp.mp hnow
      obtain ⟨next,hnext,hholds⟩ := h.offer_ok hfirst hcount (not_not.mp hfits)
      rw [hnext,ok_bind]
      refine ih hholds htail ⟨ordinal,offer,?_,hoffer,hfails⟩
      by_contra hlater
      obtain rfl : ordinal = count := by omega
      rw [hfirst] at hoffer
      obtain rfl := Option.some.inj hoffer
      exact hfails hcount (not_not.mp hfits)

end Step

theorem emit_ok {top : TopRows} {row : ℕ} {kept : Kept} {offer : Offer capacity order}
    (hkept : top.rows[row]? = some kept) (h : Represents offers kept offer) :
    top.emit capacity row = .ok offer.output := by
  have hcells : ((List.range kept.visible.cells.length).mapM fun column =>
      orBatch (kept.visible.value column)) = .ok offer.row.cells := by
    rw [h.visible.length_eq]
    apply mapM_range_ok
    intro column hcolumn
    rw [h.visible.value_eq,getElem?_eq_getElem hcolumn]
    rfl
  rw [TopRows.emit,fetch,hkept]
  simp only [Option.elim_some,ok_bind]
  rw [hcells,ok_bind,h.uses_eq]
  exact emitRow_ok offer.row

theorem TopHolds.emitted {limit : ℕ} {top : TopRows}
    (h : TopHolds offers limit offers.length top) :
    ∃ sorted,top.sort order = .ok sorted ∧
      (List.range sorted.rows.length).mapM (sorted.emit capacity) =
        .ok (((sortOffers order offers).take limit).map Offer.output) := by
  obtain ⟨dropped,hperm,hcross⟩ := h.dropped
  have hheap : HeapOn (KeptLe offers) (top.rows.length-1+1) top.rows := by
    by_cases hempty : top.rows.length = 0
    · intro k hk hpos
      omega
    · rw [Nat.sub_add_cancel (by omega)]
      exact h.heap
  have hnothing : ∀ i j,i < j → top.rows.length-1 < j → Below (KeptLe offers) top.rows i j := by
    intro i j _ hj a b _ hb
    have := (List.getElem?_eq_some_iff.mp hb).1
    omega
  obtain ⟨rows,hrows,hrowsPerm,hpairwise⟩ := heapSort_ok .batch (top.rows.length-1)
    (by omega) hheap hnothing (kept_comparesBy h.represents)
  refine ⟨{ top with rows := rows },by rw [TopRows.sort,hrows]; rfl,?_⟩
  -- the ordinals in the heap are the first ones by rank
  have hordinals : ((List.range offers.length).insertionSort (RankLe offers)).take rows.length =
      rows.map Kept.ordinal := by
    have hall : (rows.map Kept.ordinal++dropped).Perm (List.range offers.length) :=
      ((hrowsPerm.map _).append_right _).trans hperm
    have hbehind : ∀ a ∈ rows.map Kept.ordinal,∀ b ∈ dropped,RankLe offers a b := by
      intro a ha b hb
      obtain ⟨kept,hkept,rfl⟩ := mem_map.mp ha
      exact hcross kept (hrowsPerm.mem_iff.mp hkept) b hb
    have hfront:=take_insertionSort (RankLe offers) hall (pairwise_map.mpr hpairwise) hbehind
    rwa [length_map] at hfront
  have hlength : rows.length = min limit offers.length :=
    hrowsPerm.length_eq.trans h.length_eq
  have houtputs : ((sortOffers order offers).take limit).map some =
      rows.map fun kept => offers[kept.ordinal]? := by
    have hsorted:=congrArg (List.take rows.length) (sortOffers_eq offers)
    rw [← map_take,← map_take,hordinals,map_map] at hsorted
    rw [← Function.comp_def (fun ordinal => offers[ordinal]?) Kept.ordinal,← hsorted]
    congr 1
    by_cases hle : limit ≤ offers.length
    · rw [hlength,Nat.min_eq_left hle]
    · have hall : (sortOffers order offers).length = offers.length :=
        length_insertionSort _ _
      rw [take_of_length_le (by omega),take_of_length_le (by omega)]
  have hcount:=congrArg List.length houtputs
  rw [length_map,length_map] at hcount
  have hemit : (List.range (((sortOffers order offers).take limit).map Offer.output).length).mapM
      (({ top with rows := rows } : TopRows).emit capacity) =
        .ok (((sortOffers order offers).take limit).map Offer.output) := by
    apply mapM_range_ok
    intro row hrow
    rw [length_map] at hrow
    have hkept:=getElem?_eq_getElem (hcount ▸ hrow : row < rows.length)
    obtain ⟨offer,hrepresents⟩ := h.represents _ (hrowsPerm.mem_iff.mp (mem_of_getElem? hkept))
    have hsame:=congrArg (·[row]?) houtputs
    simp only [getElem?_map] at hsame
    rw [hkept,Option.map_some,hrepresents.at_ordinal,getElem?_eq_getElem hrow,
      Option.map_some] at hsame
    rw [getElem_map,Option.some.inj (Option.some.inj hsame)]
    exact emit_ok hkept hrepresents
  rw [length_map,hcount] at hemit
  exact hemit

theorem boundedSort_ok {limit : ℕ} (hlength : offers.length < 2^64)
    (hfits : KeptFit order limit offers) :
    boundedSort capacity order limit offers =
      .ok (((sortOffers order offers).take limit).map Offer.output) := by
  obtain ⟨final,hfinal,hholds⟩ := (topHolds_new offers limit).offers_ok rfl hlength
    fun ordinal offer _ hoffer => hfits ordinal offer hoffer
  rw [Nat.zero_add,drop_zero] at hholds
  obtain ⟨sorted,hsorted,hemitted⟩ := hholds.emitted
  rw [boundedSort,← drop_zero (l := offers),hfinal,ok_bind,hsorted,ok_bind]
  exact hemitted

theorem boundedSort_error {limit : ℕ}
    (h : ¬ (offers.length < 2^64 ∧ KeptFit order limit offers)) :
    ∃ error,boundedSort capacity order limit offers = .error error := by
  obtain ⟨error,herror⟩ : ∃ error,offers.foldlM (fun (top : TopRows) offer =>
      top.offer order offer.row.cells offer.keys.cells offer.row.uses) (TopRows.new limit) =
        .error error := by
    apply (topHolds_new offers limit).offers_error rfl
    by_contra hnone
    apply h
    have hall : ∀ ordinal offer,offers[ordinal]? = some offer →
        ordinal+1 < 2^64 ∧ OfferFits limit ordinal offers offer := by
      intro ordinal offer hoffer
      by_contra hnot
      apply hnone
      exact ⟨ordinal,offer,Nat.zero_le _,hoffer,fun hlt hfits => hnot ⟨hlt,hfits⟩⟩
    refine ⟨?_,fun ordinal offer hoffer => (hall ordinal offer hoffer).2⟩
    by_contra hlong
    have hlast:=hall (offers.length-1) _ (getElem?_eq_getElem (by omega))
    have := hlast.1
    omega
  exact ⟨error,by rw [boundedSort,herror,error_bind]⟩

end Zeppelin.Query
