import Zeppelin.Query.OrderBy

/-! property_graph/query/relational/streaming.rs -/

namespace Zeppelin.Query
open List

structure Operand where
  value : BackedValue
  depth_le : value.depth ≤ maxListDepth
  payload_le : value.need .payloadBytes ≤ maxQueryBytes

def BackedValue.isNull (value : BackedValue) : Bool := value.value.isNull

def replaces (least : Bool) (value previous : BackedValue) : Bool :=
  if least then value.value.order previous.value == .lt
  else value.value.order previous.value == .gt

def updateExtreme (least : Bool) (extreme : Option OwnedRow) (operand : BackedValue) :
    Except RuntimeError (Option OwnedRow) :=
  if operand.isNull then .ok extreme
  else
    match extreme with
    | none => some <$> ownRow [operand]
    | some previous => do
      let held ← orBatch (previous.value 0)
      if replaces least operand held then some <$> ownRow [operand] else .ok (some previous)

def aggregateExtreme (least : Bool) (operands : List BackedValue) :
    Except RuntimeError BackedValue := do
  let extreme ← operands.foldlM (updateExtreme least) none
  return (extreme.bind fun row => row.value 0).getD .null

def extremeOf (least : Bool) (operands : List BackedValue) : Option BackedValue :=
  operands.foldl (fun extreme operand =>
    if operand.isNull then extreme
    else
      match extreme with
      | none => some operand
      | some previous => if replaces least operand previous then some operand else extreme) none

def Record (least : Bool) (earlier : List BackedValue) (operand : BackedValue) : Prop :=
  operand.isNull = false ∧ ∀ other ∈ earlier,other.isNull = false → replaces least operand other

def RecordsFit (least : Bool) (operands : List Operand) : Prop :=
  ∀ index operand,operands[index]? = some operand →
    Record least ((operands.take index).map Operand.value) operand.value → MapsFit [operand.value]

variable {least : Bool} {a b : BackedValue} {operands : List BackedValue}

theorem replaces_iff : replaces least a b = true ↔
      columnOrder (0,!least) [a.value] [b.value] = .lt := by
  have hcell : ∀ value : QueryValue,Row.at [value] 0 = value := fun _ => rfl
  rw [replaces,columnOrder,hcell,hcell,direct]
  cases least with
  | true => exact beq_iff_eq
  | false =>
    rw [if_neg Bool.false_ne_true,Bool.not_false,if_pos rfl,Ordering.swap_eq_lt]
    exact beq_iff_eq

variable {c : BackedValue} {extreme : Option OwnedRow}

theorem replaces_trans (hab : replaces least a b = true)
    (hcb : replaces least c b = false) : replaces least a c = true := by
  rw [replaces_iff] at hab ⊢
  rw [← Bool.not_eq_true,replaces_iff,← Std.OrientedCmp.gt_iff_lt] at hcb
  exact Std.TransCmp.lt_of_lt_of_isLE hab (Ordering.isLE_iff_ne_gt.mpr hcb)

theorem replaces_of_replaced (hab : replaces least a b = true) (hcb : replaces least c b = false) :
    replaces least c a = false := by
  by_contra hca
  rw [Bool.not_eq_false] at hca
  rw [replaces_iff] at hca hab
  have hboth:=replaces_iff.mpr (Std.TransCmp.lt_trans hca hab)
  rw [hcb] at hboth
  cases hboth

theorem extremeOf_append (least : Bool) (operands : List BackedValue) (operand : BackedValue) :
    extremeOf least (operands++[operand]) =
      if operand.isNull then extremeOf least operands
      else
        match extremeOf least operands with
        | none => some operand
        | some previous =>
          if replaces least operand previous then some operand else extremeOf least operands := by
  rw [extremeOf,foldl_append]
  rfl

theorem extremeOf_spec (least : Bool) (operands : List BackedValue) :
    match extremeOf least operands with
    | none => ∀ operand ∈ operands,operand.isNull = true
    | some extreme => extreme ∈ operands ∧ extreme.isNull = false ∧
        ∀ operand ∈ operands,operand.isNull = false → replaces least operand extreme = false := by
  induction operands using List.reverseRecOn with
  | nil => exact fun _ hmem => absurd hmem not_mem_nil
  | append_singleton operands operand ih =>
    rw [extremeOf_append]
    cases hnull : operand.isNull with
    | true =>
      rw [if_pos rfl]
      cases hextreme : extremeOf least operands with
      | none =>
        rw [hextreme] at ih
        intro other hother
        rcases mem_append.mp hother with hother | hother
        · exact ih other hother
        · rw [mem_singleton.mp hother]
          exact hnull
      | some extreme =>
        rw [hextreme] at ih
        refine ⟨mem_append_left _ ih.1,ih.2.1,?_⟩
        intro other hother hvalue
        rcases mem_append.mp hother with hother | hother
        · exact ih.2.2 other hother hvalue
        · rw [mem_singleton.mp hother,hnull] at hvalue
          cases hvalue
    | false =>
      rw [if_neg Bool.false_ne_true]
      have hirrefl : replaces least operand operand = false := by
        have hrefl : columnOrder (0,!least) [operand.value] [operand.value] = .eq :=
          Std.ReflCmp.compare_self
        rw [← Bool.not_eq_true,replaces_iff,hrefl]
        nofun
      cases hextreme : extremeOf least operands with
      | none =>
        rw [hextreme] at ih
        refine ⟨mem_append_right _ (mem_singleton_self _),hnull,?_⟩
        intro other hother hvalue
        rcases mem_append.mp hother with hother | hother
        · rw [ih other hother] at hvalue
          cases hvalue
        · rw [mem_singleton.mp hother]
          exact hirrefl
      | some extreme =>
        rw [hextreme] at ih
        simp only
        split_ifs with hreplace
        · refine ⟨mem_append_right _ (mem_singleton_self _),hnull,?_⟩
          intro other hother hvalue
          rcases mem_append.mp hother with hother | hother
          · exact replaces_of_replaced hreplace (ih.2.2 other hother hvalue)
          · rw [mem_singleton.mp hother]
            exact hirrefl
        · refine ⟨mem_append_left _ ih.1,ih.2.1,?_⟩
          intro other hother hvalue
          rcases mem_append.mp hother with hother | hother
          · exact ih.2.2 other hother hvalue
          · rw [mem_singleton.mp hother]
            exact Bool.eq_false_iff.mpr hreplace

theorem record_iff {operand extreme : BackedValue}
    (hextreme : extremeOf least operands = some extreme) (hnull : operand.isNull = false) :
    Record least operands operand ↔ replaces least operand extreme = true := by
  have hspec:=extremeOf_spec least operands
  rw [hextreme] at hspec
  constructor
  · intro hrecord
    exact hrecord.2 extreme hspec.1 hspec.2.1
  · intro hreplaces
    refine ⟨hnull,?_⟩
    intro other hother hvalue
    exact replaces_trans hreplaces (hspec.2.2 other hother hvalue)

theorem Operand.row_depth (operand : Operand) : depthList [operand.value] ≤ maxListDepth := by
  rw [depthList,depthList,Nat.max_zero]
  exact operand.depth_le

def Operand.row (operand : Operand) : QueryRow where
  cells := [operand.value]
  columns_le := by simp
  depth_le := operand.row_depth
  payload_le := by
    rw [needList,needList,add_zero]
    exact operand.payload_le

def ExtremeHeld (least : Bool) (operands : List BackedValue) (extreme : Option OwnedRow) : Prop :=
  match extreme with
  | none => extremeOf least operands = none
  | some owned => ∃ value,extremeOf least operands = some value ∧ Owns owned [value]

theorem ExtremeHeld.value_eq (h : ExtremeHeld least operands extreme) :
    (extreme.bind fun row => row.value 0) = extremeOf least operands := by
  cases extreme with
  | none => exact h.symm
  | some owned =>
    obtain ⟨value,hvalue,howns⟩ := h
    rw [hvalue,Option.bind_some,howns.value_eq]
    rfl

theorem ExtremeHeld.update (h : ExtremeHeld least operands extreme) (operand : Operand) :
    ((Record least operands operand.value → MapsFit [operand.value]) →
      ∃ next,updateExtreme least extreme operand.value = .ok next ∧
        ExtremeHeld least (operands++[operand.value]) next) ∧
    (¬ (Record least operands operand.value → MapsFit [operand.value]) →
      updateExtreme least extreme operand.value = .error .batchCapacity) := by
  have hok:=ownRow_ok operand.row
  have herror:=ownRow_error operand.row
  rw [ExtremeHeld.eq_def] at h
  rw [updateExtreme.eq_def]
  cases hnull : operand.value.isNull with
  | true =>
    have hrecord : ¬ Record least operands operand.value := by
      intro hrecord
      rw [hrecord.1] at hnull
      cases hnull
    rw [if_pos rfl]
    refine ⟨fun _ => ⟨extreme,rfl,?_⟩,fun hfails => absurd (fun hr => absurd hr hrecord) hfails⟩
    rw [ExtremeHeld.eq_def,extremeOf_append,hnull,if_pos rfl]
    exact h
  | false =>
    rw [if_neg Bool.false_ne_true]
    have happend:=extremeOf_append least operands operand.value
    rw [hnull,if_neg Bool.false_ne_true] at happend
    cases extreme with
    | none =>
      have hspec:=extremeOf_spec least operands
      simp only at h
      rw [h] at hspec happend
      have hrecord : Record least operands operand.value := by
        refine ⟨hnull,?_⟩
        intro other hother hvalue
        rw [hspec other hother] at hvalue
        cases hvalue
      constructor
      · intro hfits
        obtain ⟨owned,howned,howns⟩ := hok (hfits hrecord)
        refine ⟨some owned,?_,operand.value,happend,howns⟩
        exact congrArg (some <$> ·) howned
      · intro hfails
        exact congrArg (some <$> ·) (herror (Classical.not_imp.mp hfails).2)
    | some previous =>
      obtain ⟨held,hheld,howns⟩ := h
      have hread : previous.value 0 = some held := by
        rw [howns.value_eq]
        rfl
      have hrecord:=record_iff hheld hnull
      rw [hheld] at happend
      simp only [hread,orBatch,ok_bind,hrecord]
      simp only at happend
      cases hreplaces : replaces least operand.value held with
      | true =>
        rw [hreplaces,if_pos rfl] at happend
        rw [if_pos rfl]
        constructor
        · intro hfits
          obtain ⟨owned,howned,hnext⟩ := hok (hfits rfl)
          refine ⟨some owned,?_,operand.value,happend,hnext⟩
          exact congrArg (some <$> ·) howned
        · intro hfails
          exact congrArg (some <$> ·) (herror (Classical.not_imp.mp hfails).2)
      | false =>
        rw [hreplaces,if_neg Bool.false_ne_true] at happend
        rw [if_neg Bool.false_ne_true]
        exact ⟨fun _ => ⟨some previous,rfl,held,happend,howns⟩,fun hfails => by simp at hfails⟩

theorem aggregate_run (least : Bool) (operands : List Operand) :
    (RecordsFit least operands →
      ∃ extreme,(operands.map Operand.value).foldlM (updateExtreme least) none = .ok extreme ∧
        ExtremeHeld least (operands.map Operand.value) extreme) ∧
    (¬ RecordsFit least operands →
      (operands.map Operand.value).foldlM (updateExtreme least) none =
        .error .batchCapacity) := by
  induction operands using List.reverseRecOn with
  | nil =>
    refine ⟨fun _ => ⟨none,rfl,rfl⟩,fun hfails => absurd ?_ hfails⟩
    intro index operand hoperand
    cases hoperand
  | append_singleton operands operand ih =>
    have hsplit : RecordsFit least (operands++[operand]) ↔ RecordsFit least operands ∧
        (Record least (operands.map Operand.value) operand.value → MapsFit [operand.value]) := by
      constructor
      · intro hfits
        refine ⟨?_,?_⟩
        · intro index other hother hrecord
          have hlt:=(List.getElem?_eq_some_iff.mp hother).1
          apply hfits index other
          · rw [getElem?_append_left hlt,hother]
          · rwa [take_append_of_le_length hlt.le]
        · intro hrecord
          apply hfits operands.length operand
          · rw [getElem?_append_right (Nat.le_refl _),Nat.sub_self]
            rfl
          · rwa [take_left]
      · intro ⟨hfits,hlast⟩ index other hother hrecord
        by_cases hlt : index < operands.length
        · rw [getElem?_append_left hlt] at hother
          rw [take_append_of_le_length hlt.le] at hrecord
          exact hfits index other hother hrecord
        · have hend:=(List.getElem?_eq_some_iff.mp hother).1
          rw [length_append,length_singleton] at hend
          obtain rfl : index = operands.length := by omega
          rw [getElem?_append_right (Nat.le_refl _),Nat.sub_self] at hother
          obtain rfl := Option.some.inj hother
          rw [take_left] at hrecord
          exact hlast hrecord
    rw [hsplit,map_append,map_singleton,foldlM_append]
    constructor
    · intro ⟨hfits,hlast⟩
      obtain ⟨extreme,hextreme,hheld⟩ := ih.1 hfits
      obtain ⟨next,hnext,hnextHeld⟩ := (hheld.update operand).1 hlast
      refine ⟨next,?_,hnextHeld⟩
      rw [hextreme,ok_bind,foldlM_cons,hnext]
      rfl
    · intro hfails
      by_cases hfits : RecordsFit least operands
      · obtain ⟨extreme,hextreme,hheld⟩ := ih.1 hfits
        have hupdate:=(hheld.update operand).2 fun hlast => hfails ⟨hfits,hlast⟩
        rw [hextreme,ok_bind,foldlM_cons,hupdate]
        rfl
      · rw [ih.2 hfits]
        rfl

/-- Copies fit, and bounded operators succeed, exactly where the maps of what they keep fit. -/
theorem ownedCopies_iff (row : QueryRow) (least : Bool) (operands : List Operand)
    {capacity : StorageCapacity} {order : List Bool} (limit : ℕ)
    (offers : List (Offer capacity order)) :
    ((∃ owned,ownRow row.cells = .ok owned ∧ Owns owned row.cells) ↔ MapsFit row.cells) ∧
    (aggregateExtreme least (operands.map Operand.value) =
        .ok ((extremeOf least (operands.map Operand.value)).getD .null) ↔
      RecordsFit least operands) ∧
    ((∃ outputs,boundedSort capacity order limit offers = .ok outputs) ↔
      offers.length < 2^64 ∧ KeptFit order limit offers) := by
  refine ⟨?_,?_,?_⟩
  · refine ⟨?_,ownRow_ok row⟩
    intro ⟨owned,howned,_⟩
    by_contra hfails
    rw [ownRow_error row hfails] at howned
    cases howned
  · obtain ⟨hok,herror⟩ := aggregate_run least operands
    constructor
    · intro haggregate
      by_contra hfails
      rw [aggregateExtreme,herror hfails] at haggregate
      cases haggregate
    · intro hfits
      obtain ⟨extreme,hextreme,hheld⟩ := hok hfits
      rw [aggregateExtreme,hextreme,ok_bind,hheld.value_eq]
      rfl
  · constructor
    · intro ⟨outputs,hok⟩
      by_contra hfails
      obtain ⟨error,herror⟩ := boundedSort_error hfails
      rw [herror] at hok
      cases hok
    · intro ⟨hlength,hfits⟩
      exact ⟨_,boundedSort_ok hlength hfits⟩

theorem ownRow_fails_on_map :
    ¬ ∀ row : QueryRow,∃ owned,ownRow row.cells = .ok owned ∧ Owns owned row.cells := by
  intro hall
  obtain ⟨owned,howned,_⟩ := hall mapRow
  have herror : ownRow mapRow.cells = .error .batchCapacity := rfl
  rw [herror] at howned
  cases howned

end Zeppelin.Query
