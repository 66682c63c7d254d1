import Zeppelin.Query.CopySpec

/-! property_graph/query/relational/streaming.rs -/

namespace Zeppelin.Query
open List

mutual

/-- `measure`: a map is not entered, and packed ids are counted as children too. -/
def measure : BackedValue → Usage
  | .string bytes => taken .stringBytes bytes.length
  | .list values => taken .listCells values.length+measureList values
  | .nodes ids => taken .listCells ids.length+taken .nodeIds ids.length
  | .relationships ids => taken .listCells ids.length+taken .relationshipIds ids.length
  | _ => 0

def measureList : List BackedValue → Usage
  | [] => 0
  | value::values => measure value+measureList values

end

structure OwnedRow where
  arena : VariableArena
  cells : List Cell

def copyCells : List BackedValue → VariableArena →
    Except RuntimeError (List Cell × VariableArena)
  | [],arena => .ok ([],arena)
  | value::values,arena => do
    let (cell,next) ← copyValue value 0 arena
    let (cells,last) ← copyCells values next
    return (cell::cells,last)

def ownCapacity (values : List BackedValue) : Usage
  | .payloadBytes => maxQueryBytes
  | arena => measureList values arena

def ownRow (values : List BackedValue) : Except RuntimeError OwnedRow := do
  failIf (values.length > 256) .batch
  let (cells,arena) ← copyCells values (.empty (ownCapacity values))
  return ⟨arena,cells⟩

def OwnedRow.value (row : OwnedRow) (column : ℕ) : Option BackedValue :=
  row.cells[column]?.bind (row.arena.value maxListDepth)

structure QueryRow where
  cells : List BackedValue
  columns_le : cells.length ≤ 256
  depth_le : depthList cells ≤ maxListDepth
  payload_le : needList cells .payloadBytes ≤ maxQueryBytes

mutual

def mapNeed : BackedValue → Usage
  | .map entries => taken .listCells entries.length+needList entries
  | .list values => mapNeedList values
  | _ => 0

def mapNeedList : List BackedValue → Usage
  | [] => 0
  | value::values => mapNeed value+mapNeedList values

end

mutual

/-- The elements of packed lists outside the maps, measured as children but not copied so. -/
def packedElements : BackedValue → ℕ
  | .nodes ids | .relationships ids => ids.length
  | .list values => packedElementsList values
  | _ => 0

def packedElementsList : List BackedValue → ℕ
  | [] => 0
  | value::values => packedElements value+packedElementsList values

end

def MapsFit (values : List BackedValue) : Prop :=
  mapNeedList values .listCells ≤ packedElementsList values ∧
    mapNeedList values .stringBytes = 0 ∧ mapNeedList values .nodeIds = 0 ∧
      mapNeedList values .relationshipIds = 0

instance (values : List BackedValue) : Decidable (MapsFit values) :=
  inferInstanceAs (Decidable (_ ∧ _ ∧ _ ∧ _))

mutual

theorem measure_add_mapNeed {arena : Arena} (harena : arena ≠ .payloadBytes) :
    ∀ value : BackedValue,measure value arena+mapNeed value arena =
      value.need arena+taken .listCells (packedElements value) arena
  | .null => by simp [measure,mapNeed,BackedValue.need,packedElements,taken]
  | .bool _ | .i64 _ | .f64 _ | .nodeRef _ | .relRef _ => by
    simp [measure,mapNeed,BackedValue.need,packedElements,taken,harena]
  | .string _ => by simp [measure,mapNeed,BackedValue.need,packedElements,taken,harena]
  | .nodes _ | .relationships _ => by
    simp [measure,mapNeed,BackedValue.need,packedElements,taken,harena,Nat.add_comm]
  | .map _ => by simp [measure,mapNeed,BackedValue.need,packedElements,taken]
  | .list values => by
    have hlist:=measureList_add_mapNeedList _ harena values
    simp only [measure,mapNeed,BackedValue.need,packedElements,Pi.add_apply]
    omega

theorem measureList_add_mapNeedList (arena : Arena) (harena : arena ≠ .payloadBytes) :
    ∀ values : List BackedValue,measureList values arena+mapNeedList values arena =
      needList values arena+taken .listCells (packedElementsList values) arena
  | [] => by simp [measureList,mapNeedList,needList,packedElementsList,taken]
  | value::values => by
    have hvalue:=measure_add_mapNeed harena value
    have hrest:=measureList_add_mapNeedList _ harena values
    simp only [measureList,mapNeedList,needList,packedElementsList,Pi.add_apply]
    simp only [taken] at hvalue hrest ⊢
    split_ifs at hvalue hrest ⊢ <;> omega

end

theorem needList_le_iff (row : QueryRow) :
    needList row.cells ≤ ownCapacity row.cells ↔ MapsFit row.cells := by
  have hcells:=measureList_add_mapNeedList .listCells (by decide) row.cells
  have hbytes:=measureList_add_mapNeedList .stringBytes (by decide) row.cells
  have hnodes:=measureList_add_mapNeedList .nodeIds (by decide) row.cells
  have hids:=measureList_add_mapNeedList .relationshipIds (by decide) row.cells
  rw [taken_self] at hcells
  rw [taken_of_ne _ (by decide)] at hbytes hnodes hids
  constructor
  · intro h
    have hcellsLe : needList row.cells .listCells ≤ measureList row.cells .listCells := h _
    have hbytesLe : needList row.cells .stringBytes ≤ measureList row.cells .stringBytes := h _
    have hnodesLe : needList row.cells .nodeIds ≤ measureList row.cells .nodeIds := h _
    have hidsLe : needList row.cells .relationshipIds ≤ measureList row.cells .relationshipIds :=
      h _
    exact ⟨by omega,by omega,by omega,by omega⟩
  · intro ⟨hcellsFit,hbytesFit,hnodesFit,hidsFit⟩ arena
    cases arena with
    | payloadBytes => exact row.payload_le
    | stringBytes => exact (show _ ≤ measureList row.cells .stringBytes by omega)
    | listCells => exact (show _ ≤ measureList row.cells .listCells by omega)
    | nodeIds => exact (show _ ≤ measureList row.cells .nodeIds by omega)
    | relationshipIds => exact (show _ ≤ measureList row.cells .relationshipIds by omega)

theorem empty_usage (limit : Usage) : (VariableArena.empty limit).usage = 0 := by
  funext arena
  cases arena <;> rfl

theorem copyCells_ok : ∀ {values : List BackedValue} {arena : VariableArena},
    depthList values ≤ maxListDepth → arena.usage+needList values ≤ arena.limit →
    ∃ cells next,copyCells values arena = .ok (cells,next) ∧
      arena.Extends (fun _ => True) next ∧ next.usage = arena.usage+needList values ∧
        List.Forall₂ (fun value cell => value.Held next arena.children.length cell) values cells
  | [],arena,_,_ => ⟨[],arena,rfl,.refl _ arena,(add_zero _).symm,.nil⟩
  | value::values,arena,hdepth,hfits => by
    rw [depthList] at hdepth
    rw [needList,← add_assoc] at hfits
    obtain ⟨cell,next,hcopy,hextends,husage,hheld⟩ := copyValue_ok 0 arena
      value (by omega) (le_of_add_le hfits)
    rw [← husage,← hextends.limit_eq] at hfits
    obtain ⟨cells,last,hcells,hlast,hlastUsage,hrest⟩ := copyCells_ok (by omega) hfits
    refine ⟨cell::cells,last,?_,(hextends.trans hlast).mono fun _ _ _ => ⟨trivial,trivial⟩,
      ?_,.cons ?_ ?_⟩
    · rw [copyCells,hcopy,ok_bind]
      dsimp only
      rw [hcells]
      rfl
    · rw [hlastUsage,husage,needList,add_assoc]
    · exact hheld.extends hlast (fun _ _ => trivial) (Nat.le_refl _)
    · apply hrest.imp
      intro other held hother
      exact hother.extends (.refl (fun _ => True) last) (fun _ _ => trivial) hextends.length_le

theorem copyCells_error : ∀ {values : List BackedValue} {arena : VariableArena},
    arena.usage ≤ arena.limit → depthList values ≤ maxListDepth →
    ¬ arena.usage+needList values ≤ arena.limit →
    copyCells values arena = .error .batchCapacity
  | [],arena,hbounded,_,hfits => by
    rw [needList,add_zero] at hfits
    exact absurd hbounded hfits
  | value::values,arena,hbounded,hdepth,hfits => by
    rw [depthList] at hdepth
    rw [needList,← add_assoc] at hfits
    rw [copyCells]
    by_cases hvalue : arena.usage+value.need ≤ arena.limit
    · obtain ⟨cell,next,hcopy,hextends,husage,-⟩ := copyValue_ok 0 arena
        value (by omega) hvalue
      rw [← husage,← hextends.limit_eq] at hvalue hfits
      rw [hcopy,ok_bind]
      dsimp only
      rw [copyCells_error hvalue (by omega) hfits,error_bind]
    · rw [copyValue_error hbounded (by omega) hvalue,error_bind]

structure Owns (owned : OwnedRow) (values : List BackedValue) : Prop where
  length_eq : owned.cells.length = values.length
  value_eq : ∀ column,owned.value column = values[column]?

theorem depth_le_of_mem {value : BackedValue} : ∀ {values : List BackedValue},value ∈ values →
    value.depth ≤ depthList values
  | _::values,hmem => by
    rw [depthList]
    rcases mem_cons.mp hmem with rfl | hmem
    · exact Nat.le_max_left _ _
    · exact (depth_le_of_mem hmem).trans (Nat.le_max_right _ _)

theorem ownRow_ok (row : QueryRow) (h : MapsFit row.cells) :
    ∃ owned,ownRow row.cells = .ok owned ∧ Owns owned row.cells := by
  have hfits : (VariableArena.empty (ownCapacity row.cells)).usage+needList row.cells ≤
      (VariableArena.empty (ownCapacity row.cells)).limit := by
    rw [empty_usage,zero_add]
    exact (needList_le_iff row).mpr h
  obtain ⟨cells,next,hcells,-,-,hheld⟩ := copyCells_ok row.depth_le hfits
  refine ⟨⟨next,cells⟩,?_,hheld.length_eq.symm,?_⟩
  · rw [ownRow,failIf_neg _ (by have := row.columns_le; omega),ok_bind,hcells]
    rfl
  · intro column
    rw [OwnedRow.value]
    by_cases hcolumn : column < row.cells.length
    · have hcell : column < cells.length := hheld.length_eq ▸ hcolumn
      have hvalue:=hheld.get hcolumn hcell
      rw [getElem?_eq_getElem hcell,Option.bind_some,getElem?_eq_getElem hcolumn]
      apply BackedValue.Held.read hvalue
      exact (depth_le_of_mem (getElem_mem hcolumn)).trans row.depth_le
    · rw [getElem?_eq_none (by rw [← hheld.length_eq]; omega),
        getElem?_eq_none (by omega)]
      rfl

theorem ownRow_error (row : QueryRow) (h : ¬ MapsFit row.cells) :
    ownRow row.cells = .error .batchCapacity := by
  rw [ownRow,failIf_neg _ (by have := row.columns_le; omega),ok_bind,copyCells_error,error_bind]
  · rw [empty_usage]
    exact fun _ => Nat.zero_le _
  · exact row.depth_le
  · rw [empty_usage,zero_add]
    exact (needList_le_iff row).not.mpr h

/-! property_graph/query/pattern.rs, runtime/batch.rs -/

structure RelationshipUse where
  pattern : ℕ
  origin : ℕ
  relationship : ℕ
  deriving DecidableEq

abbrev Output := List BackedValue × List RelationshipUse

def useCapacity (capacity : StorageCapacity) : ℕ := max capacity.rows 16

/-- `copy_relationship_uses_slice` -/
def copyUses (capacity : ℕ) : List RelationshipUse → List RelationshipUse →
    Except RuntimeError (List RelationshipUse)
  | [],uses => .ok uses
  | usage::rest,uses =>
    if usage ∈ uses then copyUses capacity rest uses
    else if uses.length = capacity then .error .memory
    else copyUses capacity rest (uses++[usage])

structure Pulled (capacity : StorageCapacity) extends QueryRow where
  fits : needList cells ≤ capacity.limit
  uses : List RelationshipUse
  distinct : uses.Nodup
  bounded : uses.length ≤ useCapacity capacity

def Pulled.output {capacity : StorageCapacity} (pulled : Pulled capacity) : Output :=
  (pulled.cells,pulled.uses)

def emitRow (capacity : StorageCapacity) (cells : List BackedValue)
    (uses : List RelationshipUse) : Except RuntimeError Output := do
  let _ ← (RowBatch.empty 1 capacity.limit).push needList cells
  let copied ← copyUses (useCapacity capacity) uses []
  return (cells,copied)

theorem copyUses_ok {capacity : ℕ} : ∀ {source uses : List RelationshipUse},
    (uses++source).Nodup → (uses++source).length ≤ capacity →
    copyUses capacity source uses = .ok (uses++source)
  | [],uses,_,_ => by rw [copyUses,append_nil]
  | usage::rest,uses,hdistinct,hbounded => by
    have hfresh : usage ∉ uses := by
      intro hmem
      have hdisjoint:=disjoint_of_nodup_append hdistinct
      exact hdisjoint hmem mem_cons_self
    have hroom : uses.length ≠ capacity := by
      rw [length_append,length_cons] at hbounded
      omega
    rw [copyUses,if_neg hfresh,if_neg hroom,copyUses_ok]
    · rw [append_assoc,singleton_append]
    · rwa [append_assoc,singleton_append]
    · rwa [append_assoc,singleton_append]

theorem emitRow_eq {capacity : StorageCapacity} {cells : List BackedValue}
    {uses : List RelationshipUse} (hfits : needList cells ≤ capacity.limit)
    (hdistinct : uses.Nodup) (hbounded : uses.length ≤ useCapacity capacity) :
    emitRow capacity cells uses = .ok (cells,uses) := by
  have hpush : (RowBatch.empty 1 capacity.limit).push needList cells =
      .ok ⟨1,capacity.limit,[cells]⟩ := by
    rw [RowBatch.push,if_neg (by simp [RowBatch.empty]),if_pos]
    · rfl
    · intro arena
      simpa [RowBatch.empty] using hfits arena
  have huses : copyUses (useCapacity capacity) uses [] = .ok uses :=
    copyUses_ok hdistinct hbounded
  rw [emitRow,hpush,ok_bind,huses]
  rfl

theorem emitRow_ok {capacity : StorageCapacity} (pulled : Pulled capacity) :
    emitRow capacity pulled.cells pulled.uses = .ok pulled.output :=
  emitRow_eq pulled.fits pulled.distinct pulled.bounded

def defaultCapacity : StorageCapacity where
  rows := 1024
  maxRows := 65536
  limit
    | .payloadBytes => maxQueryBytes
    | .stringBytes => 64*1024
    | .listCells => 4096
    | .nodeIds => min 524288 (maxQueryBytes / 16)
    | .relationshipIds => 1024

end Zeppelin.Query
