import Mathlib.Data.Finset.Card
import Mathlib.Data.Multiset.Bind
import Zeppelin.Collections.Chains
import Zeppelin.Query.Join

namespace Zeppelin.Query
open Machine List
open Collections

def cellAt (schema : List ℕ) (cells : List BackedValue) (slot : ℕ) : BackedValue :=
  ((column schema slot).bind fun column => cells[column]?).getD .null

variable {slot : ℕ} {cells : List BackedValue} {slots : List ℕ}

theorem column_isSome {schema : List ℕ} : (column schema slot).isSome = true ↔ slot ∈ schema := by
  rw [column,findIdx?_isSome]
  simp

theorem column_lt {schema : List ℕ} {index : ℕ} (h : column schema slot = some index) :
    index < schema.length := by
  rw [column,findIdx?_eq_some_iff_getElem] at h
  exact h.1

theorem slotValue_ok {schema : List ℕ}
    (hcells : cells.length = schema.length) (hslot : slot ∈ schema) :
    slotValue schema cells slot = .ok (cellAt schema cells slot) := by
  obtain ⟨index,hindex⟩ := Option.isSome_iff_exists.mp (column_isSome.mpr hslot)
  have hlt : index < cells.length := hcells ▸ column_lt hindex
  rw [slotValue,cellAt,hindex]
  simp [orBatch,hlt]

def Has (schema : List ℕ) (cells : List BackedValue) (slots : List ℕ) : Prop :=
  cells.length = schema.length ∧ ∀ slot ∈ slots,slot ∈ schema

theorem Has.tail {schema : List ℕ}
    (h : Has schema cells (slot::slots)) : Has schema cells slots :=
  ⟨h.1,fun other hother => h.2 other (mem_cons_of_mem _ hother)⟩

theorem Has.head {schema : List ℕ} (h : Has schema cells (slot::slots)) :
    slotValue schema cells slot = .ok (cellAt schema cells slot) :=
  slotValue_ok h.1 (h.2 slot mem_cons_self)

def agreesOn (schema : List ℕ) (cells : List BackedValue) (otherSchema : List ℕ)
    (otherCells : List BackedValue) (slots : List ℕ) : Bool :=
  slots.all fun slot =>
    (cellAt schema cells slot).value.predicateEqual (cellAt otherSchema otherCells slot).value =
      .true

theorem agreesOn_comm (schema : List ℕ) (cells : List BackedValue) (otherSchema : List ℕ)
    (otherCells : List BackedValue) (slots : List ℕ) :
    agreesOn schema cells otherSchema otherCells slots =
      agreesOn otherSchema otherCells schema cells slots := by
  unfold agreesOn
  congr 1
  funext slot
  exact decide_eq_decide.mpr (predicateEqual_comm _ _)

theorem retained_eq {truth : Truth} : truth.retained = decide (truth = .true) := by
  cases truth <;> rfl

theorem rowsJoin_ok {schema otherSchema : List ℕ} {otherCells : List BackedValue}
    (h : Has schema cells slots) (hother : Has otherSchema otherCells slots) :
    rowsJoin schema cells otherSchema otherCells slots =
      .ok (agreesOn schema cells otherSchema otherCells slots) := by
  induction slots with
  | nil => rfl
  | cons slot slots ih =>
    rw [rowsJoin,h.head,ok_bind,hother.head,ok_bind,agreesOn,all_cons,retained_eq]
    split_ifs with hequal
    · rw [hequal,Bool.true_and]
      exact ih h.tail hother.tail
    · rw [Bool.not_eq_true] at hequal
      rw [hequal,Bool.false_and]
      rfl

def slotsHash (digest : List UInt8 → UInt64) (schema : List ℕ) (cells : List BackedValue)
    (slots : List ℕ) (hash : UInt64) : UInt64 :=
  slots.foldl (fun hash slot => mixHash hash (digest (cellAt schema cells slot).value.hashInto))
    hash

theorem slotsHash_cons (digest : List UInt8 → UInt64) (schema : List ℕ) (cells : List BackedValue)
    (slot : ℕ) (slots : List ℕ) (hash : UInt64) :
    slotsHash digest schema cells (slot::slots) hash =
      slotsHash digest schema cells slots
        (mixHash hash (digest (cellAt schema cells slot).value.hashInto)) := by
  rw [slotsHash,slotsHash,foldl_cons]

theorem rowHash_ok (digest : List UInt8 → UInt64) {schema : List ℕ}
    (h : Has schema cells slots) (hash : UInt64) :
    rowHash digest schema cells slots hash = .ok (slotsHash digest schema cells slots hash) := by
  induction slots generalizing hash with
  | nil => rw [rowHash,slotsHash,foldl_nil]
  | cons slot slots ih => rw [rowHash,h.head,ok_bind,ih h.tail,slotsHash_cons]

theorem slotsHash_congr (digest : List UInt8 → UInt64) {schema otherSchema : List ℕ}
    {otherCells : List BackedValue}
    (h : agreesOn schema cells otherSchema otherCells slots = true) (hash : UInt64) :
    slotsHash digest schema cells slots hash =
      slotsHash digest otherSchema otherCells slots hash := by
  induction slots generalizing hash with
  | nil => rw [slotsHash,slotsHash,foldl_nil,foldl_nil]
  | cons slot slots ih =>
    rw [agreesOn,all_cons,Bool.and_eq_true] at h
    have hbytes:=hashInto_of_predicateEqual (of_decide_eq_true h.1)
    rw [slotsHash_cons,slotsHash_cons,hbytes]
    exact ih h.2 _

structure Retains (capacity : StorageCapacity) (rows : List ChildRow) (retained : RetainedRows) :
    Prop where
  maxRows_eq : retained.rows.maxRows = capacity.rows
  limit_eq : retained.rows.limit = capacity.limit
  rows_eq : retained.rows.rows = rows.map ChildRow.cells
  spans_eq : retained.spans.values = spansFrom 0 (rows.map ChildRow.uses)
  spans_capacity : retained.spans.capacity = capacity.rows
  uses_eq : retained.uses.values = (rows.map ChildRow.uses).flatten
  uses_capacity : retained.uses.capacity = capacity.rows*16

structure Holds (capacity : StorageCapacity) (rows : List ChildRow) : Prop where
  count : rows.length ≤ capacity.rows
  cells : ∀ arena,(rows.map fun row => needList row.cells arena).sum ≤ capacity.limit arena
  uses : (rows.map fun row => row.uses.length).sum ≤ capacity.rows*16

theorem retains_new (capacity : StorageCapacity) : Retains capacity [] (.new capacity) :=
  ⟨rfl,rfl,rfl,rfl,rfl,rfl,rfl⟩

theorem Holds.init {capacity : StorageCapacity} {rows more : List ChildRow}
    (h : Holds capacity (rows++more)) : Holds capacity rows where
  count := by
    have := h.count
    rw [length_append] at this
    omega
  cells := by
    intro arena
    have := h.cells arena
    rw [map_append,sum_append] at this
    omega
  uses := by
    have := h.uses
    rw [map_append,sum_append] at this
    omega

theorem holds_nil (capacity : StorageCapacity) : Holds capacity [] :=
  ⟨Nat.zero_le _,fun _ => Nat.zero_le _,Nat.zero_le _⟩

theorem holds_snoc {capacity : StorageCapacity} {rows : List ChildRow} {child : ChildRow} :
    Holds capacity (rows++[child]) ↔
      rows.length < capacity.rows ∧
        (∀ arena,(rows.map fun row => needList row.cells arena).sum+needList child.cells arena ≤
          capacity.limit arena) ∧
          (rows.map fun row => row.uses.length).sum+child.uses.length ≤ capacity.rows*16 := by
  constructor
  · intro ⟨hcount,hcells,huses⟩
    simp only [length_append,length_singleton,map_append,sum_append,
      map_singleton,sum_singleton] at hcount hcells huses
    exact ⟨hcount,hcells,huses⟩
  · intro ⟨hcount,hcells,huses⟩
    constructor
    · rw [length_append]
      exact hcount
    · intro arena
      rw [map_append,sum_append,map_singleton,sum_singleton]
      exact hcells arena
    · rw [map_append,sum_append,map_singleton,sum_singleton]
      exact huses

section Retained

variable {capacity : StorageCapacity} {rows children : List ChildRow} {child : ChildRow}
  {retained next : RetainedRows}

theorem Retains.sum_cells (h : Retains capacity rows retained) (arena : Arena) :
    (retained.rows.rows.map fun row => needList row arena).sum =
      (rows.map fun row => needList row.cells arena).sum := by
  rw [h.rows_eq,map_map]
  rfl

theorem Retains.length_uses (h : Retains capacity rows retained) :
    retained.uses.values.length = (rows.map fun row => row.uses.length).sum := by
  rw [h.uses_eq,length_flatten,map_map]
  rfl

theorem Retains.length_spans (h : Retains capacity rows retained) :
    retained.spans.values.length = rows.length := by
  rw [h.spans_eq,length_spansFrom,length_map]

theorem Retains.snoc (h : Retains capacity rows retained) {batch : RowBatch (List BackedValue)}
    {uses : QueryArena RelationshipUse} {spans : QueryArena UseSpan}
    (hbatch : retained.rows.push needList child.cells = .ok batch)
    (huses : child.uses.foldlM QueryArena.push retained.uses = .ok uses)
    (hspans : retained.spans.push ⟨retained.uses.values.length,child.uses.length⟩ = .ok spans) :
    Retains capacity (rows++[child]) ⟨batch,spans,uses⟩ ∧ Holds capacity (rows++[child]) := by
  obtain ⟨hvalues,hsame⟩ := QueryArena.extend_eq huses
  obtain ⟨hspan,hspanSame⟩ := QueryArena.push_eq hspans
  have hbounded:=uses.bounded
  rw [hvalues,hsame,length_append,h.length_uses,h.uses_capacity] at hbounded
  unfold RowBatch.push at hbatch
  split_ifs at hbatch with hfull hfits
  obtain rfl := Except.ok.inj hbatch
  rw [h.rows_eq,length_map,h.maxRows_eq] at hfull
  constructor
  · constructor
    · exact h.maxRows_eq
    · exact h.limit_eq
    · rw [map_append,← h.rows_eq]
      rfl
    · rw [map_append,map_singleton,spansFrom_append,← h.spans_eq,hspan,
        h.uses_eq,Nat.zero_add]
    · exact hspanSame.trans h.spans_capacity
    · rw [hvalues,h.uses_eq,map_append,flatten_append,map_singleton,
        flatten_singleton]
    · exact hsame.trans h.uses_capacity
  · apply holds_snoc.mpr
    refine ⟨by omega,?_,hbounded⟩
    intro arena
    have hcells:=hfits arena
    rwa [h.sum_cells,h.limit_eq] at hcells

theorem drainOccurrence_eq (h : Retains capacity rows retained) (hholds : Holds capacity rows)
    (hdrain : drainOccurrence children retained = .ok next) :
    Retains capacity (rows++children) next ∧ Holds capacity (rows++children) := by
  induction children generalizing rows retained with
  | nil =>
    obtain rfl := Except.ok.inj hdrain
    rw [append_nil]
    exact ⟨h,hholds⟩
  | cons child children ih =>
    rw [drainOccurrence] at hdrain
    obtain ⟨batch,hbatch,hdrain⟩ := bind_eq_ok hdrain
    obtain ⟨uses,huses,hdrain⟩ := bind_eq_ok hdrain
    obtain ⟨spans,hspans,hdrain⟩ := bind_eq_ok hdrain
    obtain ⟨hretains,hheld⟩ := h.snoc hbatch huses hspans
    rw [append_cons]
    exact ih hretains hheld hdrain

theorem drainOccurrence_ok (h : Retains capacity rows retained)
    (hholds : Holds capacity (rows++children)) :
    ∃ next,drainOccurrence children retained = .ok next := by
  induction children generalizing rows retained with
  | nil => exact ⟨retained,rfl⟩
  | cons child children ih =>
    rw [append_cons] at hholds
    obtain ⟨hcount,hcells,hroom⟩ := holds_snoc.mp hholds.init
    have hbatch : ∃ batch,retained.rows.push needList child.cells = .ok batch := by
      rw [RowBatch.push,if_neg,if_pos]
      · exact ⟨_,rfl⟩
      · intro arena
        rw [h.sum_cells,h.limit_eq]
        exact hcells arena
      · rw [h.rows_eq,length_map,h.maxRows_eq]
        omega
    obtain ⟨batch,hbatch⟩ := hbatch
    obtain ⟨uses,huses⟩ : ∃ uses,child.uses.foldlM QueryArena.push retained.uses = .ok uses := by
      apply QueryArena.extend_ok
      rw [h.length_uses,h.uses_capacity]
      exact hroom
    obtain ⟨spans,hspans⟩ :
        ∃ spans,retained.spans.push ⟨retained.uses.values.length,child.uses.length⟩ =
          .ok spans := by
      apply QueryArena.push_ok
      rw [h.length_spans,h.spans_capacity]
      exact hcount
    obtain ⟨next,hnext⟩ := ih (h.snoc hbatch huses hspans).1 hholds
    refine ⟨next,?_⟩
    rw [drainOccurrence,hbatch,ok_bind,huses,ok_bind,hspans,ok_bind]
    exact hnext

theorem Retains.row_eq (h : Retains capacity rows retained) {row : ℕ}
    (hrow : rows[row]? = some child) :
    retained.rows.rows[row]? = some child.cells ∧ retained.span row = .ok child.uses := by
  constructor
  · rw [h.rows_eq,getElem?_map,hrow]
    rfl
  · have huses : (rows.map ChildRow.uses)[row]? = some child.uses := by
      rw [getElem?_map,hrow]
      rfl
    obtain ⟨start,hspan,hslice⟩ := slice_span (rows.map ChildRow.uses) [] huses
    rw [nil_append] at hslice
    rw [length_nil] at hspan
    rw [RetainedRows.span,h.spans_eq,h.uses_eq,hspan]
    simp only [orBatch,ok_bind,hslice]

end Retained

section Index

variable (digest : List UInt8 → UInt64) (schema shared : List ℕ) (rows : List ChildRow)
  (bucketCount : ℕ)

def retainedHash (row : ChildRow) : UInt64 := slotsHash digest schema row.cells shared hashSeed

def retainedBucket (row : ℕ) : ℕ :=
  (rows[row]?.elim 0 fun found => (retainedHash digest schema shared found).toNat % bucketCount)

structure Indexed (count : ℕ) (index : HashIndex) : Prop where
  heads_length : index.heads.length = bucketCount
  links_length : index.links.length = count
  hashes_eq : index.hashes = (rows.take count).map (retainedHash digest schema shared)
  chained : Chained (retainedBucket digest schema shared rows bucketCount) index.heads index.links

variable {digest schema shared rows bucketCount} {capacity : StorageCapacity}
  {retained : RetainedRows} {index : HashIndex} {count : ℕ}

theorem Indexed.insert (h : Indexed digest schema shared rows bucketCount count index)
    (hretains : Retains capacity rows retained) (hpositive : 0 < bucketCount)
    (hcount : count < rows.length) (hcapacity : rows.length ≤ capacity.rows)
    (hhas : ∀ row ∈ rows,Has schema row.cells shared) :
    ∃ next,indexRow digest schema shared retained capacity.rows index count = .ok next ∧
      Indexed digest schema shared rows bucketCount (count+1) next := by
  have hrow : rows[count]? = some rows[count] := getElem?_eq_getElem hcount
  have hhash:=rowHash_ok digest (hhas rows[count] (getElem_mem hcount)) hashSeed
  have hbucket : index.bucket (retainedHash digest schema shared rows[count]) =
      retainedBucket digest schema shared rows bucketCount count := by
    rw [HashIndex.bucket,h.heads_length,retainedBucket,hrow]
    rfl
  obtain ⟨head,hhead⟩ : ∃ head,
      index.heads[retainedBucket digest schema shared rows bucketCount count]? = some head := by
    refine ⟨_,getElem?_eq_getElem ?_⟩
    rw [← hbucket,HashIndex.bucket,h.heads_length]
    exact Nat.mod_lt _ hpositive
  have hhashes : index.hashes.length = count := by
    rw [h.hashes_eq,length_map,length_take]
    omega
  have hlinks : pushTo capacity.rows index.links head = .ok (index.links++[head]) :=
    if_neg (by rw [h.links_length]; omega)
  have hpush (hash : UInt64) :
      pushTo capacity.rows index.hashes hash = .ok (index.hashes++[hash]) :=
    if_neg (by rw [hhashes]; omega)
  have hlast (hash : UInt64) : (index.hashes++[hash]).length-1 = count := by
    rw [length_append,length_singleton,hhashes,Nat.add_sub_cancel]
  refine ⟨⟨index.heads.set (retainedBucket digest schema shared rows bucketCount count)
    (some count),index.links++[head],
    index.hashes++[retainedHash digest schema shared rows[count]]⟩,?_,?_,?_,?_,?_⟩
  · rw [indexRow,(hretains.row_eq hrow).1]
    simp only [orBatch,ok_bind]
    rw [hhash,ok_bind,← retainedHash,hbucket,hhead]
    simp only [ok_bind,hlinks,hpush,hlast]
    rfl
  · rw [length_set,h.heads_length]
  · rw [length_append,length_singleton,h.links_length]
  · rw [h.hashes_eq,take_add_one,map_append,hrow]
    rfl
  · have hlength:=h.links_length
    subst hlength
    exact h.chained.insert hhead

theorem buildHashIndex_ok (hretains : Retains capacity rows retained) (hpositive : 0 < bucketCount)
    (hcapacity : rows.length ≤ capacity.rows) (hhas : ∀ row ∈ rows,Has schema row.cells shared) :
    ∃ index,buildHashIndex digest schema shared retained capacity.rows bucketCount = .ok index ∧
      Indexed digest schema shared rows bucketCount rows.length index := by
  have hall : ∀ count ≤ rows.length,∃ index,(List.range count).foldlM
      (indexRow digest schema shared retained capacity.rows)
      ⟨List.replicate bucketCount none,[],[]⟩ = .ok index ∧
        Indexed digest schema shared rows bucketCount count index := by
    intro count
    induction count with
    | zero =>
      intro _
      exact ⟨_,rfl,length_replicate,rfl,rfl,chained_replicate _ _⟩
    | succ count ih =>
      intro hcount
      obtain ⟨index,hindex,hindexed⟩ := ih (by omega)
      obtain ⟨next,hnext,hdone⟩ := hindexed.insert hretains hpositive hcount hcapacity hhas
      refine ⟨next,?_,hdone⟩
      rw [range_succ,foldlM_append_ok hindex,foldlM_cons,hnext]
      rfl
  have hlength : retained.rows.rows.length = rows.length := by
    rw [hretains.rows_eq,length_map]
  rw [buildHashIndex,hlength]
  exact hall rows.length le_rfl

end Index

theorem usesCompatible_iff {left right : List RelationshipUse} :
    usesCompatible left right = true ↔ ∀ l ∈ left,∀ r ∈ right,
      l.pattern = r.pattern → l.relationship = r.relationship → l.origin = r.origin := by
  unfold usesCompatible
  simp

theorem usesCompatible_comm (left right : List RelationshipUse) :
    usesCompatible left right = usesCompatible right left := by
  rw [Bool.eq_iff_iff,usesCompatible_iff,usesCompatible_iff]
  constructor
  · intro h r hr l hl hpattern hrelationship
    exact (h l hl r hr hpattern.symm hrelationship.symm).symm
  · intro h r hr l hl hpattern hrelationship
    exact (h l hl r hr hpattern.symm hrelationship.symm).symm

theorem toFinset_copyUses {capacity : ℕ} {source uses : List RelationshipUse}
    (hdistinct : uses.Nodup) (hbounded : uses.length ≤ capacity) :
    List.toFinset <$> copyUses capacity source uses =
      if (uses++source).toFinset.card ≤ capacity then .ok (uses++source).toFinset
      else .error .memory := by
  induction source generalizing uses with
  | nil =>
    rw [append_nil,toFinset_card_of_nodup hdistinct,if_pos hbounded]
    rfl
  | cons usage rest ih =>
    rw [copyUses]
    by_cases hmem : usage ∈ uses
    · have hsame : (uses++usage::rest).toFinset = (uses++rest).toFinset := by
        ext other
        simp only [mem_toFinset,mem_append,mem_cons]
        constructor
        · rintro (h | rfl | h)
          · exact .inl h
          · exact .inl hmem
          · exact .inr h
        · rintro (h | h)
          · exact .inl h
          · exact .inr (.inr h)
      rw [if_pos hmem,ih hdistinct hbounded,hsame]
    · have hfresh : (uses++[usage]).Nodup :=
        hdistinct.append (nodup_singleton usage) (disjoint_singleton.mpr hmem)
      rw [if_neg hmem]
      by_cases hfull : uses.length = capacity
      · have hmore : capacity < (uses++usage::rest).toFinset.card := by
          have hsub : (uses++[usage]).toFinset ⊆ (uses++usage::rest).toFinset := by
            intro other
            simp only [mem_toFinset,mem_append,mem_cons]
            tauto
          have hcard:=Finset.card_le_card hsub
          rw [toFinset_card_of_nodup hfresh,length_append,length_singleton] at hcard
          omega
        rw [if_pos hfull,if_neg (Nat.not_le.mpr hmore)]
        rfl
      · rw [if_neg hfull,ih hfresh,append_cons uses usage rest]
        rw [length_append,length_singleton]
        omega

abbrev Bagged := List BackedValue × Finset RelationshipUse

def Output.bagged (out : Output) : Bagged := (out.1,out.2.toFinset)

namespace Join

variable (join : Join)

def agrees (left right : ChildRow) : Bool :=
  agreesOn join.left.schema left.cells join.right.schema right.cells join.shared

def joins (left right : ChildRow) : Bool :=
  join.agrees left right && usesCompatible left.uses right.uses

def combinedCell (left right : ChildRow) (slot : ℕ) : BackedValue :=
  if slot ∈ join.left.schema then cellAt join.left.schema left.cells slot
  else cellAt join.right.schema right.cells slot

def combinedCells (left right : ChildRow) : List BackedValue :=
  join.schema.map (join.combinedCell left right)

/-- The row is put out where the predicate keeps it. -/
def offerRow (cells : List BackedValue) (uses : List RelationshipUse) :
    Except RuntimeError (Option Output) := do
  let output ← emitRow join.capacity cells uses
  let retained ← join.predicateRetained output.1
  return if retained then some output else none

variable {join}

theorem shared_mem {slot : ℕ} (h : slot ∈ join.shared) :
    slot ∈ join.left.schema ∧ slot ∈ join.right.schema := by
  have hboth:=mem_filter.mp h
  exact ⟨hboth.1,of_decide_eq_true hboth.2⟩

variable {left right : ChildRow}

theorem has_left (h : left ∈ join.left.rows) : Has join.left.schema left.cells join.shared :=
  ⟨join.left.covers left h,fun _ hslot => (shared_mem hslot).1⟩

theorem has_right (h : right ∈ join.right.rows) : Has join.right.schema right.cells join.shared :=
  ⟨join.right.covers right h,fun _ hslot => (shared_mem hslot).2⟩

theorem schema_mem {slot : ℕ} (h : slot ∈ join.schema) :
    slot ∈ join.left.schema ∨ slot ∈ join.right.schema := by
  rcases mem_append.mp h with hleft | hright
  · exact .inl hleft
  · exact .inr (mem_filter.mp hright).1

theorem offer_eq {cell : ℕ → Except RuntimeError BackedValue}
    (h : ∀ slot ∈ join.schema,cell slot = .ok (join.combinedCell left right slot))
    (uses : List RelationshipUse) :
    join.offer cell uses = join.offerRow (join.combinedCells left right) uses := by
  have hcells : join.schema.mapM cell = .ok (join.combinedCells left right) := by
    unfold combinedCells
    generalize join.schema = slots at h
    induction slots with
    | nil => rfl
    | cons slot slots ih =>
      rw [mapM_cons,h slot mem_cons_self,ok_bind,
        ih fun other hother => h other (mem_cons_of_mem _ hother)]
      rfl
  rw [offer,hcells]
  rfl

theorem currentPair_eq (hleft : left ∈ join.left.rows) (hright : right ∈ join.right.rows) :
    join.currentPair left right =
      if join.joins left right then
        join.offerRow (join.combinedCells left right) (left.uses++right.uses)
      else .ok none := by
  have hcell : ∀ slot ∈ join.schema,
      join.currentCell left right slot = .ok (join.combinedCell left right slot) := by
    intro slot hslot
    by_cases hmem : slot ∈ join.left.schema
    · obtain ⟨source,hsource⟩ := Option.isSome_iff_exists.mp (column_isSome.mpr hmem)
      have hvalue:=slotValue_ok (join.left.covers left hleft) hmem
      rw [slotValue,hsource] at hvalue
      rw [currentCell,combinedCell,if_pos hmem,hsource]
      exact hvalue
    · have hright':=(schema_mem hslot).resolve_left hmem
      rw [currentCell,combinedCell,if_neg hmem,column_eq_none hmem]
      exact slotValue_ok (join.right.covers right hright) hright'
  rw [currentPair,rowsJoin_ok (has_left hleft) (has_right hright),ok_bind,offer_eq hcell]
  rfl

def leftOf (side : BuildSide) (probe build : ChildRow) : ChildRow :=
  match side with
  | .left => build
  | .right => probe

def rightOf (side : BuildSide) (probe build : ChildRow) : ChildRow :=
  match side with
  | .left => probe
  | .right => build

section Sides

variable {side : BuildSide} {probe build : ChildRow}

theorem leftOf_mem (hprobe : probe ∈ (join.probe side).rows)
    (hbuild : build ∈ (join.build side).rows) : leftOf side probe build ∈ join.left.rows := by
  cases side with
  | left => exact hbuild
  | right => exact hprobe

theorem rightOf_mem (hprobe : probe ∈ (join.probe side).rows)
    (hbuild : build ∈ (join.build side).rows) : rightOf side probe build ∈ join.right.rows := by
  cases side with
  | left => exact hprobe
  | right => exact hbuild

theorem has_probe (h : probe ∈ (join.probe side).rows) :
    Has (join.probe side).schema probe.cells join.shared := by
  cases side with
  | left => exact has_right h
  | right => exact has_left h

theorem has_build (h : build ∈ (join.build side).rows) :
    Has (join.build side).schema build.cells join.shared := by
  cases side with
  | left => exact has_left h
  | right => exact has_right h

theorem agreesOn_sides : agreesOn (join.probe side).schema probe.cells (join.build side).schema
    build.cells join.shared = join.agrees (leftOf side probe build) (rightOf side probe build) := by
  cases side with
  | left => exact agreesOn_comm ..
  | right => rfl

theorem compatible_sides : usesCompatible probe.uses build.uses =
    usesCompatible (leftOf side probe build).uses (rightOf side probe build).uses := by
  cases side with
  | left => exact usesCompatible_comm ..
  | right => rfl

theorem hashCell_eq (hprobe : probe ∈ (join.probe side).rows)
    (hbuild : build ∈ (join.build side).rows) (slot : ℕ) (hslot : slot ∈ join.schema) :
    join.hashCell side probe build slot =
      .ok (join.combinedCell (leftOf side probe build) (rightOf side probe build) slot) := by
  have hprobeCells:=(join.probe side).covers probe hprobe
  have hbuildCells:=(join.build side).covers build hbuild
  by_cases hmem : slot ∈ join.left.schema
  · have hsome:=column_isSome.mpr hmem
    rw [hashCell,hsome,combinedCell,if_pos hmem]
    cases side with
    | left => exact slotValue_ok hbuildCells hmem
    | right => exact slotValue_ok hprobeCells hmem
  · have hright:=(schema_mem hslot).resolve_left hmem
    rw [hashCell,column_eq_none hmem,combinedCell,if_neg hmem]
    cases side with
    | left => exact slotValue_ok hprobeCells hright
    | right => exact slotValue_ok hbuildCells hright

theorem retainedPair_eq {retained : RetainedRows} {row : ℕ}
    (hretains : Retains join.capacity (join.build side).rows retained)
    (hprobe : probe ∈ (join.probe side).rows) (hrow : (join.build side).rows[row]? = some build) :
    join.retainedPair side retained probe row =
      if join.joins (leftOf side probe build) (rightOf side probe build) then
        join.offerRow (join.combinedCells (leftOf side probe build) (rightOf side probe build))
          (probe.uses++build.uses)
      else .ok none := by
  have hbuild:=mem_of_getElem? hrow
  obtain ⟨hcells,huses⟩ := hretains.row_eq hrow
  have hoffer:=offer_eq (hashCell_eq hprobe hbuild) (probe.uses++build.uses)
  rw [retainedPair,hcells]
  simp only [orBatch,ok_bind]
  rw [rowsJoin_ok (has_probe hprobe) (has_build hbuild),ok_bind,agreesOn_sides,joins,
    ← compatible_sides]
  cases join.agrees (leftOf side probe build) (rightOf side probe build) with
  | false => rfl
  | true =>
    rw [if_pos rfl,huses,ok_bind,Bool.true_and]
    rw [← hoffer]
    rfl

end Sides

end Join

end Zeppelin.Query
