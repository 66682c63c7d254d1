import Zeppelin.Query.TopRowsSpec

/-! property_graph/query/pattern/relational.rs -/

namespace Zeppelin.Query
open List

open Collections

variable {capacity : StorageCapacity} {order : List Bool}

structure SortState where
  visible : Rows (List BackedValue)
  keys : Rows (List BackedValue)
  uses : List (List RelationshipUse)

def columnCell (cells : List BackedValue) : ℕ → Option QueryValue := keyCells fun column => cells[column]?

def SortState.pushKeys (shared : Option (List ℕ)) (state : SortState)
    (offer : Offer capacity order) : Except RuntimeError (Rows (List BackedValue)) :=
  if shared.isSome then .ok state.keys else state.keys.push needList offer.keys.cells

def SortState.push (capacity : StorageCapacity) (shared : Option (List ℕ)) (state : SortState)
    (offer : Offer capacity order) : Except RuntimeError SortState := do
  let visible ← state.visible.push needList offer.row.cells
  let keys ← state.pushKeys shared offer
  failIf (state.uses.length = capacity.maxRows) .batchCapacity
  return ⟨visible,keys,state.uses++[offer.row.uses]⟩

def SortState.ordered (shared : Option (List ℕ)) (state : SortState) : Rows (List BackedValue) :=
  if shared.isSome then state.visible else state.keys

def SortState.sort (order : List Bool) (shared : Option (List ℕ)) (state : SortState) :
    Except RuntimeError SortState :=
  match shared with
  | some columns => do
    let visible ← state.visible.sort columnCell (columns.zip order)
    return { state with visible := visible }
  | none => do
    let keys ← state.keys.sort columnCell (keyColumns order)
    return { state with keys := keys }

def SortState.emit (capacity : StorageCapacity) (shared : Option (List ℕ)) (state : SortState)
    (next : ℕ) : Except RuntimeError Output := do
  let source ← orBatch (state.ordered shared).order[next]?
  let cells ← orBatch (state.visible.row (if shared.isSome then next else source))
  let uses ← orBatch state.uses[source]?
  emitRow capacity cells uses

def fullSort (capacity : StorageCapacity) (order : List Bool) (shared : Option (List ℕ))
    (offers : List (Offer capacity order)) : Except RuntimeError (List Output) := do
  let visible ← Rows.new capacity
  let keys ← Rows.new capacity
  let state ← offers.foldlM (SortState.push capacity shared) ⟨visible,keys,[]⟩
  let sorted ← state.sort order shared
  (List.range (sorted.ordered shared).len).mapM (sorted.emit capacity shared)

/-- `next_offset_limit`, pulled until it ends. -/
def offsetLimit {α : Type} : ℕ → ℕ → List α → List α
  | _,0,_ => []
  | _,_,[] => []
  | offset+1,limit+1,_::rows => offsetLimit offset (limit+1) rows
  | 0,limit+1,row::rows => row::offsetLimit 0 limit rows

/-- `saturating_add` -/
def sortBound (offset limit : ℕ) : ℕ := min (offset+limit) (2^64-1)

def sortedRows (capacity : StorageCapacity) (order : List Bool) (shared : Option (List ℕ))
    (pushed : Bool) (offset limit : ℕ) (offers : List (Offer capacity order)) :
    Except RuntimeError (List Output) :=
  if pushed then boundedSort capacity order (sortBound offset limit) offers
  else fullSort capacity order shared offers

/-- A limit of zero pulls nothing unless something below it writes. -/
def orderBy (capacity : StorageCapacity) (order : List Bool) (shared : Option (List ℕ))
    (pushed writesBelow : Bool) (offset limit : ℕ) (offers : List (Offer capacity order)) :
    Except RuntimeError (List Output) :=
  if limit = 0 ∧ writesBelow = false then .ok []
  else do
    let rows ← sortedRows capacity order shared pushed offset limit offers
    return offsetLimit offset limit rows

def SharedKeys (shared : Option (List ℕ)) (offers : List (Offer capacity order)) : Prop :=
  ∀ columns ∈ shared,columns.length = order.length ∧ ∀ offer ∈ offers,
    columns.map (offer.row.cells[·]?) = offer.keys.cells.map some

theorem offsetLimit_eq {α : Type} (offset limit : ℕ) (rows : List α) :
    offsetLimit offset limit rows = (rows.drop offset).take limit := by
  fun_induction offsetLimit offset limit rows with
  | case1 => rw [take_zero]
  | case2 => rw [drop_nil,take_nil]
  | case3 offset limit row rows ih => rw [ih,drop_succ_cons]
  | case4 limit row rows ih => rw [ih,drop_zero,drop_zero,take_succ_cons]

section FullSort

variable {shared : Option (List ℕ)} {offers : List (Offer capacity order)}

structure SortHolds (shared : Option (List ℕ)) (state : SortState)
    (offers : List (Offer capacity order)) : Prop where
  visible : Stores capacity state.visible (offers.map fun offer => offer.row.cells)
  keys : shared = none → Stores capacity state.keys (offers.map fun offer => offer.keys.cells)
  uses_eq : state.uses = offers.map fun offer => offer.row.uses

variable {state : SortState} {outputs : List Output}

theorem SortHolds.push {next : SortState} {offer : Offer capacity order}
    (h : SortHolds shared state offers) (hpositive : 0 < capacity.rows)
    (hpush : state.push capacity shared offer = .ok next) :
    SortHolds shared next (offers++[offer]) := by
  obtain ⟨visible,hvisible,hpush⟩ := bind_eq_ok hpush
  obtain ⟨keys,hkeys,hpush⟩ := bind_eq_ok hpush
  obtain ⟨_,_,rfl⟩ := bind_pure_eq_ok hpush
  constructor
  · rw [map_append,map_singleton]
    exact (h.visible.pushed hpositive hvisible).1
  · intro hnone
    subst hnone
    rw [map_append,map_singleton]
    exact ((h.keys rfl).pushed hpositive hkeys).1
  · rw [map_append,map_singleton,h.uses_eq]

theorem SortHolds.pushAll {rest : List (Offer capacity order)} (hpositive : 0 < capacity.rows) :
    ∀ {offers : List (Offer capacity order)} {state final : SortState},
      SortHolds shared state offers →
      rest.foldlM (SortState.push capacity shared) state = .ok final →
      SortHolds shared final (offers++rest) := by
  induction rest with
  | nil =>
    intro offers state final h hfinal
    obtain rfl := Except.ok.inj hfinal
    rwa [append_nil]
  | cons offer rest ih =>
    intro offers state final h hfinal
    rw [foldlM_cons] at hfinal
    obtain ⟨next,hnext,hfinal⟩ := bind_eq_ok hfinal
    have hheld:=ih (h.push hpositive hnext) hfinal
    rwa [append_assoc] at hheld

theorem columnCell_eq (cells : List BackedValue) :
    columnCell cells = fun column => (valueList cells)[column]? := by
  funext column
  rw [columnCell,keyCells,valueList_eq_map,getElem?_map]

theorem keyOrder_shared {a b a' b' : Row} : ∀ {order : List Bool} {columns : List ℕ} {start : ℕ},
    columns.length = order.length →
    (∀ i column,columns[i]? = some column → Row.at a column = Row.at a' (start+i) ∧
      Row.at b column = Row.at b' (start+i)) →
    keyOrder (columns.zip order) a b = keyOrder ((order.zipIdx start).map Prod.swap) a' b' := by
  intro order
  induction order with
  | nil =>
    intro columns start _ _
    rw [zip_nil_right]
    rfl
  | cons descending order ih =>
    intro columns start hlength hcells
    cases columns with
    | nil => cases hlength
    | cons column columns =>
      have hfirst:=hcells 0 column rfl
      have htail : ∀ i other,columns[i]? = some other →
          Row.at a other = Row.at a' (start+1+i) ∧
            Row.at b other = Row.at b' (start+1+i) := by
        intro i other hother
        have hcell:=hcells (i+1) other hother
        rwa [← Nat.add_assoc,Nat.add_right_comm] at hcell
      have hrest:=ih (Nat.succ.inj hlength) htail
      rw [zip_cons_cons,zipIdx_cons,map_cons,keyOrder,keyOrder,columnOrder,
        columnOrder,hfirst.1,hfirst.2,hrest]
      rfl

theorem row_at_valueList {cells : List BackedValue} {column : ℕ} {value : BackedValue}
    (h : cells[column]? = some value) : Row.at (valueList cells) column = value.value := by
  rw [Row.at,getD_eq_getElem?_getD,valueList_eq_map,getElem?_map,h]
  rfl

theorem keyLe_shared {columns : List ℕ} (hlength : columns.length = order.length)
    {a b : Offer capacity order}
    (ha : columns.map (a.row.cells[·]?) = a.keys.cells.map some)
    (hb : columns.map (b.row.cells[·]?) = b.keys.cells.map some) :
    KeyLe (columns.zip order) (valueList a.row.cells) (valueList b.row.cells) ↔
      OfferLe order a b := by
  have hsame : keyOrder (columns.zip order) (valueList a.row.cells) (valueList b.row.cells) =
      keyOrder (keyColumns order) a.keyRow b.keyRow := by
    apply keyOrder_shared hlength
    intro i column hcolumn
    have hcell : ∀ {offer : Offer capacity order},
        columns.map (offer.row.cells[·]?) = offer.keys.cells.map some →
        Row.at (valueList offer.row.cells) column = Row.at offer.keyRow (0+i) := by
      intro offer hoffer
      have hat:=congrArg (·[i]?) hoffer
      simp only [getElem?_map,hcolumn,Option.map_some] at hat
      cases hkey : offer.keys.cells[i]? with
      | none =>
        rw [hkey] at hat
        cases hat
      | some value =>
        rw [hkey,Option.map_some] at hat
        rw [row_at_valueList (Option.some.inj hat),Nat.zero_add,Offer.keyRow,
          row_at_valueList hkey]
    exact ⟨hcell ha,hcell hb⟩
  rw [KeyLe,hsame,OfferLe,KeyLe]

theorem SortHolds.emitted {positions : List ℕ}
    (h : SortHolds shared state offers) (hpositive : 0 < capacity.rows)
    (hbelow : ∀ position ∈ positions,position < offers.length) (sorted : SortState)
    (huses : sorted.uses = state.uses) (horder : (sorted.ordered shared).order = positions)
    (hrow : ∀ next position,positions[next]? = some position →
      sorted.visible.row (if shared.isSome then next else position) =
        state.visible.raw position)
    (houtputs : outputs.map some = positions.map fun position =>
      offers[position]?.map Offer.output) :
    (List.range (sorted.ordered shared).len).mapM (sorted.emit capacity shared) = .ok outputs := by
  have hlength : (sorted.ordered shared).len = outputs.length := by
    have hcount:=congrArg List.length houtputs
    rw [length_map,length_map] at hcount
    rw [Rows.len,horder,hcount]
  rw [hlength]
  apply mapM_range_ok
  intro next hnext
  have hsame:=congrArg (·[next]?) houtputs
  simp only [getElem?_map,getElem?_eq_getElem hnext,Option.map_some] at hsame
  cases hposition : positions[next]? with
  | none =>
    rw [hposition] at hsame
    cases hsame
  | some position =>
    have hlt:=hbelow position (mem_of_getElem? hposition)
    rw [hposition,Option.map_some,getElem?_eq_getElem hlt,Option.map_some] at hsame
    rw [SortState.emit,horder,hposition]
    simp only [orBatch,ok_bind]
    rw [hrow next position hposition,h.visible.raw_eq hpositive,huses,h.uses_eq,
      getElem?_map,getElem?_map,getElem?_eq_getElem hlt]
    simp only [Option.map_some,ok_bind]
    rw [emitRow_ok,Option.some.inj (Option.some.inj hsame)]
    rfl

theorem sort_positions (offers : List (Offer capacity order)) (r : ℕ → ℕ → Prop) [DecidableRel r]
    (hr : ∀ i < offers.length,∀ j < offers.length,r i j ↔ KeysLe offers i j) :
    (∀ position ∈ (List.range offers.length).insertionSort r,position < offers.length) ∧
      ((sortOffers order offers).map Offer.output).map some =
        ((List.range offers.length).insertionSort r).map fun position =>
          offers[position]?.map Offer.output := by
  have hsame : (List.range offers.length).insertionSort r =
      (List.range offers.length).insertionSort (KeysLe offers) := by
    apply insertionSort_congr
    apply pairwise_of_forall_mem_list
    intro i hi j hj
    exact hr i (mem_range.mp hi) j (mem_range.mp hj)
  refine ⟨?_,?_⟩
  · intro position hposition
    rw [mem_insertionSort,mem_range] at hposition
    exact hposition
  · have hoffers:=congrArg (List.map (Option.map Offer.output)) (sortOffers_eq_keys offers)
    rw [map_map,map_map] at hoffers
    rw [hsame,map_map]
    exact hoffers

theorem viewAt_map {α : Type} (f : Offer capacity order → α) (view : α → Row) (position : ℕ) :
    viewAt view (offers.map f) position =
      (offers[position]?.map fun offer => view (f offer)).getD [] := by
  rw [viewAt,getElem?_map,Option.map_map]
  rfl

theorem SortHolds.sort_emitted (h : SortHolds shared state offers)
    (hpositive : 0 < capacity.rows) (hshared : SharedKeys shared offers) :
    ∃ sorted,state.sort order shared = .ok sorted ∧
      (List.range (sorted.ordered shared).len).mapM (sorted.emit capacity shared) =
        .ok ((sortOffers order offers).map Offer.output) := by
  cases shared with
  | none =>
    have hcovers : ∀ cells ∈ offers.map fun offer => offer.keys.cells,
        CoversKeys (keyColumns order) (valueList cells) := by
      intro cells hcells
      obtain ⟨offer,_,rfl⟩ := mem_map.mp hcells
      exact coversKeys_keyRow offer
    have hsort:=(h.keys rfl).sort hpositive valueList columnCell_eq hcovers
    rw [length_map] at hsort
    obtain ⟨hbelow,houtputs⟩ := sort_positions offers
      (ViewLe (keyColumns order) valueList (offers.map fun offer => offer.keys.cells)) (by
        intro i _ j _
        rw [ViewLe,viewAt_map,viewAt_map]
        exact Iff.rfl)
    generalize List.insertionSort (ViewLe (keyColumns order) valueList
      (offers.map fun offer => offer.keys.cells)) (List.range offers.length) = positions at *
    refine ⟨{ state with keys := state.keys.reorder positions },?_,
      h.emitted hpositive hbelow _ ?_ ?_ ?_ houtputs⟩
    · rw [SortState.sort,hsort]
      rfl
    · rfl
    · rfl
    · intro next position _
      rw [if_neg (by simp),h.visible.row_eq hpositive,h.visible.raw_eq hpositive]
  | some columns =>
    obtain ⟨hlength,hcells⟩ := hshared columns rfl
    have hcovers : ∀ cells ∈ offers.map fun offer => offer.row.cells,
        CoversKeys (columns.zip order) (valueList cells) := by
      intro cells hmem key hkey
      obtain ⟨offer,hoffer,rfl⟩ := mem_map.mp hmem
      have hcolumn:=(of_mem_zip (a := key.1) (b := key.2) hkey).1
      have hcell : offer.row.cells[key.1]? ∈ offer.keys.cells.map some := by
        rw [← hcells offer hoffer]
        exact mem_map_of_mem hcolumn
      obtain ⟨value,_,hvalue⟩ := mem_map.mp hcell
      rw [valueList_eq_map,length_map]
      exact (List.getElem?_eq_some_iff.mp hvalue.symm).1
    have hsort:=h.visible.sort hpositive valueList columnCell_eq hcovers
    rw [length_map] at hsort
    obtain ⟨hbelow,houtputs⟩ := sort_positions offers
      (ViewLe (columns.zip order) valueList (offers.map fun offer => offer.row.cells)) (by
        intro i hi j hj
        have hfirst:=getElem?_eq_getElem hi
        have hsecond:=getElem?_eq_getElem hj
        rw [ViewLe,viewAt_map,viewAt_map,KeysLe,keyAt_eq hfirst,keyAt_eq hsecond,hfirst,
          hsecond]
        exact keyLe_shared hlength (hcells _ (getElem_mem hi))
          (hcells _ (getElem_mem hj)))
    generalize List.insertionSort (ViewLe (columns.zip order) valueList
      (offers.map fun offer => offer.row.cells)) (List.range offers.length) = positions at *
    refine ⟨{ state with visible := state.visible.reorder positions },?_,
      h.emitted hpositive hbelow _ ?_ ?_ ?_ houtputs⟩
    · rw [SortState.sort,hsort]
      rfl
    · rfl
    · rfl
    · intro next position hposition
      rw [if_pos (by simp),Rows.row]
      exact congrArg (Option.bind · _) hposition

theorem fullSort_eq (hshared : SharedKeys shared offers)
    (h : fullSort capacity order shared offers = .ok outputs) :
    outputs = (sortOffers order offers).map Offer.output := by
  obtain ⟨visible,hvisible,hopen⟩ := bind_eq_ok h
  obtain ⟨keys,hkeys,hrun⟩ := bind_eq_ok hopen
  obtain ⟨state,hstate,hsort⟩ := bind_eq_ok hrun
  obtain ⟨sorted,hsorted,hpulls⟩ := bind_eq_ok hsort
  clear h hopen hrun hsort
  rcases Nat.eq_zero_or_pos capacity.rows with hzero | hpositive
  · -- nothing can be stored
    have hmax : capacity.maxRows = 0 := by
      by_contra hmax
      rw [Rows.new,if_pos ⟨hzero,hmax⟩] at hvisible
      cases hvisible
    rw [Rows.new,if_neg (fun hboth => hboth.2 hmax)] at hvisible hkeys
    obtain rfl := Except.ok.inj hvisible
    obtain rfl := Except.ok.inj hkeys
    cases offers with
    | nil =>
      obtain rfl := Except.ok.inj hstate
      have hempty : (sorted.ordered shared).len = 0 := by
        cases shared <;> (obtain rfl := Except.ok.inj hsorted; rfl)
      rw [hempty] at hpulls
      exact (Except.ok.inj hpulls).symm
    | cons offer offers =>
      rw [foldlM_cons] at hstate
      obtain ⟨next,hnext,_⟩ := bind_eq_ok hstate
      obtain ⟨pushed,hpushed,_⟩ := bind_eq_ok hnext
      rw [Rows.push,if_pos hmax.symm] at hpushed
      cases hpushed
  · obtain ⟨fresh,hfresh,hstores⟩ := stores_new (ρ := List BackedValue) hpositive
    obtain rfl := Except.ok.inj (hvisible.symm.trans hfresh)
    obtain rfl := Except.ok.inj (hkeys.symm.trans hvisible)
    have hempty : SortHolds shared (⟨keys,keys,[]⟩ : SortState)
        ([] : List (Offer capacity order)) := ⟨hstores,fun _ => hstores,rfl⟩
    have hholds:=hempty.pushAll hpositive hstate
    obtain ⟨other,hother,hemitted⟩ := hholds.sort_emitted hpositive hshared
    obtain rfl := Except.ok.inj (hsorted.symm.trans hother)
    exact Except.ok.inj (hpulls.symm.trans hemitted)

end FullSort

theorem offsetLimit_take {α : Type} (offset limit : ℕ) (rows : List α)
    (h : rows.length < 2^64) :
    offsetLimit offset limit (rows.take (sortBound offset limit)) =
      offsetLimit offset limit rows := by
  rw [offsetLimit_eq,offsetLimit_eq,sortBound]
  by_cases hsaturated : offset+limit ≤ 2^64-1
  · rw [Nat.min_eq_left hsaturated,drop_take,Nat.add_sub_cancel_left,take_take,
      Nat.min_self]
  · have hall : rows.take (2^64-1) = rows := take_of_length_le (by omega)
    rw [Nat.min_eq_right (by omega),hall]

/-- The bounded sort is the front of the stable sort, and the rows below SKIP and LIMIT are the
same with the bound and without it, exactly when the maps of all kept rows fit. -/
theorem limitedSort_iff (capacity : StorageCapacity) (order : List Bool)
    (offers : List (Offer capacity order)) :
    (∀ limit,boundedSort capacity order limit offers =
        .ok (((sortOffers order offers).take limit).map Offer.output) ↔
      offers.length < 2^64 ∧ KeptFit order limit offers) ∧
    ∀ shared writesBelow offset limit rows,SharedKeys shared offers →
      orderBy capacity order shared false writesBelow offset limit offers = .ok rows →
        (orderBy capacity order shared true writesBelow offset limit offers = .ok rows ↔
          (limit = 0 ∧ writesBelow = false) ∨
            (offers.length < 2^64 ∧ KeptFit order (sortBound offset limit) offers)) := by
  constructor
  · intro limit
    refine ⟨?_,fun ⟨hlength,hfits⟩ => boundedSort_ok hlength hfits⟩
    intro hok
    by_contra hfails
    obtain ⟨error,herror⟩ := boundedSort_error hfails
    rw [herror] at hok
    cases hok
  · intro shared writesBelow offset limit rows hshared hrows
    rw [orderBy] at hrows ⊢
    by_cases hnothing : limit = 0 ∧ writesBelow = false
    · rw [if_pos hnothing] at hrows ⊢
      exact ⟨fun _ => .inl hnothing,fun _ => hrows⟩
    · rw [if_neg hnothing] at hrows ⊢
      obtain ⟨all,hall,hcut⟩ := bind_eq_ok hrows
      obtain rfl := fullSort_eq hshared hall
      rw [or_iff_right hnothing,sortedRows,if_pos rfl]
      constructor
      · intro hpushed
        by_contra hfails
        obtain ⟨error,herror⟩ := boundedSort_error hfails
        rw [herror] at hpushed
        cases hpushed
      · intro ⟨hlength,hfits⟩
        have hcount : ((sortOffers order offers).map Offer.output).length < 2^64 := by
          rw [length_map,sortOffers,length_insertionSort]
          exact hlength
        have hsame:=offsetLimit_take offset limit _ hcount
        rw [boundedSort_ok hlength hfits,ok_bind,map_take,hsame]
        exact hcut

def mapRow : QueryRow where
  cells := [.map [.string [97],.i64 1]]
  columns_le := by decide
  depth_le := by decide
  payload_le := by decide

def mapOffer : Offer defaultCapacity [false] where
  row := { mapRow with
    fits := by
      intro arena
      cases arena <;> decide
    uses := []
    distinct := nodup_nil
    bounded := Nat.zero_le _ }
  keys := mapRow
  keys_length := rfl

theorem limitedSort_iff_map :
    orderBy defaultCapacity [false] none true false 0 1 [mapOffer] = .ok [mapOffer.output] ↔
      (1 = 0 ∧ false = false) ∨ ([mapOffer].length < 2^64 ∧
        KeptFit [false] (sortBound 0 1) [mapOffer]) :=
  (limitedSort_iff defaultCapacity [false] [mapOffer]).2 none false 0 1 [mapOffer.output]
    (fun _ h => nomatch h) rfl

theorem limitedSort_fails_on_map :
    boundedSort defaultCapacity [false] 1 [mapOffer] ≠
      .ok (((sortOffers [false] [mapOffer]).take 1).map Offer.output) := by
  have herror : boundedSort defaultCapacity [false] 1 [mapOffer] = .error .batchCapacity := rfl
  rw [herror]
  nofun

end Zeppelin.Query
