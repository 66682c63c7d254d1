import Zeppelin.Collections.MaxHeap
import Zeppelin.Collections.StableSort
import Zeppelin.Query.OwnRow
import Zeppelin.Query.ValueHash

/-! property_graph/query/relational/ordering.rs -/

namespace Zeppelin.Query
open List

open Collections

abbrev KeyColumn := ℕ × Bool

def direct (descending : Bool) (order : Ordering) : Ordering :=
  if descending then order.swap else order

def Row.at (row : Row) (column : ℕ) : QueryValue := row.getD column .null

theorem orBatch_at {row : Row} {column : ℕ} (h : column < row.length) :
    orBatch row[column]? = .ok (Row.at row column) := by
  rw [getElem?_eq_getElem h,Row.at,getD_eq_getElem?_getD,getElem?_eq_getElem h]
  rfl

def compareCells (a b : ℕ → Option QueryValue) : List KeyColumn → Except RuntimeError Ordering
  | [] => .ok .eq
  | (column,descending)::columns => do
    let left ← orBatch (a column)
    let right ← orBatch (b column)
    if direct descending (left.order right) ≠ .eq then
      return direct descending (left.order right)
    else compareCells a b columns

section Heap
variable {ρ : Type} (cell : ρ → ℕ → Option QueryValue)

def Rows.compare (rows : Rows ρ) (columns : List KeyColumn) (left right : ℕ) :
    Except RuntimeError Ordering := do
  let a ← orBatch (rows.raw left)
  let b ← orBatch (rows.raw right)
  compareCells (cell a) (cell b) columns

def mergeSlices (compare : ℕ → ℕ → Except RuntimeError Ordering) :
    List ℕ → List ℕ → Except RuntimeError (List ℕ)
  | left,[] => .ok left
  | [],right => .ok right
  | a::left,b::right => do
    let order ← compare a b
    if order ≠ .gt then
      let rest ← mergeSlices compare left (b::right)
      return a::rest
    else
      let rest ← mergeSlices compare (a::left) right
      return b::rest
termination_by left right => left.length+right.length

def sortPass (compare : ℕ → ℕ → Except RuntimeError Ordering) (width : ℕ) :
    ℕ → List ℕ → Except RuntimeError (List ℕ)
  | 0,order => .ok order
  | fuel+1,order =>
    if order.isEmpty then .ok []
    else do
      let slice ← mergeSlices compare (order.take width) ((order.drop width).take width)
      let rest ← sortPass compare width fuel (order.drop (2*width))
      return slice++rest

/-- The width doubles until one slice is all; the length is enough fuel. -/
def sortFrom (compare : ℕ → ℕ → Except RuntimeError Ordering) :
    ℕ → ℕ → List ℕ → Except RuntimeError (List ℕ)
  | 0,_,order => .ok order
  | fuel+1,width,order =>
    if width < order.length then do
      let order ← sortPass compare width order.length order
      sortFrom compare fuel (width*2) order
    else .ok order

def Rows.sort (rows : Rows ρ) (columns : List KeyColumn) : Except RuntimeError (Rows ρ) := do
  let order ← sortFrom (rows.compare cell columns) rows.len 1 rows.order
  return { rows with order := order }

def columnOrder (key : KeyColumn) (a b : Row) : Ordering :=
  direct key.2 ((Row.at a key.1).order (Row.at b key.1))

def keyOrder : List KeyColumn → Row → Row → Ordering
  | [],_,_ => .eq
  | key::columns,a,b => (columnOrder key a b).then (keyOrder columns a b)

def KeyLe (columns : List KeyColumn) (a b : Row) : Prop := keyOrder columns a b ≠ .gt

instance (columns : List KeyColumn) : DecidableRel (KeyLe columns) :=
  fun _ _ => inferInstanceAs (Decidable (_ ≠ _))

instance (key : KeyColumn) : Std.TransCmp (columnOrder key) where
  eq_swap := by
    intro a b
    rw [columnOrder,columnOrder,order_swap]
    cases key.2 <;> rfl
  isLE_trans := by
    intro a b c hab hbc
    rw [columnOrder] at hab hbc ⊢
    cases hkey : key.2 with
    | false =>
      rw [hkey] at hab hbc
      exact order_isLE_trans hab hbc
    | true =>
      rw [hkey] at hab hbc
      simp only [direct,if_true] at hab hbc ⊢
      rw [← order_swap] at hab hbc ⊢
      exact order_isLE_trans hbc hab

instance keyOrder_transCmp : ∀ columns : List KeyColumn,Std.TransCmp (keyOrder columns)
  | [] =>
    { eq_swap := rfl
      isLE_trans := fun _ _ => rfl }
  | key::columns =>
    have := keyOrder_transCmp columns
    inferInstanceAs (Std.TransCmp (compareLex (columnOrder key) (keyOrder columns)))

theorem keyLe_iff_isLE {columns : List KeyColumn} {a b : Row} :
    KeyLe columns a b ↔ (keyOrder columns a b).isLE = true :=
  Ordering.isLE_iff_ne_gt.symm

instance (columns : List KeyColumn) : IsTrans Row (KeyLe columns) where
  trans := by
    intro a b c hab hbc
    rw [keyLe_iff_isLE] at hab hbc ⊢
    exact Std.TransCmp.isLE_trans hab hbc

instance (columns : List KeyColumn) : Std.Total (KeyLe columns) where
  total := by
    intro a b
    by_cases hab : KeyLe columns a b
    · exact .inl hab
    · right
      have hgt : keyOrder columns a b = .gt := not_not.mp hab
      have hlt : keyOrder columns b a = .lt := by
        rw [Std.OrientedCmp.gt_iff_lt] at hgt
        exact hgt
      rw [KeyLe,hlt]
      nofun

def CoversKeys (columns : List KeyColumn) (row : Row) : Prop := ∀ key ∈ columns,key.1 < row.length

theorem compareCells_ok {a b : Row} {columns : List KeyColumn} (ha : CoversKeys columns a)
    (hb : CoversKeys columns b) :
    compareCells (fun column => a[column]?) (fun column => b[column]?) columns =
      .ok (keyOrder columns a b) := by
  induction columns with
  | nil => rfl
  | cons key columns ih =>
    have hrest:=ih (fun other hother => ha other (mem_cons_of_mem _ hother))
      (fun other hother => hb other (mem_cons_of_mem _ hother))
    rw [compareCells,orBatch_at (ha key mem_cons_self),ok_bind,
      orBatch_at (hb key mem_cons_self),ok_bind,hrest,keyOrder,columnOrder]
    cases direct key.2 ((Row.at a key.1).order (Row.at b key.1)) <;> rfl

variable {compare : ℕ → ℕ → Except RuntimeError Ordering} {r : ℕ → ℕ → Prop} [DecidableRel r]

def Compares (compare : ℕ → ℕ → Except RuntimeError Ordering) (r : ℕ → ℕ → Prop) (count : ℕ) :
    Prop :=
  ∀ a < count,∀ b < count,∃ order,compare a b = .ok order ∧ (order ≠ .gt ↔ r a b)

theorem mergeSlices_ok {count : ℕ} (h : Compares compare r count) (left right : List ℕ)
    (hleft : ∀ a ∈ left,a < count) (hright : ∀ b ∈ right,b < count) :
    mergeSlices compare left right = .ok (stableMerge r left right) := by
  fun_induction mergeSlices compare left right with
  | case1 left => rw [stableMerge_nil]
  | case2 right => rw [nil_stableMerge]
  | case3 a left b right ihLeft ihRight =>
    obtain ⟨order,horder,hiff⟩ := h a (hleft a mem_cons_self) b (hright b mem_cons_self)
    rw [horder]
    simp only [ok_bind]
    split_ifs with hle
    · rw [ihLeft (fun c hc => hleft c (mem_cons_of_mem _ hc)) hright,
        stableMerge_cons_of_le r (hiff.mp hle)]
      rfl
    · rw [ihRight hleft (fun c hc => hright c (mem_cons_of_mem _ hc)),
        stableMerge_cons_of_not_le r (hiff.not.mp hle)]
      rfl

theorem sortPass_ok {count width : ℕ} (h : Compares compare r count) {fuel : ℕ} :
    ∀ {order : List ℕ},(∀ a ∈ order,a < count) →
      sortPass compare width fuel order = .ok (mergePass r width fuel order) := by
  induction fuel with
  | zero => exact fun _ => rfl
  | succ fuel ih =>
    intro order horder
    rw [sortPass,mergePass]
    split_ifs with hempty
    · rfl
    · rw [mergeSlices_ok h _ _ (fun a ha => horder a (mem_of_mem_take ha))
        (fun a ha => horder a (mem_of_mem_drop (mem_of_mem_take ha))),ok_bind,
        ih fun a ha => horder a (mem_of_mem_drop ha)]
      rfl

theorem Runs.mem_iff {width : ℕ} {list sorted : List ℕ} (h : Collections.Runs r width list sorted)
    (a : ℕ) : a ∈ sorted ↔ a ∈ list := by
  induction h with
  | nil => rfl
  | cons _ _ _ _ ih => rw [mem_append,mem_append,mem_insertionSort,ih]

variable [Std.Total r] [IsTrans ℕ r]

theorem sortFrom_ok {list : List ℕ} {count : ℕ} (h : Compares compare r count)
    (hlist : ∀ a ∈ list,a < count) {fuel : ℕ} :
    ∀ {width : ℕ} {order : List ℕ},Collections.Runs r width list order → 0 < width →
      list.length ≤ width+fuel →
      sortFrom compare fuel width order = .ok (list.insertionSort r) := by
  induction fuel with
  | zero =>
    intro width order hruns _ hfuel
    rw [sortFrom,hruns.sorted r (by omega)]
  | succ fuel ih =>
    intro width order hruns hwidth hfuel
    have hlength:=hruns.length_eq r
    rw [sortFrom]
    split_ifs with hmore
    · have hpass : sortPass compare width order.length order =
          .ok (mergePass r width order.length order) :=
        sortPass_ok h fun a ha => hlist a ((Runs.mem_iff hruns a).mp ha)
      rw [hpass,ok_bind,Nat.mul_comm]
      exact ih (hruns.pass r (by omega)) (by omega) (by omega)
    · rw [hruns.sorted r (by omega)]

section Storage

variable {ρ : Type} {cell : ρ → ℕ → Option QueryValue} {capacity : StorageCapacity} {rows : Rows ρ}
  {held : List ρ} {columns : List KeyColumn}

def viewAt (view : ρ → Row) (held : List ρ) (position : ℕ) : Row :=
  (held[position]?.map view).getD []

def ViewLe (columns : List KeyColumn) (view : ρ → Row) (held : List ρ) (i j : ℕ) : Prop :=
  KeyLe columns (viewAt view held i) (viewAt view held j)

instance (columns : List KeyColumn) (view : ρ → Row) (held : List ρ) :
    DecidableRel (ViewLe columns view held) :=
  fun _ _ => inferInstanceAs (Decidable (_ ≠ _))

instance (columns : List KeyColumn) (view : ρ → Row) (held : List ρ) :
    IsTrans ℕ (ViewLe columns view held) where
  trans := fun _ _ _ hij hjk => IsTrans.trans (r := KeyLe columns) _ _ _ hij hjk

instance (columns : List KeyColumn) (view : ρ → Row) (held : List ρ) :
    Std.Total (ViewLe columns view held) where
  total := fun _ _ => Std.Total.total (r := KeyLe columns) _ _

def Rows.reorder (rows : Rows ρ) (order : List ℕ) : Rows ρ := { rows with order := order }

theorem Stores.sort (h : Stores capacity rows held) (hpositive : 0 < capacity.rows)
    (view : ρ → Row) (hcell : ∀ row,cell row = fun column => (view row)[column]?)
    (hcovers : ∀ row ∈ held,CoversKeys columns (view row)) :
    rows.sort cell columns =
      .ok (rows.reorder ((List.range held.length).insertionSort (ViewLe columns view held))) := by
  have hcompares : Compares (rows.compare cell columns) (ViewLe columns view held)
      held.length := by
    intro a ha b hb
    refine ⟨_,?_,Iff.rfl⟩
    have hfirst:=hcovers _ (getElem_mem ha)
    have hsecond:=hcovers _ (getElem_mem hb)
    rw [Rows.compare,h.raw_eq hpositive,h.raw_eq hpositive,getElem?_eq_getElem ha,
      getElem?_eq_getElem hb]
    simp only [orBatch,ok_bind,hcell,viewAt,getElem?_eq_getElem ha,
      getElem?_eq_getElem hb,Option.map_some,Option.getD_some]
    exact compareCells_ok hfirst hsecond
  have hsorted : sortFrom (rows.compare cell columns) rows.len 1 rows.order =
      .ok ((List.range held.length).insertionSort (ViewLe columns view held)) := by
    rw [h.order_eq]
    apply sortFrom_ok hcompares
    · exact fun a ha => mem_range.mp ha
    · exact runs_one _ _
    · exact Nat.one_pos
    · rw [length_range,h.len_eq]
      exact Nat.le_add_left _ _
  rw [Rows.sort,hsorted]
  rfl

end Storage

end Heap

/-! property_graph/query/pattern/relational/top_k.rs -/

structure Kept where
  visible : OwnedRow
  keys : OwnedRow
  uses : List RelationshipUse
  ordinal : ℕ

structure TopRows where
  rows : List Kept
  limit : ℕ
  ordinal : ℕ

def TopRows.new (limit : ℕ) : TopRows := ⟨[],limit,0⟩

/-- Key `i` is the column `i`; `true` is descending. -/
def keyColumns (order : List Bool) : List KeyColumn := order.zipIdx.map Prod.swap

def keyCells (cells : ℕ → Option BackedValue) (column : ℕ) : Option QueryValue :=
  (cells column).map BackedValue.value

def Kept.compare (order : List Bool) (left right : Kept) : Except RuntimeError Ordering := do
  let keys ← compareCells (keyCells left.keys.value) (keyCells right.keys.value)
    (keyColumns order)
  return keys.then (Ord.compare left.ordinal right.ordinal)

/-- A full heap takes no row whose keys are not before those of its root. -/
def TopRows.late (order : List Bool) (top : TopRows) (keys : List BackedValue) :
    Except RuntimeError Bool :=
  if top.rows.length = top.limit then do
    let worst ← fetch .batch top.rows 0
    let comparison ← compareCells (keyCells fun column => keys[column]?)
      (keyCells worst.keys.value) (keyColumns order)
    return decide (comparison ≠ .lt)
  else .ok false

def TopRows.keep (order : List Bool) (top : TopRows) (row : Kept) :
    Except RuntimeError (List Kept) :=
  if top.rows.length < top.limit then
    siftUp (Kept.compare order) .batch top.rows.length top.rows.length (top.rows++[row])
  else
    siftDown (Kept.compare order) .batch top.rows.length top.rows.length 0 (top.rows.set 0 row)

def TopRows.offer (order : List Bool) (top : TopRows) (visible keys : List BackedValue)
    (uses : List RelationshipUse) : Except RuntimeError TopRows := do
  failIf (top.ordinal+1 ≥ 2^64) .batch
  if top.limit = 0 then return { top with ordinal := top.ordinal+1 }
  else do
    let late ← top.late order keys
    if late then return { top with ordinal := top.ordinal+1 }
    else do
      let ownVisible ← ownRow visible
      let ownKeys ← ownRow keys
      let rows ← top.keep order ⟨ownVisible,ownKeys,uses,top.ordinal⟩
      return { top with rows := rows,ordinal := top.ordinal+1 }

def TopRows.sort (order : List Bool) (top : TopRows) : Except RuntimeError TopRows := do
  let rows ← heapSort (Kept.compare order) .batch (top.rows.length-1) top.rows
  return { top with rows := rows }

def TopRows.emit (capacity : StorageCapacity) (top : TopRows) (row : ℕ) :
    Except RuntimeError Output := do
  let kept ← fetch .batch top.rows row
  let cells ← (List.range kept.visible.cells.length).mapM fun column =>
    orBatch (kept.visible.value column)
  emitRow capacity cells kept.uses

structure Offer (capacity : StorageCapacity) (order : List Bool) where
  row : Pulled capacity
  keys : QueryRow
  keys_length : keys.cells.length = order.length

variable {capacity : StorageCapacity} {order : List Bool}

def Offer.output (offer : Offer capacity order) : Output := offer.row.output

def Offer.keyRow (offer : Offer capacity order) : Row := valueList offer.keys.cells

def boundedSort (capacity : StorageCapacity) (order : List Bool) (limit : ℕ)
    (offers : List (Offer capacity order)) : Except RuntimeError (List Output) := do
  let top ← offers.foldlM (fun (top : TopRows) offer =>
    top.offer order offer.row.cells offer.keys.cells offer.row.uses) (TopRows.new limit)
  let sorted ← top.sort order
  (List.range sorted.rows.length).mapM (sorted.emit capacity)

def OfferLe (order : List Bool) (a b : Offer capacity order) : Prop :=
  KeyLe (keyColumns order) a.keyRow b.keyRow

instance (order : List Bool) : DecidableRel (@OfferLe capacity order) :=
  fun _ _ => inferInstanceAs (Decidable (_ ≠ _))

def sortOffers (order : List Bool) (offers : List (Offer capacity order)) :
    List (Offer capacity order) :=
  offers.insertionSort (OfferLe order)

def KeptFit (order : List Bool) (limit : ℕ) (offers : List (Offer capacity order)) : Prop :=
  ∀ ordinal offer,offers[ordinal]? = some offer →
    (offers.take ordinal).countP (fun other => decide (OfferLe order other offer)) < limit →
    MapsFit offer.row.cells ∧ MapsFit offer.keys.cells

end Zeppelin.Query
