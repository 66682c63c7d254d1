import Zeppelin.Collections.ListOrder
import Zeppelin.Query.BatchSpec

namespace Zeppelin.Query.Batch
open Machine List

section Push

variable {κ : Type} {context : Context κ}

structure RowBatch.Unchanged (before batch : RowBatch) : Prop where
  columns_eq : batch.columns = before.columns
  maxRows_eq : batch.maxRows = before.maxRows
  arenas_eq : batch.arenas.contents = before.arenas.contents
  cells_eq : batch.cells.values = before.cells.values
  offsets_eq : batch.offsets.values = before.offsets.values

structure RowBatch.Filled (before batch : RowBatch) : Prop where
  columns_eq : batch.columns = before.columns
  maxRows_eq : batch.maxRows = before.maxRows
  arenas : before.arenas.contents.Extends (fun _ => True) batch.arenas.contents
  cells : before.cells.values <+: batch.cells.values
  offsets_eq : batch.offsets.values = before.offsets.values

theorem unchanged_chained :
    Chained fun s t : RowBatch × κ => s.1.Unchanged t.1 where
  refl := fun _ => ⟨rfl,rfl,rfl,rfl,rfl⟩
  trans := fun _ _ _ h h' => ⟨h'.columns_eq.trans h.columns_eq,h'.maxRows_eq.trans h.maxRows_eq,
    h'.arenas_eq.trans h.arenas_eq,h'.cells_eq.trans h.cells_eq,
    h'.offsets_eq.trans h.offsets_eq⟩

theorem filled_chained : Chained fun s t : RowBatch × κ => s.1.Filled t.1 where
  refl := fun _ => ⟨rfl,rfl,.refl _ _,prefix_rfl,rfl⟩
  trans := fun _ _ _ h h' => ⟨h'.columns_eq.trans h.columns_eq,h'.maxRows_eq.trans h.maxRows_eq,
    (h.arenas.trans h'.arenas).mono fun _ _ _ => ⟨trivial,trivial⟩,h.cells.trans h'.cells,
    h'.offsets_eq.trans h.offsets_eq⟩

theorem RowBatch.Unchanged.filled {before batch : RowBatch} (h : before.Unchanged batch) :
    before.Filled batch where
  columns_eq := h.columns_eq
  maxRows_eq := h.maxRows_eq
  arenas := by
    rw [h.arenas_eq]
    exact .refl _ _
  cells := by rw [h.cells_eq]
  offsets_eq := h.offsets_eq

theorem take_of_isPrefix {α : Type} {list longer : List α} (h : list <+: longer) :
    longer.take list.length = list := (prefix_iff_eq_take.mp h).symm

theorem RowBatch.Filled.rollBack {before batch : RowBatch} (h : before.Filled batch) :
    before.Unchanged (before.rollBack batch) where
  columns_eq := h.columns_eq
  maxRows_eq := h.maxRows_eq
  arenas_eq := by
    have hchildren : before.arenas.contents.children <+: batch.arenas.contents.children := by
      rw [prefix_iff_getElem?]
      intro index hindex
      rw [h.arenas.children index hindex trivial,getElem?_eq_getElem hindex]
    have htaken : (before.rollBack batch).arenas.contents = ⟨batch.arenas.limit,
        before.arenas.payload,
        batch.arenas.contents.bytes.take before.arenas.contents.bytes.length,
        batch.arenas.contents.children.take before.arenas.contents.children.length,
        batch.arenas.contents.nodes.take before.arenas.contents.nodes.length,
        batch.arenas.contents.relationships.take before.arenas.contents.relationships.length⟩ := rfl
    have hlimit : batch.arenas.limit = before.arenas.limit := h.arenas.limit_eq
    rw [htaken, take_of_isPrefix h.arenas.bytes, take_of_isPrefix hchildren,
      take_of_isPrefix h.arenas.nodes, take_of_isPrefix h.arenas.relationships,hlimit]
    rfl
  cells_eq := take_of_isPrefix h.cells
  offsets_eq := h.offsets_eq

def RowBatch.Holds (batch : RowBatch) (start : ℕ) (row : ℕ → Except RuntimeError PushedValue)
    (count : ℕ) : Prop :=
  ∀ column < count,∃ value cell,row column = .ok value ∧ value.stored.depth ≤ maxListDepth ∧
    batch.cells.values[start+column]? = some cell ∧ value.stored.Held batch.arenas.contents 0 cell

theorem RowBatch.Holds.kept {before batch : RowBatch} {start count : ℕ}
    {row : ℕ → Except RuntimeError PushedValue} (hholds : before.Holds start row count)
    (harenas : before.arenas.contents.Extends (fun _ => True) batch.arenas.contents)
    (hcells : before.cells.values <+: batch.cells.values) : batch.Holds start row count := by
  intro column hcolumn
  obtain ⟨value,cell,hvalue,hdepth,hcell,hheld⟩ := hholds column hcolumn
  refine ⟨value,cell,hvalue,hdepth, Collections.getElem?_of_isPrefix hcells hcell,?_⟩
  exact hheld.extends harenas (fun _ _ => trivial) (Nat.le_refl _)

theorem copying_framed {α : Type} {x : Copying κ α} {s : RowBatch × κ}
    {post : α → Arenas × κ → Prop}
    (h : Framed (Keeps fun _ => True) x (s.1.arenas,s.2) post) :
    Framed (fun s t => s.1.Filled t.1) (copying x) s fun a t =>
      post a (t.1.arenas,t.2) ∧ t.1.cells = s.1.cells where
  frame := ⟨rfl,rfl,h.frame,prefix_rfl,rfl⟩
  post := fun a ha => ⟨h.post a ha,rfl⟩

theorem pushCell_framed (row : ℕ → Except RuntimeError PushedValue) (column : ℕ)
    (s : RowBatch × κ) :
    Framed (fun s t => s.1.Filled t.1) (pushCell context row column) s fun _ t =>
      ∃ value cell,row column = .ok value ∧ value.stored.depth ≤ maxListDepth ∧
        t.1.cells.values = s.1.cells.values++[cell] ∧
          value.stored.Held t.1.arenas.contents 0 cell := by
  unfold pushCell
  cases hrow : row column with
  | error e => exact ⟨filled_chained.refl s,nofun⟩
  | ok value =>
    dsimp only
    apply (copying_framed (copyValue_framed value (Nat.zero_le _) _)).bind filled_chained
    intro cell t _ ⟨⟨hdepth,hheld⟩,hcells⟩
    have hpushed : ∀ u,(do
        let cells ← t.1.cells.push cell
        return ({ t.1 with cells := cells },t.2) : Except RuntimeError (RowBatch × κ)) = .ok u →
        t.1.Filled u.1 ∧ u.1.cells.values = t.1.cells.values++[cell] ∧
          u.1.arenas = t.1.arenas := by
      intro u h
      obtain ⟨cells,hpush,rfl⟩ := bind_pure_eq_ok h
      unfold QueryArena.push at hpush
      split_ifs at hpush
      obtain rfl := Except.ok.inj hpush
      exact ⟨⟨rfl,rfl,.refl _ _,prefix_append _ _,rfl⟩,rfl,rfl⟩
    apply (Framed.attempt filled_chained _ fun u h => (hpushed u h).1).imp (fun _ h => h)
    intro _ u _ hu
    obtain ⟨_,hcell,harenas⟩ := hpushed u hu
    refine ⟨value,cell,rfl,hdepth,?_,?_⟩
    · rw [hcell,hcells]
    · rw [harenas]
      exact hheld.extends (.refl (fun _ => True) _) (fun _ _ => trivial) (Nat.zero_le _)

def Cells (row : ℕ → Except RuntimeError PushedValue) (before : RowBatch) (rest : List ℕ)
    (t : RowBatch × κ) : Prop :=
  ∃ count left,rest = List.range' count left ∧ count+left = before.columns ∧
    t.1.cells.values.length = before.cells.values.length+count ∧
    t.1.Holds before.cells.values.length row count

theorem cells_step {row : ℕ → Except RuntimeError PushedValue} {before : RowBatch} {column : ℕ}
    {rest : List ℕ} {t : RowBatch × κ} (h : Cells row before (column::rest) t) :
    Framed (fun s t => s.1.Filled t.1) (pushCell context row column) t fun _ u =>
      Cells row before rest u := by
  apply (pushCell_framed row column t).imp (fun _ h => h)
  intro _ u hu ⟨value,cell,hvalue,hdepth,hcell,hheld⟩
  obtain ⟨count,left,hrest,hcolumns,hlength,hholds⟩ := h
  cases left with
  | zero => cases hrest
  | succ left =>
    rw [range'_succ] at hrest
    obtain ⟨rfl,rfl⟩ := List.cons.inj hrest
    refine ⟨column+1,left,rfl,by omega,?_,?_⟩
    · rw [hcell,length_append,hlength]
      rfl
    · intro other hother
      rcases Nat.lt_succ_iff_lt_or_eq.mp hother with hbefore | rfl
      · exact hholds.kept hu.arenas hu.cells other hbefore
      · refine ⟨value,cell,hvalue,hdepth,?_,hheld⟩
        rw [hcell,← hlength,getElem?_concat_length]

structure Pushed (row : ℕ → Except RuntimeError PushedValue) (before batch : RowBatch) : Prop where
  columns_eq : batch.columns = before.columns
  arenas : before.arenas.contents.Extends (fun _ => True) batch.arenas.contents
  cells : before.cells.values <+: batch.cells.values
  offset : ∃ payloadBytes,batch.offsets.values =
    before.offsets.values++[⟨before.cells.values.length,payloadBytes⟩]
  holds : batch.Holds before.cells.values.length row batch.columns

theorem pushRow_undone (context : Context κ) (row : ℕ → Except RuntimeError PushedValue) (s : RowBatch × κ) :
    Undone (fun s t => s.1.Filled t.1) (pushRow context row) s fun _ t => Pushed row s.1 t.1 := by
  have hchain : Chained fun s t : RowBatch × κ => s.1.Filled t.1 := filled_chained
  have hask : ∀ request (t : RowBatch × κ),Framed (fun s t => s.1.Filled t.1)
      (copying (ask context request)) t fun _ _ => True := by
    intro request t
    apply (copying_framed (ask_framed request _)).imp (fun _ h => h)
    intro _ _ _ _
    trivial
  unfold pushRow
  apply (Framed.read hchain _).bind_undone hchain
  intro before t _ ⟨hbefore,ht⟩
  subst ht hbefore
  have hstart : Cells row t.1 (List.range t.1.columns) t := by
    refine ⟨0,t.1.columns,range_eq_range',Nat.zero_add _,rfl,?_⟩
    nofun
  apply (Framed.each hchain _ (fun _ _ _ => cells_step) _ t hstart).bind_undone hchain
  intro _ u hu ⟨count,left,hleft,hcolumns,hlength,hholds⟩
  apply (hask .checkpoint u).bind_undone hchain
  intro _ v hv _
  apply (hask .rowsOut v).bind_undone hchain
  intro _ w hw _
  have hfilled : t.1.Filled w.1 := hchain.trans _ _ _ hu (hchain.trans _ _ _ hv hw)
  have hlater : u.1.Filled w.1 := hchain.trans _ _ _ hv hw
  apply (Framed.attempt_undone hchain _).imp (fun _ h => h)
  intro _ x hx
  obtain ⟨offsets,hoffsets,rfl⟩ := bind_pure_eq_ok hx
  unfold QueryArena.push at hoffsets
  split_ifs at hoffsets
  obtain rfl := Except.ok.inj hoffsets
  have hcount : w.1.columns = count := by
    have hempty:=congrArg List.length hleft
    rw [length_range',length_nil] at hempty
    have hsame:=hfilled.columns_eq
    omega
  have hholds : w.1.Holds t.1.cells.values.length row w.1.columns := by
    rw [hcount]
    exact hholds.kept hlater.arenas hlater.cells
  exact ⟨hfilled.columns_eq,hfilled.arenas,hfilled.cells,⟨_,by rw [hfilled.offsets_eq]⟩,hholds⟩

theorem pushFrom_undone (row : ℕ → Except RuntimeError PushedValue) (s : RowBatch × κ) :
    Undone (fun s t => s.1.Unchanged t.1) (pushFrom context row) s fun _ t =>
      Pushed row s.1 t.1 := by
  have hchain : Chained fun s t : RowBatch × κ => s.1.Unchanged t.1 := unchanged_chained
  have hask : Framed (fun s t : RowBatch × κ => s.1.Unchanged t.1)
      (copying (ask context .checkpoint)) s fun _ t => t.1 = s.1 :=
    ⟨hchain.refl s,fun _ _ => rfl⟩
  unfold pushFrom
  apply hask.bind_undone hchain
  intro _ t _ ht
  rw [← ht]
  apply (Framed.read hchain _).bind_undone hchain
  intro before u _ ⟨hbefore,hu⟩
  subst hu hbefore
  apply (Framed.require hchain _ _).bind_undone hchain
  intro _ v _ ⟨_,hv⟩
  subst hv
  obtain ⟨hfailed,hpushed⟩ := pushRow_undone context row v
  rcases hrun : (pushRow context row).run v with ⟨outcome,w⟩
  rw [hrun] at hfailed hpushed
  cases outcome with
  | error e =>
    constructor
    · dsimp only
      rw [hrun]
      intro _ _
      exact (hfailed e rfl).rollBack
    · dsimp only
      rw [hrun]
      nofun
  | ok _ =>
    constructor
    · dsimp only
      rw [hrun]
      nofun
    · dsimp only
      rw [hrun]
      exact fun a _ => hpushed a rfl

inductive Run (context : Context κ) (columns maxRows : ℕ) (limit : Usage) (provision : Kind → ℕ) :
    List (ℕ → Except RuntimeError PushedValue) → RowBatch × κ → Prop
  | storage (c : κ) : Run context columns maxRows limit provision []
      (.storage columns maxRows limit provision,c)
  | pushed {rows row} {s t : RowBatch × κ} (h : Run context columns maxRows limit provision rows s)
      (hpush : (pushFrom context row).run s = (.ok (),t)) :
      Run context columns maxRows limit provision (rows++[row]) t
  | refused {rows row} {s t : RowBatch × κ} {e : RuntimeError}
      (h : Run context columns maxRows limit provision rows s)
      (hpush : (pushFrom context row).run s = (.error e,t)) :
      Run context columns maxRows limit provision rows t
  | used {rows} {batch : RowBatch} {c : κ} (c' : κ)
      (h : Run context columns maxRows limit provision rows (batch,c)) :
      Run context columns maxRows limit provision rows (batch,c')

structure HoldsRows (columns : ℕ) (rows : List (ℕ → Except RuntimeError PushedValue))
    (batch : RowBatch) : Prop where
  columns_eq : batch.columns = columns
  length_eq : batch.offsets.values.length = rows.length
  holds : ∀ (index : ℕ) (row : ℕ → Except RuntimeError PushedValue),rows[index]? = some row →
    ∃ offset,batch.offsets.values[index]? = some offset ∧ batch.Holds offset.start row columns

theorem HoldsRows.unchanged {columns : ℕ} {rows : List (ℕ → Except RuntimeError PushedValue)}
    {before batch : RowBatch} (hrows : HoldsRows columns rows before)
    (h : before.Unchanged batch) : HoldsRows columns rows batch where
  columns_eq := h.columns_eq.trans hrows.columns_eq
  length_eq := by rw [h.offsets_eq,hrows.length_eq]
  holds := by
    intro index row hrow
    obtain ⟨offset,hoffset,hholds⟩ := hrows.holds index row hrow
    rw [h.offsets_eq]
    exact ⟨offset,hoffset,hholds.kept h.filled.arenas h.filled.cells⟩

theorem HoldsRows.pushed {columns : ℕ} {rows : List (ℕ → Except RuntimeError PushedValue)}
    {row : ℕ → Except RuntimeError PushedValue} {before batch : RowBatch}
    (hrows : HoldsRows columns rows before) (h : Pushed row before batch) :
    HoldsRows columns (rows++[row]) batch where
  columns_eq := h.columns_eq.trans hrows.columns_eq
  length_eq := by
    obtain ⟨_,hoffsets⟩ := h.offset
    rw [hoffsets,length_append,length_append,hrows.length_eq]
    rfl
  holds := by
    intro index other hother
    obtain ⟨payloadBytes,hoffsets⟩ := h.offset
    rcases Nat.lt_or_ge index rows.length with hindex | hindex
    · rw [getElem?_append_left hindex] at hother
      obtain ⟨offset,hoffset,hholds⟩ := hrows.holds index other hother
      refine ⟨offset,?_,?_⟩
      · rw [hoffsets]
        exact Collections.getElem?_of_isPrefix (prefix_append _ _) hoffset
      · exact hholds.kept h.arenas h.cells
    · have hlast : index = rows.length := by
        have hbound:=(List.getElem?_eq_some_iff.mp hother).1
        rw [length_append,length_singleton] at hbound
        omega
      rw [hlast,getElem?_concat_length] at hother
      obtain rfl := Option.some.inj hother
      refine ⟨⟨before.cells.values.length,payloadBytes⟩,?_,?_⟩
      · rw [hoffsets,hlast,← hrows.length_eq,getElem?_concat_length]
      · rw [← hrows.columns_eq,← h.columns_eq]
        exact h.holds

theorem HoldsRows.read {columns : ℕ} {rows : List (ℕ → Except RuntimeError PushedValue)}
    {batch : RowBatch} (h : HoldsRows columns rows batch) {index column : ℕ}
    {row : ℕ → Except RuntimeError PushedValue} (hrow : rows[index]? = some row)
    (hcolumn : column < columns) :
    ∃ value,row column = .ok value ∧ batch.value index column = some value.stored := by
  obtain ⟨offset,hoffset,hholds⟩ := h.holds index row hrow
  obtain ⟨value,cell,hvalue,hdepth,hcell,hheld⟩ := hholds column hcolumn
  refine ⟨value,hvalue,?_⟩
  rw [RowBatch.value,if_neg (by rw [h.columns_eq]; omega),hoffset]
  show batch.cells.values[offset.start+column]?.bind _ = _
  rw [hcell]
  exact hheld.read hdepth

theorem Run.holdsRows {context : Context κ} {columns maxRows : ℕ} {limit : Usage}
    {provision : Kind → ℕ} {rows : List (ℕ → Except RuntimeError PushedValue)}
    {s : RowBatch × κ} (h : Run context columns maxRows limit provision rows s) :
    HoldsRows columns rows s.1 := by
  induction h with
  | storage c =>
    refine ⟨rfl,rfl,?_⟩
    intro index row hrow
    cases hrow
  | pushed hrun hpush ih =>
    have hpushed:=(pushFrom_undone _ _).post () (by rw [hpush])
    rw [hpush] at hpushed
    exact ih.pushed hpushed
  | refused hrun hpush ih =>
    have hundone:=(pushFrom_undone _ _).frame _ (by rw [hpush])
    rw [hpush] at hundone
    exact ih.unchanged hundone
  | used c' hrun ih => exact ih

/-- A push is atomic, and what was pushed stays: it reads back equal to what it was unless a map
in it is over a packed list. -/
theorem pushFrom_atomic (context : Context κ) :
    (∀ (row : ℕ → Except RuntimeError PushedValue) (batch : RowBatch) (c : κ) (e : RuntimeError)
      (t : RowBatch × κ),(pushFrom context row).run (batch,c) = (.error e,t) →
      batch.Unchanged t.1) ∧
    ∀ (columns maxRows : ℕ) (limit : Usage) (provision : Kind → ℕ)
      (rows : List (ℕ → Except RuntimeError PushedValue)) (batch : RowBatch) (c : κ),
      Run context columns maxRows limit provision rows (batch,c) →
      batch.rows = rows.length ∧ ∀ (index column : ℕ) (row : ℕ → Except RuntimeError PushedValue),
        rows[index]? = some row → column < columns →
        ∃ value,row column = .ok value ∧ ∃ read,batch.value index column = some read ∧
          (read.value = value.value ↔ value.Plain) := by
  constructor
  · intro row batch c e t hpush
    have hundone:=(pushFrom_undone row (batch,c)).frame e (by rw [hpush])
    rw [hpush] at hundone
    exact hundone
  · intro columns maxRows limit provision rows batch c hrun
    have hrows:=hrun.holdsRows
    refine ⟨hrows.length_eq,?_⟩
    intro index column row hrow hcolumn
    obtain ⟨value,hvalue,hread⟩ := hrows.read hrow hcolumn
    exact ⟨value,hvalue,value.stored,hread,value.stored_value_iff⟩

end Push

def freely : Context Unit := fun _ _ => (.ok (),())

def pairRow (column : ℕ) : Except RuntimeError PushedValue :=
  .ok (.list false [.string [7,8],.nodes false [column]])

def shortRow (column : ℕ) : Except RuntimeError PushedValue :=
  if column = 0 then .ok (.list false [.string [9]]) else .error .batch

def afterPush (columns : ℕ) (row : ℕ → Except RuntimeError PushedValue) :
    Except RuntimeError Unit × RowBatch × Unit :=
  (pushFrom freely row).run (.storage columns 3 (fun _ => 100) fun _ => 0,())

/-- One row of two columns is pushed, and then one that has no second column. -/
theorem pushFrom_atomic_second :
    (afterPush 2 pairRow).2.1.Unchanged ((pushFrom freely shortRow).run (afterPush 2 pairRow).2).2.1 ∧
      (afterPush 2 pairRow).2.1.rows = 1 ∧
      ∃ value,pairRow 1 = .ok value ∧ ∃ read,(afterPush 2 pairRow).2.1.value 0 1 = some read ∧
        (read.value = value.value ↔ value.Plain) := by
  obtain ⟨hatomic,hrun⟩ := pushFrom_atomic freely
  have hfirst : (afterPush 2 pairRow).1.isOk = true := by decide +kernel
  have hsecond : ((pushFrom freely shortRow).run (afterPush 2 pairRow).2).1.isOk = false := by
    decide +kernel
  constructor
  · cases hfailed : ((pushFrom freely shortRow).run (afterPush 2 pairRow).2).1 with
    | ok _ =>
      rw [hfailed] at hsecond
      cases hsecond
    | error e => exact hatomic shortRow (afterPush 2 pairRow).2.1 () e _ (Prod.ext hfailed rfl)
  · cases hpushed : (afterPush 2 pairRow).1 with
    | error e =>
      rw [hpushed] at hfirst
      cases hfirst
    | ok _ =>
      obtain ⟨hrows,hread⟩ := hrun 2 3 (fun _ => 100) (fun _ => 0) [pairRow]
        (afterPush 2 pairRow).2.1 () (.pushed (.storage ()) (Prod.ext hpushed rfl))
      exact ⟨hrows,hread 0 1 pairRow rfl (by decide)⟩

/-- An empty map over a packed list of node ids is pushed, and reads back as an empty list. -/
theorem packed_map_reads_back_as_list :
    (afterPush 1 fun _ => .ok (.nodes true [])).1.isOk = true ∧
      ((afterPush 1 fun _ => .ok (.nodes true [])).2.1.value 0 0).map BackedValue.value =
        some (.list []) ∧
      (PushedValue.nodes true []).value = .map [] :=
  ⟨by decide +kernel,rfl,rfl⟩

end Zeppelin.Query.Batch
