import Zeppelin.Query.OwnRow

/-! property_graph/query/pattern/mutation.rs -/

namespace Zeppelin.Query
open List

structure QueryArena (α : Type) where
  capacity : ℕ
  values : List α
  bounded : values.length ≤ capacity

def QueryArena.new (α : Type) (capacity : ℕ) : QueryArena α := ⟨capacity,[],Nat.zero_le _⟩

def QueryArena.push {α : Type} (arena : QueryArena α) (value : α) :
    Except RuntimeError (QueryArena α) :=
  if h : arena.values.length = arena.capacity then .error .memory
  else .ok ⟨arena.capacity,arena.values++[value],by
    have := arena.bounded
    rw [length_append,length_singleton]
    omega⟩

inductive EntityId where
  | node (id : ℕ)
  | relationship (id : ℕ)

def EntityId.cell : EntityId → BackedValue
  | .node id => .nodeRef id
  | .relationship id => .relRef id

structure UseSpan where
  start : ℕ
  len : ℕ

structure EagerState where
  rows : Rows (List BackedValue)
  spans : QueryArena UseSpan
  uses : QueryArena RelationshipUse
  capacity : StorageCapacity
  started : Bool
  next : ℕ

def EagerState.build (capacity : StorageCapacity) : Except RuntimeError EagerState := do
  let rows ← Rows.new capacity
  return ⟨rows,.new UseSpan capacity.rows,.new RelationshipUse (capacity.rows*16),capacity,
    false,0⟩

def EagerState.reset (state : EagerState) : Except RuntimeError EagerState := do
  let rows ← Rows.new state.capacity
  return ⟨rows,.new UseSpan state.spans.capacity,.new RelationshipUse state.uses.capacity,
    state.capacity,false,0⟩

abbrev Item (σ : Type) := σ → List BackedValue → Except RuntimeError (σ × Option (ℕ × EntityId))

def stageCells (input : List BackedValue) :
    List (Option ℕ) → List (Option EntityId) → Except RuntimeError (List BackedValue)
  | [],_ => .ok []
  | _::_,[] => .error .batch
  | _::sources,some id::created => do
    let cells ← stageCells input sources created
    return id.cell::cells
  | some column::sources,none::created => do
    let cell ← orBatch input[column]?
    let cells ← stageCells input sources created
    return cell::cells
  | none::sources,none::created => do
    let cells ← stageCells input sources created
    return .null::cells

def stageRow (capacity : StorageCapacity) (input : List BackedValue) (sources : List (Option ℕ))
    (created : List (Option EntityId)) : Except RuntimeError (List BackedValue) := do
  let cells ← stageCells input sources created
  let _ ← (RowBatch.empty 1 capacity.limit).push needList cells
  return cells

def bindCreated (sources : List (Option ℕ)) (created : List (Option EntityId)) (column : ℕ)
    (id : EntityId) : Except RuntimeError (List (Option EntityId)) :=
  match sources[column]? with
  | none => .error .batch
  | some (some _) => .error .reference
  | some none => .ok (created.set column (some id))

section Barrier

variable {σ : Type} (capacity : StorageCapacity) (sources : List (Option ℕ))

def performItems (input : List BackedValue) : List (Item σ) → List (Option EntityId) → σ →
    List BackedValue → Except RuntimeError (σ × List BackedValue)
  | [],_,overlay,row => .ok (overlay,row)
  | item::items,created,overlay,row => do
    let (overlay,bound) ← item overlay row
    match bound with
    | none => performItems input items created overlay row
    | some (column,id) => do
      let created ← bindCreated sources created column id
      let row ← stageRow capacity input sources created
      performItems input items created overlay row

def applyMutations (items : List (Item σ)) (input : List BackedValue) (overlay : σ) :
    Except RuntimeError (σ × List BackedValue) := do
  let row ← stageRow capacity input sources (List.replicate sources.length none)
  performItems capacity sources input items (List.replicate sources.length none) overlay row

def stagedRow (clause : Option (List (Item σ))) (input : List BackedValue) (overlay : σ) :
    Except RuntimeError (σ × List BackedValue) :=
  match clause with
  | some items => applyMutations capacity sources items input overlay
  | none => .ok (overlay,input)

structure Barrier (σ : Type) (capacity : StorageCapacity) where
  state : EagerState
  child : List (Pulled capacity)
  overlay : σ

variable {capacity}

def drain (clause : Option (List (Item σ))) : List (Pulled capacity) → σ → EagerState →
    Except RuntimeError (σ × EagerState)
  | [],overlay,state => .ok (overlay,state)
  | pulled::child,overlay,state => do
    let (overlay,cells) ← stagedRow capacity sources clause pulled.cells overlay
    let rows ← state.rows.push needList cells
    let uses ← pulled.uses.foldlM QueryArena.push state.uses
    let spans ← state.spans.push ⟨state.uses.values.length,
      uses.values.length-state.uses.values.length⟩
    drain clause child overlay { state with rows := rows,spans := spans,uses := uses }

def fillBarrier (clause : Option (List (Item σ))) (barrier : Barrier σ capacity) :
    Except RuntimeError (Barrier σ capacity) :=
  if barrier.state.started then .ok barrier
  else do
    let (overlay,state) ← drain sources clause barrier.child barrier.overlay
      { barrier.state with started := true }
    return ⟨state,[],overlay⟩

def emitKept (barrier : Barrier σ capacity) :
    Except RuntimeError (Option Output × Barrier σ capacity) :=
  if barrier.state.next = barrier.state.rows.len then .ok (none,barrier)
  else do
    let cells ← orBatch (barrier.state.rows.row barrier.state.next)
    let span ← orBatch barrier.state.spans.values[barrier.state.next]?
    let uses ← orBatch (slice barrier.state.uses.values span.start span.len)
    let output ← emitRow capacity cells uses
    return (some output,
      { barrier with state := { barrier.state with next := barrier.state.next+1 } })

def nextBarrier (clause : Option (List (Item σ))) (barrier : Barrier σ capacity) :
    Except RuntimeError (Option Output × Barrier σ capacity) := do
  let filled ← fillBarrier sources clause barrier
  emitKept filled

def pullBarrier (clause : Option (List (Item σ))) : ℕ → Barrier σ capacity →
    Except RuntimeError (List Output × Barrier σ capacity)
  | 0,barrier => .ok ([],barrier)
  | count+1,barrier => do
    let (output,barrier) ← nextBarrier sources clause barrier
    let (outputs,barrier) ← pullBarrier clause count barrier
    return (output.toList++outputs,barrier)

variable (capacity)

/-- The items applied to each row in order, without any storage. -/
def stagedRows (clause : Option (List (Item σ))) : List (Pulled capacity) → σ →
    Except RuntimeError (σ × List (List BackedValue))
  | [],overlay => .ok (overlay,[])
  | pulled::child,overlay => do
    let (overlay,cells) ← stagedRow capacity sources clause pulled.cells overlay
    let (overlay,rows) ← stagedRows clause child overlay
    return (overlay,cells::rows)

def storeRows (rows : List (List BackedValue)) : Except RuntimeError (Rows (List BackedValue)) := do
  let store ← Rows.new capacity
  rows.foldlM (Rows.push needList) store

end Barrier

variable {α : Type}

theorem QueryArena.push_eq {arena next : QueryArena α} {value : α}
    (h : arena.push value = .ok next) :
    next.values = arena.values++[value] ∧ next.capacity = arena.capacity := by
  unfold QueryArena.push at h
  split_ifs at h
  obtain rfl := Except.ok.inj h
  exact ⟨rfl,rfl⟩

theorem QueryArena.push_ok {arena : QueryArena α} (value : α)
    (h : arena.values.length < arena.capacity) : ∃ next,arena.push value = .ok next := by
  rw [QueryArena.push,dif_neg h.ne]
  exact ⟨_,rfl⟩

theorem QueryArena.extend_eq {values : List α} : ∀ {arena next : QueryArena α},
    values.foldlM QueryArena.push arena = .ok next →
    next.values = arena.values++values ∧ next.capacity = arena.capacity := by
  induction values with
  | nil =>
    intro arena next h
    obtain rfl := Except.ok.inj h
    exact ⟨(append_nil _).symm,rfl⟩
  | cons value values ih =>
    intro arena next h
    rw [foldlM_cons] at h
    obtain ⟨pushed,hpushed,hrest⟩ := bind_eq_ok h
    obtain ⟨hvalues,hcapacity⟩ := QueryArena.push_eq hpushed
    obtain ⟨hnext,hnextCapacity⟩ := ih hrest
    rw [hnext,hnextCapacity,hvalues,hcapacity,append_assoc,singleton_append]
    exact ⟨rfl,rfl⟩

theorem QueryArena.extend_ok {values : List α} : ∀ {arena : QueryArena α},
    arena.values.length+values.length ≤ arena.capacity →
    ∃ next,values.foldlM QueryArena.push arena = .ok next := by
  induction values with
  | nil => exact fun _ => ⟨_,rfl⟩
  | cons value values ih =>
    intro arena h
    rw [length_cons] at h
    obtain ⟨pushed,hpushed⟩ := arena.push_ok value (by omega)
    obtain ⟨hvalues,hcapacity⟩ := QueryArena.push_eq hpushed
    rw [foldlM_cons,hpushed,ok_bind]
    apply ih
    rw [hvalues,hcapacity,length_append,length_singleton]
    omega

def spansFrom : ℕ → List (List RelationshipUse) → List UseSpan
  | _,[] => []
  | start,uses::rest => ⟨start,uses.length⟩::spansFrom (start+uses.length) rest

theorem spansFrom_append (uses : List RelationshipUse) : ∀ (all : List (List RelationshipUse))
    (start : ℕ),spansFrom start (all++[uses]) =
      spansFrom start all++[⟨start+all.flatten.length,uses.length⟩]
  | [],_ => rfl
  | first::all,start => by
    rw [cons_append,spansFrom,spansFrom_append uses all,spansFrom,cons_append,
      flatten_cons,length_append,Nat.add_assoc]

theorem length_spansFrom : ∀ (all : List (List RelationshipUse)) (start : ℕ),
    (spansFrom start all).length = all.length
  | [],_ => rfl
  | _::all,_ => by rw [spansFrom,length_cons,length_cons,length_spansFrom all]

theorem slice_span {uses : List RelationshipUse} : ∀ (all : List (List RelationshipUse))
    (before : List RelationshipUse) {row : ℕ},all[row]? = some uses →
    ∃ start,(spansFrom before.length all)[row]? = some ⟨start,uses.length⟩ ∧
      slice (before++all.flatten) start uses.length = some uses
  | first::all,before,0,h => by
    obtain rfl := Option.some.inj h
    refine ⟨before.length,rfl,?_⟩
    rw [flatten_cons,← append_assoc]
    exact slice_of_isPrefix (slice_append before first) (prefix_append _ _)
  | first::all,before,row+1,h => by
    obtain ⟨start,hspan,hslice⟩ := slice_span all (before++first) h
    rw [length_append] at hspan
    refine ⟨start,hspan,?_⟩
    rw [flatten_cons,← append_assoc]
    exact hslice

section Barrier

variable {σ : Type} {capacity : StorageCapacity} {sources : List (Option ℕ)}
  {clause : Option (List (Item σ))}

structure Drained (bag : List (Pulled capacity)) (rows : List (List BackedValue))
    (state : EagerState) : Prop where
  rows_held : Stores capacity state.rows rows
  spans_eq : state.spans.values = spansFrom 0 (bag.map Pulled.uses)
  uses_eq : state.uses.values = (bag.map Pulled.uses).flatten

structure SameShape (before after : EagerState) : Prop where
  spans : after.spans.capacity = before.spans.capacity
  uses : after.uses.capacity = before.uses.capacity
  capacity : after.capacity = before.capacity
  started : after.started = before.started
  next : after.next = before.next

theorem drain_eq (hpositive : 0 < capacity.rows) : ∀ {child bag : List (Pulled capacity)}
    {rows : List (List BackedValue)} {overlay after : σ} {state final : EagerState},
    drain sources clause child overlay state = .ok (after,final) → Drained bag rows state →
    ∃ more,stagedRows capacity sources clause child overlay = .ok (after,more) ∧
      Drained (bag++child) (rows++more) final ∧ SameShape state final := by
  intro child
  induction child with
  | nil =>
    intro bag rows overlay after state final h hdrained
    obtain ⟨rfl,rfl⟩ := Prod.mk.inj (Except.ok.inj h)
    refine ⟨[],rfl,?_,rfl,rfl,rfl,rfl,rfl⟩
    rwa [append_nil,append_nil]
  | cons pulled child ih =>
    intro bag rows overlay after state final h hdrained
    obtain ⟨⟨changed,cells⟩,hstaged,h⟩ := bind_eq_ok h
    obtain ⟨stored,hstored,h⟩ := bind_eq_ok h
    obtain ⟨uses,huses,h⟩ := bind_eq_ok h
    obtain ⟨spans,hspans,h⟩ := bind_eq_ok h
    obtain ⟨husesValues,husesCapacity⟩ := QueryArena.extend_eq huses
    obtain ⟨hspansValues,hspansCapacity⟩ := QueryArena.push_eq hspans
    have hlength : uses.values.length-state.uses.values.length = pulled.uses.length := by
      rw [husesValues,length_append,Nat.add_sub_cancel_left]
    have hnext : Drained (bag++[pulled]) (rows++[cells])
        { state with rows := stored,spans := spans,uses := uses } := by
      constructor
      · exact (hdrained.rows_held.pushed hpositive hstored).1
      · rw [map_append,map_singleton,spansFrom_append,hspansValues,hlength,
          hdrained.spans_eq,hdrained.uses_eq,Nat.zero_add]
      · rw [map_append,map_singleton,flatten_append,flatten_singleton,
          husesValues,hdrained.uses_eq]
    obtain ⟨more,hmore,hdrainedAll,hshape⟩ := ih h hnext
    refine ⟨cells::more,?_,?_,?_⟩
    · rw [stagedRows,hstaged,ok_bind]
      dsimp only
      rw [hmore]
      rfl
    · rwa [append_assoc,append_assoc] at hdrainedAll
    · exact ⟨hshape.spans.trans hspansCapacity,hshape.uses.trans husesCapacity,hshape.capacity,
        hshape.started,hshape.next⟩

theorem drain_ok : ∀ {child : List (Pulled capacity)} {overlay after : σ}
    {rows : List (List BackedValue)} (state : EagerState) {store : Rows (List BackedValue)},
    stagedRows capacity sources clause child overlay = .ok (after,rows) →
    rows.foldlM (Rows.push needList) state.rows = .ok store →
    state.spans.values.length+child.length ≤ state.spans.capacity →
    state.uses.values.length+(child.map fun pulled => pulled.uses.length).sum ≤
      state.uses.capacity →
    ∃ final,drain sources clause child overlay state = .ok (after,final) := by
  intro child
  induction child with
  | nil =>
    intro overlay after rows state store hrows _ _ _
    obtain ⟨rfl,_⟩ := Prod.mk.inj (Except.ok.inj hrows)
    exact ⟨state,rfl⟩
  | cons pulled child ih =>
    intro overlay after rows state store hrows hstore hspansRoom husesRoom
    obtain ⟨⟨changed,cells⟩,hstaged,hrows⟩ := bind_eq_ok hrows
    obtain ⟨⟨last,more⟩,hmore,hrows⟩ := bind_eq_ok hrows
    obtain ⟨rfl,rfl⟩ := Prod.mk.inj (Except.ok.inj hrows)
    rw [foldlM_cons] at hstore
    obtain ⟨stored,hstored,hstore⟩ := bind_eq_ok hstore
    rw [length_cons] at hspansRoom
    rw [map_cons,sum_cons] at husesRoom
    have hroom : state.uses.values.length+pulled.uses.length ≤ state.uses.capacity := by omega
    obtain ⟨uses,huses⟩ := QueryArena.extend_ok hroom
    obtain ⟨spans,hspans⟩ := state.spans.push_ok ⟨state.uses.values.length,
      uses.values.length-state.uses.values.length⟩ (by omega)
    obtain ⟨husesValues,husesCapacity⟩ := QueryArena.extend_eq huses
    obtain ⟨hspansValues,hspansCapacity⟩ := QueryArena.push_eq hspans
    obtain ⟨final,hfinal⟩ := ih
      { state with rows := stored,spans := spans,uses := uses } hmore hstore
      (by simp only [hspansValues,hspansCapacity,length_append,length_singleton]
          omega)
      (by simp only [husesValues,husesCapacity,length_append]
          omega)
    refine ⟨final,?_⟩
    rw [drain,hstaged,ok_bind]
    dsimp only
    rw [hstored,ok_bind,huses,ok_bind,hspans,ok_bind]
    exact hfinal

variable {bag : List (Pulled capacity)} {rows : List (List BackedValue)}
  {barrier : Barrier σ capacity}

theorem emitKept_eq (hpositive : 0 < capacity.rows)
    (h : Drained bag rows barrier.state) (hlength : rows.length = bag.length)
    (hfits : ∀ cells ∈ rows,needList cells ≤ capacity.limit)
    (hnext : barrier.state.next ≤ rows.length) :
    emitKept barrier = .ok ((rows.zip (bag.map Pulled.uses))[barrier.state.next]?,
      { barrier with state := { barrier.state with
          next := min (barrier.state.next+1) rows.length } }) := by
  rw [emitKept,h.rows_held.len_eq]
  by_cases hend : barrier.state.next = rows.length
  · rw [if_pos hend,getElem?_eq_none (by rw [length_zip]; omega),
      Nat.min_eq_right (by omega),← hend]
  · have hrow : barrier.state.next < rows.length := by omega
    have hpulled : barrier.state.next < bag.length := by omega
    have huses : (bag.map Pulled.uses)[barrier.state.next]? =
        some bag[barrier.state.next].uses := by
      rw [getElem?_map,getElem?_eq_getElem hpulled,Option.map_some]
    obtain ⟨start,hspan,hslice⟩ := slice_span _ [] huses
    rw [if_neg hend,h.rows_held.row_eq hpositive,getElem?_eq_getElem hrow,h.spans_eq]
    simp only [orBatch,ok_bind]
    rw [show spansFrom 0 (bag.map Pulled.uses) =
      spansFrom ([] : List RelationshipUse).length (bag.map Pulled.uses) from rfl,hspan]
    simp only [ok_bind]
    rw [h.uses_eq,show (bag.map Pulled.uses).flatten = []++(bag.map Pulled.uses).flatten from rfl,
      hslice]
    simp only [ok_bind]
    have hpair : (rows.zip (bag.map Pulled.uses))[barrier.state.next]? =
        some (rows[barrier.state.next],bag[barrier.state.next].uses) :=
      getElem?_zip_eq_some.mpr ⟨getElem?_eq_getElem hrow,huses⟩
    rw [emitRow_eq (hfits _ (getElem_mem hrow)) bag[barrier.state.next].distinct
      bag[barrier.state.next].bounded,ok_bind,hpair,Nat.min_eq_left (by omega)]
    rfl

theorem pullBarrier_filled (sources : List (Option ℕ)) (clause : Option (List (Item σ)))
    (hpositive : 0 < capacity.rows) (hlength : rows.length = bag.length)
    (hfits : ∀ cells ∈ rows,needList cells ≤ capacity.limit) (count : ℕ) :
    ∀ barrier : Barrier σ capacity,Drained bag rows barrier.state →
      barrier.state.started = true → barrier.state.next ≤ rows.length →
      ∃ last,pullBarrier sources clause count barrier =
        .ok (((rows.zip (bag.map Pulled.uses)).drop barrier.state.next).take count,last) ∧
          last.child = barrier.child ∧ last.overlay = barrier.overlay ∧
            last.state.reset = barrier.state.reset := by
  induction count with
  | zero => exact fun _ _ _ _ => ⟨_,rfl,rfl,rfl,rfl⟩
  | succ count ih =>
    intro barrier h hstarted hnext
    have hpull:=emitKept_eq hpositive h hlength hfits hnext
    generalize houtput : (rows.zip (bag.map Pulled.uses))[barrier.state.next]? = output at hpull
    obtain ⟨last,hlast,hchild,hoverlay,hreset⟩ := ih { barrier with
      state := { barrier.state with next := min (barrier.state.next+1) rows.length } }
      ⟨h.rows_held,h.spans_eq,h.uses_eq⟩ hstarted (Nat.min_le_right _ _)
    dsimp only at hlast
    refine ⟨last,?_,hchild,hoverlay,hreset⟩
    rw [pullBarrier,nextBarrier,fillBarrier,if_pos hstarted,ok_bind,hpull,ok_bind]
    dsimp only
    rw [hlast,ok_bind]
    have htotal : (rows.zip (bag.map Pulled.uses)).length = rows.length := by
      rw [length_zip,length_map]
      omega
    cases output with
    | none =>
      have hend:=List.getElem?_eq_none_iff.mp houtput
      rw [drop_of_length_le (by omega),drop_of_length_le (by omega),
        take_nil,take_nil]
      rfl
    | some output =>
      obtain ⟨hlt,rfl⟩ := List.getElem?_eq_some_iff.mp houtput
      rw [drop_eq_getElem_cons hlt,take_succ_cons]
      simp only [Option.toList_some,singleton_append]
      rw [Nat.min_eq_left (by omega)]
      rfl

/-- The child is drained before the first row comes out, then every row comes out once and in
order, and a reset starts again. -/
def KeepsEveryRow (capacity : StorageCapacity) (sources : List (Option ℕ))
    (clause : Option (List (Item σ))) (bag : List (Pulled capacity)) (overlay after : σ)
    (rows : List (List BackedValue)) : Prop :=
  ∃ state,EagerState.build capacity = .ok state ∧ ∀ count,∃ last,
    pullBarrier sources clause count ⟨state,bag,overlay⟩ =
      .ok ((rows.zip (bag.map Pulled.uses)).take count,last) ∧
    (0 < count → last.child = [] ∧ last.overlay = after) ∧
      last.state.reset = EagerState.build capacity

theorem storeRows_eq (hpositive : 0 < capacity.rows) :
    ∀ {held : List (List BackedValue)} {store final : Rows (List BackedValue)},
      Stores capacity store held → rows.foldlM (Rows.push needList) store = .ok final →
      ∀ cells ∈ rows,needList cells ≤ capacity.limit := by
  induction rows with
  | nil => exact fun _ _ _ hcells => absurd hcells not_mem_nil
  | cons first rows ih =>
    intro held store final h hfinal cells hcells
    rw [foldlM_cons] at hfinal
    obtain ⟨next,hnext,hrest⟩ := bind_eq_ok hfinal
    obtain ⟨hstores,_,hcost⟩ := h.pushed hpositive hnext
    rcases mem_cons.mp hcells with rfl | hcells
    · exact hcost
    · exact ih hstores hrest cells hcells

theorem stagedRows_length : ∀ {child : List (Pulled capacity)} {overlay after : σ}
    {rows : List (List BackedValue)},
    stagedRows capacity sources clause child overlay = .ok (after,rows) →
    rows.length = child.length := by
  intro child
  induction child with
  | nil =>
    intro overlay after rows h
    obtain ⟨_,rfl⟩ := Prod.mk.inj (Except.ok.inj h)
    rfl
  | cons pulled child ih =>
    intro overlay after rows h
    obtain ⟨⟨changed,cells⟩,_,hrest⟩ := bind_eq_ok h
    obtain ⟨⟨last,more⟩,hmore,hlast⟩ := bind_eq_ok hrest
    obtain ⟨_,rfl⟩ := Prod.mk.inj (Except.ok.inj hlast)
    rw [length_cons,length_cons,ih hmore]

theorem pullBarrier_fresh {count : ℕ} {filled : Barrier σ capacity}
    (hfill : fillBarrier sources clause barrier = .ok filled)
    (hstarted : filled.state.started = true) : pullBarrier sources clause (count+1) barrier =
      pullBarrier sources clause (count+1) filled := by
  rw [pullBarrier,nextBarrier,hfill,pullBarrier,nextBarrier,fillBarrier,if_pos hstarted]

theorem pullBarrier_empty (sources : List (Option ℕ)) (clause : Option (List (Item σ)))
    (count : ℕ) : ∀ barrier : Barrier σ capacity,barrier.child = [] →
    barrier.state.next = barrier.state.rows.len → ∃ last,
      pullBarrier sources clause count barrier = .ok ([],last) ∧ last.child = [] ∧
        last.overlay = barrier.overlay ∧ last.state.reset = barrier.state.reset := by
  induction count with
  | zero => exact fun barrier hchild _ => ⟨barrier,rfl,hchild,rfl,rfl⟩
  | succ count ih =>
    intro barrier hchild hnext
    obtain ⟨filled,hfilled,hfilledChild,hfilledNext,hoverlay,hreset⟩ : ∃ filled,
        fillBarrier sources clause barrier = .ok filled ∧ filled.child = [] ∧
          filled.state.next = filled.state.rows.len ∧ filled.overlay = barrier.overlay ∧
            filled.state.reset = barrier.state.reset := by
      rw [fillBarrier]
      by_cases hstarted : barrier.state.started = true
      · rw [if_pos hstarted]
        exact ⟨barrier,rfl,hchild,hnext,rfl,rfl⟩
      · rw [if_neg hstarted,hchild]
        exact ⟨_,rfl,rfl,hnext,rfl,rfl⟩
    obtain ⟨last,hlast,hlastChild,hlastOverlay,hlastReset⟩ :=
      ih filled hfilledChild hfilledNext
    refine ⟨last,?_,hlastChild,hlastOverlay.trans hoverlay,hlastReset.trans hreset⟩
    rw [pullBarrier,nextBarrier,hfilled,ok_bind,emitKept,if_pos hfilledNext,ok_bind]
    dsimp only
    rw [hlast]
    rfl

/-- Wherever the row store takes all rows, the barrier keeps them exactly when the rows and the
uses fit the arenas of one chunk. -/
theorem barrier_keeps_iff {capacity : StorageCapacity} (sources : List (Option ℕ))
    (clause : Option (List (Item σ))) (bag : List (Pulled capacity)) (overlay after : σ)
    (rows : List (List BackedValue)) (store : Rows (List BackedValue))
    (hstaged : stagedRows capacity sources clause bag overlay = .ok (after,rows))
    (hstore : storeRows capacity rows = .ok store) :
    KeepsEveryRow capacity sources clause bag overlay after rows ↔
      bag.length ≤ capacity.rows ∧
        (bag.map fun pulled => pulled.uses.length).sum ≤ capacity.rows*16 := by
  have hcount:=stagedRows_length hstaged
  obtain ⟨empty,hempty,hpushes⟩ := bind_eq_ok hstore
  have hbuild : EagerState.build capacity = .ok ⟨empty,.new UseSpan capacity.rows,
      .new RelationshipUse (capacity.rows*16),capacity,false,0⟩ := by
    rw [EagerState.build,hempty]
    rfl
  rcases Nat.eq_zero_or_pos capacity.rows with hzero | hpositive
  · -- the store takes nothing, so the bag is empty
    have hmax : capacity.maxRows = 0 := by
      by_contra hmax
      rw [Rows.new,if_pos ⟨hzero,hmax⟩] at hempty
      cases hempty
    rw [Rows.new,if_neg (fun hboth => hboth.2 hmax)] at hempty
    obtain rfl := Except.ok.inj hempty
    cases rows with
    | cons cells rows =>
      rw [foldlM_cons] at hpushes
      obtain ⟨next,hnext,_⟩ := bind_eq_ok hpushes
      rw [Rows.push,if_pos hmax.symm] at hnext
      cases hnext
    | nil =>
      obtain rfl : bag = [] := length_eq_zero_iff.mp hcount.symm
      obtain ⟨rfl,_⟩ := Prod.mk.inj (Except.ok.inj hstaged)
      obtain ⟨state,hstate,hnext⟩ : ∃ state,EagerState.build capacity = .ok state ∧
          state.next = state.rows.len := ⟨_,hbuild,rfl⟩
      refine ⟨fun _ => ⟨Nat.zero_le _,Nat.zero_le _⟩,fun _ => ⟨state,hstate,?_⟩⟩
      intro count
      rw [zip_nil_left,take_nil]
      have hreset : state.reset = EagerState.build capacity := by
        obtain rfl := Except.ok.inj (hbuild.symm.trans hstate)
        rfl
      obtain ⟨last,hlast,hchild,hoverlay,hlastReset⟩ :=
        pullBarrier_empty sources clause count ⟨state,[],overlay⟩ rfl hnext
      exact ⟨last,hlast,fun _ => ⟨hchild,hoverlay⟩,hlastReset.trans hreset⟩
  · obtain ⟨fresh,hfresh,hstores⟩ := stores_new (ρ := List BackedValue) hpositive
    obtain rfl := Except.ok.inj (hempty.symm.trans hfresh)
    have hdrained : Drained ([] : List (Pulled capacity)) [] ⟨empty,.new UseSpan capacity.rows,
        .new RelationshipUse (capacity.rows*16),capacity,true,0⟩ := ⟨hstores,rfl,rfl⟩
    constructor
    · intro hkeeps
      obtain ⟨state,hstate,hpulls⟩ := hkeeps
      obtain rfl := Except.ok.inj (hbuild.symm.trans hstate)
      obtain ⟨last,hlast,_⟩ := hpulls 1
      obtain ⟨⟨output,pulled⟩,hpull,_⟩ := bind_eq_ok hlast
      obtain ⟨filled,hfilled,_⟩ := bind_eq_ok hpull
      rw [fillBarrier,if_neg Bool.false_ne_true] at hfilled
      obtain ⟨⟨changed,final⟩,hdrain,_⟩ := bind_eq_ok hfilled
      obtain ⟨more,_,hall,hshape⟩ := drain_eq hpositive hdrain hdrained
      have hspans:=final.spans.bounded
      have huses:=final.uses.bounded
      rw [hshape.spans,hall.spans_eq,nil_append,length_spansFrom,length_map] at hspans
      rw [hshape.uses,hall.uses_eq,nil_append,length_flatten,map_map] at huses
      exact ⟨hspans,huses⟩
    · intro hfits
      obtain ⟨hspans,huses⟩ := hfits
      obtain ⟨final,hfinal⟩ := drain_ok (⟨empty,.new UseSpan capacity.rows,
        .new RelationshipUse (capacity.rows*16),capacity,true,0⟩ : EagerState) hstaged hpushes
        (by simpa [QueryArena.new] using hspans) (by simpa [QueryArena.new] using huses)
      obtain ⟨more,hmore,hall,hshape⟩ := drain_eq hpositive hfinal hdrained
      obtain ⟨_,rfl⟩ := Prod.mk.inj (Except.ok.inj (hstaged.symm.trans hmore))
      rw [nil_append,nil_append] at hall
      refine ⟨_,hbuild,?_⟩
      have hreset : final.reset = EagerState.build capacity := by
        rw [EagerState.reset,hshape.capacity,hshape.spans,hshape.uses,hempty,EagerState.build,
          hempty]
        rfl
      intro count
      cases count with
      | zero =>
        refine ⟨_,rfl,fun hcount => absurd hcount (Nat.lt_irrefl 0),?_⟩
        rw [EagerState.reset,EagerState.build]
        rfl
      | succ count =>
        have hfill : fillBarrier sources clause (⟨⟨empty,.new UseSpan capacity.rows,
            .new RelationshipUse (capacity.rows*16),capacity,false,0⟩,bag,overlay⟩ :
              Barrier σ capacity) = .ok ⟨final,[],after⟩ := by
          rw [fillBarrier,if_neg Bool.false_ne_true]
          dsimp only
          rw [hfinal]
          rfl
        have hstarted : final.started = true := hshape.started
        have hnext : final.next = 0 := hshape.next
        obtain ⟨last,hlast,hchild,hoverlay,hlastReset⟩ := pullBarrier_filled sources clause
          hpositive hcount (storeRows_eq hpositive hstores hpushes) (count+1) ⟨final,[],after⟩
          hall hstarted (by simp only [hnext]; exact Nat.zero_le _)
        refine ⟨last,?_,fun _ => ⟨hchild,hoverlay⟩,hlastReset.trans hreset⟩
        rw [pullBarrier_fresh hfill hstarted,hlast]
        simp only [hnext,drop_zero]

def emptyRow (capacity : StorageCapacity) : Pulled capacity where
  cells := []
  columns_le := Nat.zero_le _
  depth_le := Nat.zero_le _
  payload_le := Nat.zero_le _
  fits := fun _ => Nat.zero_le _
  uses := []
  distinct := nodup_nil
  bounded := Nat.zero_le _

def twoChunks : StorageCapacity := { defaultCapacity with rows := 1,maxRows := 2 }

theorem barrier_keeps_iff_one : KeepsEveryRow twoChunks [] (none : Option (List (Item Unit)))
      [emptyRow twoChunks] () () [[]] ↔
    [emptyRow twoChunks].length ≤ twoChunks.rows ∧
      ([emptyRow twoChunks].map fun pulled => pulled.uses.length).sum ≤ twoChunks.rows*16 :=
  barrier_keeps_iff [] none [emptyRow twoChunks] () () [[]] _ rfl rfl

/-- The store takes a second row, but the spans have no place for it. -/
theorem barrier_loses_second_chunk :
    (∃ store,storeRows twoChunks [[],[]] = .ok store) ∧
      stagedRows twoChunks [] (none : Option (List (Item Unit)))
        [emptyRow twoChunks,emptyRow twoChunks] () = .ok ((),[[],[]]) ∧
      ¬ KeepsEveryRow twoChunks [] (none : Option (List (Item Unit)))
        [emptyRow twoChunks,emptyRow twoChunks] () () [[],[]] := by
  refine ⟨⟨_,rfl⟩,rfl,?_⟩
  intro ⟨state,hstate,hpulls⟩
  obtain ⟨last,hlast,_⟩ := hpulls 1
  have herror : (do
      let state ← EagerState.build twoChunks
      pullBarrier [] (none : Option (List (Item Unit))) 1
        (⟨state,[emptyRow twoChunks,emptyRow twoChunks],()⟩ : Barrier Unit twoChunks)) =
          .error .memory := rfl
  rw [hstate,ok_bind,hlast] at herror
  cases herror

end Barrier

end Zeppelin.Query
