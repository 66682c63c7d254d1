import Zeppelin.Machine.Pull
import Zeppelin.Query.ExpandCursor
import Zeppelin.Query.OwnRow

/-! property_graph/query/pattern.rs -/

namespace Zeppelin.Query
open Machine List

structure ChildRow where
  cells : List BackedValue
  uses : List RelationshipUse

/-- The operator. Its plan was validated: the bounds are in order, and the slots are new. -/
structure BoundedExpand where
  view : GraphView
  origin : ℕ
  childSchema : List ℕ
  source : ℕ
  node : ℕ
  relationships : ℕ
  edgePredicate : Option (ChildRow → ℕ → Except RuntimeError Bool)
  completedEdgePredicate : Option (ChildRow → List ℕ → ℕ → Except RuntimeError Bool)
  min : ℕ
  max : ℕ
  direction : Direction
  pattern : ℕ
  selection : Option (List ℕ)
  capacity : StorageCapacity
  ordered : min ≤ max
  small : max ≤ 16
  fresh : (childSchema++[node,relationships]).Nodup

structure Expansion where
  /-- The rows that the child has still to give. -/
  children : List ChildRow
  /-- The row that it gave last. -/
  current : Option ChildRow
  frames : List ExpandCursor
  path : List ℕ
  nodes : List ℕ
  zeroPending : Bool
  active : Bool

/-- `QueryArena::push` -/
def pushTo {α : Type} (capacity : ℕ) (values : List α) (value : α) :
    Except RuntimeError (List α) :=
  if values.length = capacity then .error .memory else .ok (values++[value])

def neighbor (source : ℕ) (relationship : RelationshipRow) :
    Direction → Except RuntimeError ℕ
  | .outgoing => if relationship.source = source then .ok relationship.target else .error .batch
  | .incoming => if relationship.target = source then .ok relationship.source else .error .batch
  | .either =>
    if relationship.source = source then .ok relationship.target
    else if relationship.target = source then .ok relationship.source
    else .error .batch

def column (schema : List ℕ) (slot : ℕ) : Option ℕ := schema.findIdx? (· = slot)

theorem column_eq_none {schema : List ℕ} {slot : ℕ} (h : slot ∉ schema) :
    column schema slot = none := by
  rw [column,findIdx?_eq_none_iff]
  intro other hother
  simp only [decide_eq_false_iff_not]
  rintro rfl
  exact h hother

namespace BoundedExpand

variable (op : BoundedExpand)

def schema : List ℕ := op.childSchema++[op.node,op.relationships]

def nodeAt (child : ChildRow) : Except RuntimeError ℕ :=
  match (column op.childSchema op.source).bind fun column => child.cells[column]? with
  | some (.nodeRef id) => .ok id
  | _ => .error .batch

def relationshipUsed (child : ChildRow) (relationship : ℕ) : Bool :=
  child.uses.any fun used =>
    used.pattern = op.pattern && used.relationship = relationship && used.origin ≠ op.origin

def retainsEdge (child : ChildRow) (relationship : ℕ) : Except RuntimeError Bool :=
  match op.edgePredicate with
  | none => .ok true
  | some predicate => predicate child relationship

def allRetained (predicate : ℕ → Except RuntimeError Bool) : List ℕ → Except RuntimeError Bool
  | [] => .ok true
  | relationship::rest => do
    let retained ← predicate relationship
    if retained then allRetained predicate rest else return false

def retainsPath (child : ChildRow) (path : List ℕ) : Except RuntimeError Bool :=
  match op.completedEdgePredicate with
  | none => .ok true
  | some predicate => allRetained (predicate child path) path

def pathCell (child : ChildRow) (endpoint : ℕ) (path : List ℕ) (slot : ℕ) :
    Except RuntimeError BackedValue :=
  match column op.childSchema slot with
  | some column =>
    match child.cells[column]? with
    | some value => .ok value
    | none => .error .batch
  | none =>
    if slot = op.node then .ok (.nodeRef endpoint)
    else if slot = op.relationships then .ok (.relationships path)
    else .error .batch

def pushPath (child : ChildRow) (endpoint : ℕ) (path : List ℕ) : Except RuntimeError Output := do
  let cells ← op.schema.mapM (op.pathCell child endpoint path)
  emitRow op.capacity cells
    (child.uses++path.map fun relationship => ⟨op.pattern,op.origin,relationship⟩)

def cursor (node : ℕ) : ExpandCursor := .new node op.direction op.selection

/-- The next row of the child, where the search of the last one is over. -/
def activate (state : Expansion) : Except RuntimeError (Option Expansion) :=
  if state.active then .ok (some state)
  else
    match state.children with
    | [] => .ok none
    | child::children => do
      let start ← op.nodeAt child
      let nodes ← pushTo (op.max+1) [] start
      let frames ← pushTo (op.max+1) [] (op.cursor start)
      return some ⟨children,some child,frames,[],nodes,op.min = 0,true⟩

def zeroPath (state : Expansion) (child : ChildRow) :
    Except RuntimeError (Turn Expansion Output) :=
  match state.nodes.head? with
  | none => .error .batch
  | some start => do
    let out ← op.pushPath child start state.path
    let state:={ state with zeroPending := false }
    return .emit out (if op.max = 0 then { state with frames := [],active := false } else state)

/-- The last relationship of the path has no cursor of its own: it was followed to the full
length, and is left behind. None where the search is over. -/
def unwind (state : Expansion) : Option Expansion :=
  if state.frames.length = state.path.length then
    if state.path = [] then none
    else some { state with
      path := state.path.take (state.path.length-1)
      nodes := state.nodes.take (state.nodes.length-1) }
  else some state

def backtrack (state : Expansion) : Expansion :=
  let frames:=state.frames.take (state.frames.length-1)
  { state with
    frames := frames
    path := state.path.take (frames.length-1)
    nodes := state.nodes.take frames.length
    active := frames ≠ [] }

def lengthen (state : Expansion) (relationship next : ℕ) : Except RuntimeError Expansion := do
  let path ← pushTo op.max state.path relationship
  let nodes ← pushTo (op.max+1) state.nodes next
  failIf (255 < path.length) .batch
  if path.length < op.max then do
    let frames ← pushTo (op.max+1) state.frames (op.cursor next)
    return { state with path := path,nodes := nodes,frames := frames }
  else return { state with path := path,nodes := nodes }

def complete (state : Expansion) (child : ChildRow) (endpoint : ℕ) :
    Except RuntimeError (Turn Expansion Output) :=
  if state.path.length < op.min then .ok (.next state)
  else do
    let retained ← op.retainsPath child state.path
    if retained then do
      let out ← op.pushPath child endpoint state.path
      return .emit out state
    else return .next state

def consider (state : Expansion) (child : ChildRow) (relationship : RelationshipRow) :
    Except RuntimeError (Turn Expansion Output) :=
  if relationship.rel ∈ state.path ∨ op.relationshipUsed child relationship.rel = true then
    .ok (.next state)
  else
    match state.nodes.getLast? with
    | none => .error .batch
    | some current => do
      let next ← neighbor current relationship op.direction
      let retained ← op.retainsEdge child relationship.rel
      if retained then do
        let state ← op.lengthen state relationship.rel next
        op.complete state child next
      else return .next state

def search (state : Expansion) (child : ChildRow) : Except RuntimeError (Turn Expansion Output) :=
  match state.frames.getLast? with
  | none => .ok (.next { state with active := false })
  | some frame =>
    match frame.scan op.view with
    | none => .error .batch
    | some (after,none) =>
      if after.exhausted then .ok (.next (backtrack state)) else .error .batch
    | some (after,some relationship) =>
      op.consider { state with frames := state.frames.dropLast++[after] } child relationship

def round (state : Expansion) : Except RuntimeError (Turn Expansion Output) := do
  let active ← op.activate state
  match active with
  | none => return .done
  | some state =>
    match state.current with
    | none => .error .batch
    | some child =>
      if state.zeroPending then op.zeroPath state child
      else
        match unwind state with
        | none => return .next { state with active := false }
        | some state => op.search state child

def start (children : List ChildRow) : Expansion := ⟨children,none,[],[],[],false,false⟩

end BoundedExpand

structure Found where
  path : List ℕ
  endpoint : ℕ
  output : Output

namespace BoundedExpand

variable (op : BoundedExpand) (child : ChildRow)

def emission (path : List ℕ) (endpoint : ℕ) : Walk Found RuntimeError :=
  if path.length < op.min then Walk.nil
  else
    match op.retainsPath child path with
    | .error e => Walk.fail e
    | .ok false => Walk.nil
    | .ok true =>
      match op.pushPath child endpoint path with
      | .error e => Walk.fail e
      | .ok out => ([⟨path,endpoint,out⟩],none)

def incident (node : ℕ) : List RelationshipRow := (op.cursor node).remaining op.view

def stepWalk (deeper : List ℕ → ℕ → Walk Found RuntimeError) (path : List ℕ) (node : ℕ)
    (row : RelationshipRow) : Walk Found RuntimeError :=
  if row.rel ∈ path ∨ op.relationshipUsed child row.rel = true then Walk.nil
  else
    match neighbor node row op.direction with
    | .error e => Walk.fail e
    | .ok next =>
      match op.retainsEdge child row.rel with
      | .error e => Walk.fail e
      | .ok false => Walk.nil
      | .ok true =>
        (op.emission child (path++[row.rel]) next).andThen (deeper (path++[row.rel]) next)

def walkRow : ℕ → List ℕ → ℕ → RelationshipRow → Walk Found RuntimeError
  | 0 => op.stepWalk child fun _ _ => Walk.nil
  | more+1 =>
    op.stepWalk child fun path node => Walk.each (walkRow more path node) (op.incident node)

def walkRest (start : ℕ) : Walk Found RuntimeError :=
  match op.max with
  | 0 => Walk.nil
  | more+1 => Walk.each (op.walkRow child more [] start) (op.incident start)

def walkFrom (start : ℕ) : Walk Found RuntimeError :=
  (op.emission child [] start).andThen (op.walkRest child start)

def walkChild : Walk Found RuntimeError :=
  match op.nodeAt child with
  | .error e => Walk.fail e
  | .ok start => op.walkFrom child start

variable {op child} {children : List ChildRow} {frames : List ExpandCursor} {path nodes : List ℕ}
  {node : ℕ}

def searching (children : List ChildRow) (child : ChildRow) (frames : List ExpandCursor)
    (path nodes : List ℕ) : Expansion :=
  ⟨children,some child,frames,path,nodes,false,true⟩

def finished (children : List ChildRow) (child : ChildRow) (frames : List ExpandCursor)
    (path nodes : List ℕ) : Expansion :=
  ⟨children,some child,frames,path.take (frames.length-1),nodes,false,frames ≠ []⟩

theorem round_searching (h : frames.length = path.length+1) :
    op.round (searching children child frames path nodes) =
      op.search (searching children child frames path nodes) child := by
  have hunwind : unwind (searching children child frames path nodes) =
      some (searching children child frames path nodes) := by
    rw [unwind,if_neg]
    intro hlength
    dsimp only [searching] at hlength
    omega
  have hround : op.round (searching children child frames path nodes) =
      match unwind (searching children child frames path nodes) with
      | none => .ok (.next { searching children child frames path nodes with active := false })
      | some state => op.search state child := rfl
  rw [hround,hunwind]

theorem round_leaf (hframes : frames.length = path.length+1) (rel next : ℕ) :
    op.round (searching children child frames (path++[rel]) (nodes++[next])) =
      op.round (searching children child frames path nodes) := by
  have hunwind : unwind (searching children child frames (path++[rel]) (nodes++[next])) =
      some (searching children child frames path nodes) := by
    rw [unwind,if_pos,if_neg]
    · simp [searching]
    · simp [searching]
    · simp [searching,hframes]
  have hround : op.round (searching children child frames (path++[rel]) (nodes++[next])) =
      match unwind (searching children child frames (path++[rel]) (nodes++[next])) with
      | none => .ok (.next
        { searching children child frames (path++[rel]) (nodes++[next]) with active := false })
      | some state => op.search state child := rfl
  rw [hround,hunwind,round_searching hframes]

theorem lengthen_ok (hpath : path.length < op.max) (hframes : frames.length = path.length+1)
    (hnodes : nodes.length = path.length+1) (rel next : ℕ) :
    op.lengthen (searching children child frames path nodes) rel next =
      .ok (searching children child
        (frames++if path.length+1 < op.max then [op.cursor next] else []) (path++[rel])
        (nodes++[next])) := by
  have := op.small
  have hpush : pushTo op.max path rel = .ok (path++[rel]) := if_neg (by omega)
  have hnode : pushTo (op.max+1) nodes next = .ok (nodes++[next]) := if_neg (by omega)
  have hframe : pushTo (op.max+1) frames (op.cursor next) = .ok (frames++[op.cursor next]) :=
    if_neg (by omega)
  have hbyte : ¬ 255 < (path++[rel]).length := by
    rw [length_append,length_singleton]
    omega
  simp only [lengthen,searching,hpush,hnode,hframe,ok_bind,failIf_neg _ hbyte]
  rw [length_append,length_singleton]
  split_ifs
  · rfl
  · rw [append_nil]
    rfl

variable {s : Expansion} {base : List ExpandCursor} {frame : ExpandCursor} {state t : Expansion}
  {walk : Walk Found RuntimeError} {row : RelationshipRow}
  {deeper : List ℕ → ℕ → Walk Found RuntimeError} {after : ExpandCursor}
  {rows : List RelationshipRow}

theorem complete_follows {endpoint : ℕ} (step : op.round s = op.complete state child endpoint)
    (rest : Follows op.round Found.output state walk t) :
    Follows op.round Found.output s ((op.emission child state.path endpoint).andThen walk) t := by
  unfold complete at step
  unfold emission
  split_ifs at step ⊢ with hshort
  · exact Follows.next step rest
  · cases hretains : op.retainsPath child state.path with
    | error e =>
      rw [hretains] at step
      exact Follows.fail step
    | ok retained =>
      rw [hretains,ok_bind] at step
      cases retained with
      | false => exact Follows.next step rest
      | true =>
        rw [if_pos rfl] at step
        cases hpush : op.pushPath child endpoint state.path with
        | error e =>
          rw [hpush] at step
          exact Follows.fail step
        | ok out =>
          rw [hpush] at step
          exact Follows.emit ⟨state.path,endpoint,out⟩ step rest

theorem consider_follows (hpath : path.length < op.max) (hframes : frames.length = path.length+1)
    (hnodes : nodes.length = path.length) (step : op.round s =
      op.consider (searching children child frames path (nodes++[node])) child row)
    (stay : Follows op.round Found.output
      (searching children child frames path (nodes++[node])) walk t)
    (deep : ∀ next,Follows op.round Found.output
      (searching children child
        (frames++if path.length+1 < op.max then [op.cursor next] else []) (path++[row.rel])
        (nodes++[node]++[next]))
      ((deeper (path++[row.rel]) next).andThen walk) t) :
    Follows op.round Found.output s ((op.stepWalk child deeper path node row).andThen walk) t := by
  have hall : (nodes++[node]).length = path.length+1 := by
    rw [length_append,length_singleton,hnodes]
  have hlast : (searching children child frames path (nodes++[node])).nodes.getLast? =
      some node := getLast?_concat
  unfold consider at step
  rw [hlast] at step
  unfold stepWalk
  by_cases hblocked : row.rel ∈ path ∨ op.relationshipUsed child row.rel = true
  · rw [if_pos hblocked]
    have hskip : row.rel ∈ (searching children child frames path (nodes++[node])).path ∨
        op.relationshipUsed child row.rel = true := hblocked
    rw [if_pos hskip] at step
    exact Follows.next step stay
  · rw [if_neg hblocked]
    have htake : ¬ (row.rel ∈ (searching children child frames path (nodes++[node])).path ∨
        op.relationshipUsed child row.rel = true) := hblocked
    rw [if_neg htake] at step
    dsimp only at step
    cases hneighbor : neighbor node row op.direction with
    | error e =>
      rw [hneighbor] at step
      exact Follows.fail step
    | ok next =>
      rw [hneighbor,ok_bind] at step
      dsimp only
      cases hedge : op.retainsEdge child row.rel with
      | error e =>
        rw [hedge] at step
        exact Follows.fail step
      | ok retained =>
        rw [hedge,ok_bind] at step
        cases retained with
        | false => exact Follows.next step stay
        | true =>
          rw [if_pos rfl,lengthen_ok hpath hframes hall,ok_bind] at step
          dsimp only
          rw [Walk.andThen_assoc]
          exact complete_follows step (deep next)

theorem search_end
    (hscan : frame.scan op.view = some (after,none)) (hdone : after.exhausted = true) :
    op.search (searching children child (base++[frame]) path nodes) child =
      .ok (.next (finished children child base path (nodes.take base.length))) := by
  have hlast : (searching children child (base++[frame]) path nodes).frames.getLast? =
      some frame := getLast?_concat
  rw [search,hlast]
  dsimp only
  rw [hscan]
  dsimp only
  rw [if_pos hdone]
  have htake : (base++[frame]).take ((base++[frame]).length-1) = base := by simp
  simp only [backtrack,searching,finished,htake]

theorem search_row (hscan : frame.scan op.view = some (after,some row)) :
    op.search (searching children child (base++[frame]) path nodes) child =
      op.consider (searching children child (base++[after]) path nodes) child row := by
  have hlast : (searching children child (base++[frame]) path nodes).frames.getLast? =
      some frame := getLast?_concat
  rw [search,hlast]
  dsimp only
  rw [hscan]
  dsimp only
  simp only [searching,dropLast_concat]

theorem finished_eq_searching (h : base.length = path.length) (rel : ℕ) :
    finished children child (base++[frame]) (path++[rel]) nodes =
      searching children child (base++[frame]) path nodes := by
  have hlength : (base++[frame]).length-1 = path.length := by
    rw [length_append,length_singleton,h,Nat.add_sub_cancel]
  rw [finished,hlength,take_left]
  simp [searching]

/-- The rounds of the cursor on the top of the stack, where what is put above it is known. The
state may be any that goes on as the search itself. -/
theorem rows_follow_of (hpath : path.length < op.max) (hbase : base.length = path.length)
    (hnodes : nodes.length = path.length) (deep : ∀ after rel next walk t,
      (∀ s,op.round s =
          op.round (searching children child (base++[after]) path (nodes++[node])) →
        Follows op.round Found.output s walk t) →
      Follows op.round Found.output
        (searching children child
          (base++[after]++if path.length+1 < op.max then [op.cursor next] else [])
          (path++[rel]) (nodes++[node]++[next]))
        ((deeper (path++[rel]) next).andThen walk) t)
    (htypes : frame.InTypes)
    (hrows : frame.remaining op.view = rows)
    (hsame : op.round s =
      op.round (searching children child (base++[frame]) path (nodes++[node]))) :
    Follows op.round Found.output s (Walk.each (op.stepWalk child deeper path node) rows)
      (finished children child base path nodes) := by
  have hframes : ∀ frame : ExpandCursor,(base++[frame]).length = path.length+1 := by
    intro frame
    rw [length_append,length_singleton,hbase]
  induction rows generalizing frame s with
  | nil =>
    obtain ⟨after,found,hscan,_,hleft,hdone⟩ := ExpandCursor.scan_spec op.view htypes
    cases found with
    | some row =>
      rw [hrows] at hleft
      cases hleft
    | none =>
      have htake : (nodes++[node]).take base.length = nodes := by
        rw [hbase,← hnodes,take_left]
      rw [round_searching (hframes frame),search_end hscan (hdone rfl),htake] at hsame
      exact Follows.next hsame (Follows.refl _)
  | cons row rows ih =>
    obtain ⟨after,found,hscan,hafter,hleft,hdone⟩ := ExpandCursor.scan_spec op.view htypes
    rw [hrows] at hleft
    cases found with
    | none =>
      rw [ExpandCursor.remaining_of_exhausted (hdone rfl)] at hleft
      cases hleft
    | some row' =>
      obtain ⟨rfl,hrest⟩ := List.cons.inj hleft
      rw [round_searching (hframes frame),search_row hscan] at hsame
      have hgoes : ∀ s,op.round s =
          op.round (searching children child (base++[after]) path (nodes++[node])) →
          Follows op.round Found.output s (Walk.each (op.stepWalk child deeper path node) rows)
            (finished children child base path nodes) := by
        intro s hs
        exact ih hafter hrest.symm hs
      apply consider_follows hpath (hframes after) hnodes hsame
      · exact hgoes _ rfl
      · intro next
        exact deep after row.rel next _ _ hgoes

theorem rows_follow (more : ℕ) (htypes : frame.InTypes)
    (hrows : frame.remaining op.view = rows) (hmore : path.length+1+more = op.max)
    (hbase : base.length = path.length) (hnodes : nodes.length = path.length) (hsame : op.round s =
      op.round (searching children child (base++[frame]) path (nodes++[node]))) :
    Follows op.round Found.output s (Walk.each (op.walkRow child more path node) rows)
      (finished children child base path nodes) := by
  induction more generalizing rows base frame path nodes node s with
  | zero =>
    apply rows_follow_of (by omega) hbase hnodes _ htypes hrows hsame
    intro after rel next walk t hgoes
    have hfull : ¬ path.length+1 < op.max := by omega
    have hframes : (base++[after]).length = path.length+1 := by
      rw [length_append,length_singleton,hbase]
    rw [if_neg hfull,append_nil]
    exact hgoes _ (round_leaf hframes rel next)
  | succ more ihmore =>
    apply rows_follow_of (by omega) hbase hnodes _ htypes hrows hsame
    intro after rel next walk t hgoes
    have hroom : path.length+1 < op.max := by omega
    have hframes : (base++[after]).length = (path++[rel]).length := by
      simp only [length_append,length_singleton,hbase]
    have hall : (nodes++[node]).length = (path++[rel]).length := by
      simp only [length_append,length_singleton,hnodes]
    rw [if_pos hroom]
    apply Follows.andThen _ (hgoes _ rfl)
    rw [← finished_eq_searching hbase rel]
    apply ihmore (ExpandCursor.new_inTypes _ _ _) rfl _ hframes hall rfl
    rw [length_append,length_singleton]
    omega

theorem retainsPath_nil : op.retainsPath child [] = .ok true := by
  unfold retainsPath
  cases op.completedEdgePredicate with
  | none => rfl
  | some predicate => rfl

theorem activate_idle {start : ℕ} (hidle : state.active = false)
    (hchildren : state.children = child::children) (hstart : op.nodeAt child = .ok start) :
    op.activate state = .ok (some
      ⟨children,some child,[op.cursor start],[],[start],op.min = 0,true⟩) := by
  have hnodes : pushTo (op.max+1) [] start = .ok [start] := if_neg (by simp)
  have hframes : pushTo (op.max+1) [] (op.cursor start) = .ok [op.cursor start] :=
    if_neg (by simp)
  rw [activate,if_neg (by rw [hidle]; decide),hchildren]
  dsimp only
  rw [hstart,ok_bind,hnodes,ok_bind,hframes]
  rfl

theorem first_rows_follow {start more : ℕ} (hmore : op.max = more+1) (hsame : op.round s =
      op.round (searching children child [op.cursor start] [] [start])) :
    Follows op.round Found.output s
      (Walk.each (op.walkRow child more [] start) (op.incident start))
      (finished children child [] [] []) := by
  have hfirst : op.round s =
      op.round (searching children child ([]++[op.cursor start]) [] ([]++[start])) := hsame
  have hlength : ([] : List ℕ).length+1+more = op.max := by
    rw [hmore,length_nil,Nat.zero_add,Nat.add_comm]
  exact rows_follow more (ExpandCursor.new_inTypes _ _ _) rfl hlength rfl rfl hfirst

variable (op) {state : Expansion}

theorem walkChild_follows (hidle : state.active = false)
    (hchildren : state.children = child::children) :
    ∃ t,t.active = false ∧ t.children = children ∧
      Follows op.round Found.output state (op.walkChild child) t := by
  have hround : op.round state = op.activate state >>= fun active =>
      match active with
      | none => .ok .done
      | some state =>
        match state.current with
        | none => .error .batch
        | some child =>
          if state.zeroPending then op.zeroPath state child
          else
            match unwind state with
            | none => .ok (.next { state with active := false })
            | some state => op.search state child := rfl
  unfold walkChild
  cases hstart : op.nodeAt child with
  | error e =>
    refine ⟨{ state with children := children },hidle,rfl,?_⟩
    apply Follows.fail
    rw [hround,activate,if_neg (by rw [hidle]; decide),hchildren]
    dsimp only
    rw [hstart]
    rfl
  | ok start =>
    have hactive:=activate_idle hidle hchildren hstart
    rw [hactive,ok_bind] at hround
    dsimp only at hround ⊢
    unfold walkFrom walkRest emission
    rw [length_nil,retainsPath_nil]
    dsimp only
    by_cases hzero : op.min = 0
    · have hpending : decide (op.min = 0) = true := decide_eq_true hzero
      rw [hpending,if_pos rfl,zeroPath] at hround
      rw [if_neg (by omega)]
      dsimp only [head?_cons] at hround
      cases hpush : op.pushPath child start [] with
      | error e =>
        rw [hpush,error_bind] at hround
        exact ⟨{ state with children := children },hidle,rfl,Follows.fail hround⟩
      | ok out =>
        rw [hpush,ok_bind] at hround
        cases hmax : op.max with
        | zero =>
          rw [if_pos hmax] at hround
          exact ⟨_,rfl,rfl,Follows.emit (Found.mk [] start out) hround (Follows.refl _)⟩
        | succ more =>
          rw [if_neg (by omega)] at hround
          exact ⟨_,rfl,rfl,Follows.emit (Found.mk [] start out) hround (first_rows_follow hmax rfl)⟩
    · have hpending : decide (op.min = 0) = false := decide_eq_false hzero
      have hordered:=op.ordered
      rw [hpending] at hround
      rw [if_pos (by omega)]
      cases hmax : op.max with
      | zero => omega
      | succ more => exact ⟨_,rfl,rfl,first_rows_follow hmax hround⟩

theorem round_done (hidle : state.active = false)
    (hchildren : state.children = []) : op.round state = .ok .done := by
  have hactive : op.activate state = .ok none := by
    rw [activate,if_neg (by rw [hidle]; decide),hchildren]
  rw [round,hactive]
  rfl

theorem walk_follows (children : List ChildRow) (hidle : state.active = false)
    (hchildren : state.children = children) :
    ∃ t,Follows op.round Found.output state (Walk.each op.walkChild children) t ∧
      op.round t = .ok .done := by
  induction children generalizing state with
  | nil => exact ⟨state,Follows.refl state,round_done op hidle hchildren⟩
  | cons child children ih =>
    obtain ⟨middle,hmiddle,hrest,hfirst⟩ := walkChild_follows op hidle hchildren
    obtain ⟨t,hfollows,hdone⟩ := ih hmiddle hrest
    exact ⟨t,hfirst.andThen hfollows,hdone⟩

end BoundedExpand

end Zeppelin.Query
