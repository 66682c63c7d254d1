import Mathlib.Algebra.GroupWithZero.Nat
import Mathlib.Data.List.Sort
import Mathlib.Algebra.BigOperators.Group.List.Basic
import Zeppelin.Machine.Run

/-! property_graph/storage/view/cursor.rs, adjacency/read.rs -/

namespace Zeppelin.Query
open Machine List

structure RelationshipRow where
  rel : ℕ
  source : ℕ
  target : ℕ
  relType : ℕ
  deriving DecidableEq

structure GraphView where
  rows : List RelationshipRow
  live : ℕ → Bool
  unique : (rows.map RelationshipRow.rel).Nodup

inductive Direction where
  | outgoing | incoming | either
  deriving DecidableEq

inductive Phase where
  | outward | inward
  deriving DecidableEq

def Phase.bound : Phase → RelationshipRow → ℕ
  | .outward,row => row.source
  | .inward,row => row.target

namespace GraphView

variable (view : GraphView)

def visible (row : RelationshipRow) : Bool := view.live row.source && view.live row.target

/-- The rows that `expand_from` goes over, of one type or of every type. -/
def adjacent (node : ℕ) (phase : Phase) (relType : Option ℕ) : List RelationshipRow :=
  view.rows.filter fun row =>
    phase.bound row = node && relType.all (fun t => t = row.relType) && view.visible row

/-- `expand_from` with room for one row; the position counts the rows that were read. -/
def expandFrom (node : ℕ) (phase : Phase) (relType resume : Option ℕ) :
    Option RelationshipRow × Option ℕ :=
  match (view.adjacent node phase relType)[resume.getD 0]? with
  | some row => (some row,some (resume.getD 0+1))
  | none => (none,none)

end GraphView

structure ExpandCursor where
  node : ℕ
  direction : Direction
  types : Option (List ℕ)
  typeIndex : ℕ
  phase : Phase
  resume : Option ℕ
  exhausted : Bool

def retainNew : List ℕ → List ℕ → List ℕ
  | [],retained => retained
  | value::values,retained =>
    if value ∈ retained then retainNew values retained else retainNew values (retained++[value])

def retainedTypes (values : List ℕ) : List ℕ := (retainNew values []).insertionSort (· ≤ ·)

def Direction.firstPhase : Direction → Phase
  | .incoming => .inward
  | .outgoing | .either => .outward

namespace ExpandCursor

/-- `selection` is none where every type is taken. -/
def new (node : ℕ) (direction : Direction) (selection : Option (List ℕ)) : ExpandCursor where
  node := node
  direction := direction
  types := selection.map retainedTypes
  typeIndex := 0
  phase := direction.firstPhase
  resume := none
  exhausted := (selection.map retainedTypes).any List.isEmpty

def relType (cursor : ExpandCursor) : Option ℕ :=
  cursor.types.bind fun types => types[cursor.typeIndex]?

def nextPhase (cursor : ExpandCursor) : ExpandCursor :=
  if cursor.direction = .either ∧ cursor.phase = .outward then
    { cursor with typeIndex := 0,phase := .inward }
  else { cursor with typeIndex := 0,exhausted := true }

def advanceQuery (cursor : ExpandCursor) : ExpandCursor :=
  let cursor:={ cursor with resume := none }
  if cursor.types.any fun types => cursor.typeIndex+1 < types.length then
    { cursor with typeIndex := cursor.typeIndex+1 }
  else cursor.nextPhase

def repeats (direction : Direction) (phase : Phase) (row : RelationshipRow) : Bool :=
  phase = .inward && direction = .either && row.source = row.target

/-- The loop of `scan_inner`, for an output of one row. -/
def scanRound (view : GraphView) :
    ExpandCursor × Option RelationshipRow → Flow (ExpandCursor × Option RelationshipRow)
  | (cursor,found) =>
    if found.isSome || cursor.exhausted then .stop (cursor,found)
    else
      let read:=view.expandFrom cursor.node cursor.phase cursor.relType cursor.resume
      let kept:=read.1.filter fun row => !repeats cursor.direction cursor.phase row
      let cursor:={ cursor with resume := read.2 }
      .next (if read.2 = none then cursor.advanceQuery else cursor,kept)

def selected (types : Option (List ℕ)) : List (Option ℕ) :=
  match types with
  | none => [none]
  | some types => types.map some

def pending (cursor : ExpandCursor) : List (Phase × Option ℕ) :=
  if cursor.exhausted then []
  else ((selected cursor.types).drop cursor.typeIndex).map (cursor.phase,·)++
    if cursor.direction = .either ∧ cursor.phase = .outward then
      (selected cursor.types).map (.inward,·)
    else []

def kept (view : GraphView) (node : ℕ) (direction : Direction) (query : Phase × Option ℕ)
    (skipped : ℕ) : List RelationshipRow :=
  ((view.adjacent node query.1 query.2).drop skipped).filter fun row =>
    !repeats direction query.1 row

def remaining (view : GraphView) (cursor : ExpandCursor) : List RelationshipRow :=
  match cursor.pending with
  | [] => []
  | query::later =>
    kept view cursor.node cursor.direction query (cursor.resume.getD 0)++
      later.flatMap fun query => kept view cursor.node cursor.direction query 0

def work (view : GraphView) (cursor : ExpandCursor) : ℕ :=
  match cursor.pending with
  | [] => 0
  | query::later =>
    (view.adjacent cursor.node query.1 query.2).length-cursor.resume.getD 0+1+
      (later.map fun query => (view.adjacent cursor.node query.1 query.2).length+1).sum

/-- `scan` for an output of one row. -/
def scan (view : GraphView) (cursor : ExpandCursor) :
    Option (ExpandCursor × Option RelationshipRow) :=
  loop (scanRound view) (cursor.work view+1) (cursor,none)

def InTypes (cursor : ExpandCursor) : Prop :=
  cursor.exhausted = false → cursor.typeIndex < (selected cursor.types).length

theorem new_inTypes (node : ℕ) (direction : Direction) (selection : Option (List ℕ)) :
    (new node direction selection).InTypes := by
  intro h
  cases selection with
  | none => exact Nat.one_pos
  | some types =>
    have hne : retainedTypes types ≠ [] := by simpa [new] using h
    simpa [selected,new] using length_pos_of_ne_nil hne

theorem selected_drop {types : Option (List ℕ)} {index : ℕ} (h : index < (selected types).length) :
    (selected types).drop index =
      (types.bind fun types => types[index]?)::(selected types).drop (index+1) := by
  rw [drop_eq_getElem_cons h]
  congr 1
  cases types with
  | none =>
    have hindex : index = 0 := Nat.lt_one_iff.mp h
    subst hindex
    rfl
  | some types =>
    have hindex : index < types.length := by simpa [selected] using h
    simp [selected,hindex]

theorem any_types_iff (types : Option (List ℕ)) (index : ℕ) :
    (types.any fun types => index+1 < types.length) = true ↔
      index+1 < (selected types).length := by
  cases types with
  | none => simp [selected]
  | some types => simp [selected]

variable {cursor : ExpandCursor} {query : Phase × Option ℕ} {node : ℕ} {direction : Direction}
  {row : RelationshipRow}

theorem pending_cons (h : cursor.InTypes) (hopen : cursor.exhausted = false) :
    cursor.pending = (cursor.phase,cursor.relType)::cursor.pending.tail := by
  have hpending : cursor.pending ≠ [] := by
    rw [pending,if_neg (by rw [hopen]; decide),selected_drop (h hopen)]
    simp
  have hhead : cursor.pending.head hpending = (cursor.phase,cursor.relType) := by
    simp only [pending,hopen,Bool.false_eq_true,if_false,selected_drop (h hopen),map_cons,
      cons_append,head_cons,relType]
  rw [← hhead,cons_head_tail]

theorem advanceQuery_spec (h : cursor.InTypes) (hopen : cursor.exhausted = false) :
    cursor.advanceQuery.pending = cursor.pending.tail ∧ cursor.advanceQuery.InTypes ∧
      cursor.advanceQuery.resume = none := by
  have htypes:=h hopen
  have htail : cursor.pending.tail =
      ((selected cursor.types).drop (cursor.typeIndex+1)).map (cursor.phase,·)++
        if cursor.direction = .either ∧ cursor.phase = .outward then
          (selected cursor.types).map (.inward,·)
        else [] := by
    rw [pending,if_neg (by rw [hopen]; decide),selected_drop htypes,map_cons,
      cons_append,tail_cons]
  rw [htail]
  by_cases hmore : cursor.typeIndex+1 < (selected cursor.types).length
  · have hadvance : cursor.advanceQuery =
        { cursor with typeIndex := cursor.typeIndex+1,resume := none } := by
      unfold advanceQuery
      rw [if_pos ((any_types_iff ..).mpr hmore)]
    rw [hadvance]
    refine ⟨?_,fun _ => hmore,rfl⟩
    rw [pending,if_neg (by rw [hopen]; decide)]
  · have hadvance : cursor.advanceQuery = nextPhase { cursor with resume := none } := by
      unfold advanceQuery
      rw [if_neg fun hany => hmore ((any_types_iff ..).mp hany)]
    have hlast : (selected cursor.types).drop (cursor.typeIndex+1) = [] :=
      drop_eq_nil_of_le (Nat.le_of_not_lt hmore)
    rw [hadvance,hlast,map_nil,nil_append]
    unfold nextPhase
    dsimp only
    split_ifs with hphase
    · refine ⟨?_,?_,rfl⟩
      · simp [pending,hopen]
      · intro _
        exact Nat.zero_lt_of_lt htypes
    · refine ⟨?_,?_,rfl⟩
      · simp [pending]
      · intro hfalse
        cases hfalse

theorem remaining_of_exhausted {view : GraphView}
    (h : cursor.exhausted = true) : cursor.remaining view = [] := by
  have hpending : cursor.pending = [] := if_pos h
  rw [remaining,hpending]

variable {later : List (Phase × Option ℕ)} {selection : Option (List ℕ)}

theorem remaining_of_pending {view : GraphView} (h : cursor.pending = query::later) :
    cursor.remaining view =
      kept view cursor.node cursor.direction query (cursor.resume.getD 0)++
        later.flatMap fun query => kept view cursor.node cursor.direction query 0 := by
  rw [remaining,h]

theorem work_of_pending {view : GraphView}
    (h : cursor.pending = query::later) : cursor.work view =
      (view.adjacent cursor.node query.1 query.2).length-cursor.resume.getD 0+1+
        (later.map fun query => (view.adjacent cursor.node query.1 query.2).length+1).sum := by
  rw [work,h]

theorem remaining_of_fresh {view : GraphView} (h : cursor.resume = none) : cursor.remaining view =
      cursor.pending.flatMap fun query => kept view cursor.node cursor.direction query 0 := by
  rw [remaining,h]
  cases cursor.pending with
  | nil => rfl
  | cons query later => rw [flatMap_cons,Option.getD_none]

theorem work_of_fresh {view : GraphView} (h : cursor.resume = none) : cursor.work view =
      (cursor.pending.map fun query =>
        (view.adjacent cursor.node query.1 query.2).length+1).sum := by
  rw [work,h]
  cases cursor.pending with
  | nil => rfl
  | cons query later =>
    simp only [map_cons,sum_cons,Option.getD_none,Nat.sub_zero]

theorem advanceQuery_owner (cursor : ExpandCursor) :
    cursor.advanceQuery.node = cursor.node ∧ cursor.advanceQuery.direction = cursor.direction := by
  unfold advanceQuery nextPhase
  dsimp only
  split_ifs
  · exact ⟨rfl,rfl⟩
  · exact ⟨rfl,rfl⟩
  · exact ⟨rfl,rfl⟩

theorem scanRound_spec (view : GraphView) (h : cursor.InTypes) (hopen : cursor.exhausted = false) :
    ∃ next found,scanRound view (cursor,none) = .next (next,found) ∧ next.InTypes ∧
      cursor.remaining view = found.toList++next.remaining view ∧
      next.work view < cursor.work view := by
  have hcons:=pending_cons h hopen
  have hround : scanRound view (cursor,none) = .next
      (if (view.expandFrom cursor.node cursor.phase cursor.relType cursor.resume).2 = none then
        advanceQuery { cursor with
          resume := (view.expandFrom cursor.node cursor.phase cursor.relType cursor.resume).2 }
      else { cursor with
        resume := (view.expandFrom cursor.node cursor.phase cursor.relType cursor.resume).2 },
      (view.expandFrom cursor.node cursor.phase cursor.relType cursor.resume).1.filter fun row =>
        !repeats cursor.direction cursor.phase row) := by
    simp only [scanRound,hopen,Option.isSome_none,Bool.or_self,Bool.false_eq_true,if_false]
  rw [hround]
  cases hread : (view.adjacent cursor.node cursor.phase cursor.relType)[cursor.resume.getD 0]? with
  | some row =>
    have hfrom : view.expandFrom cursor.node cursor.phase cursor.relType cursor.resume =
        (some row,some (cursor.resume.getD 0+1)) := by
      simp only [GraphView.expandFrom,hread]
    rw [hfrom]
    obtain ⟨hlength,hrow⟩ := List.getElem?_eq_some_iff.mp hread
    have hsame : ({ cursor with resume := some (cursor.resume.getD 0+1) } : ExpandCursor).pending =
        (cursor.phase,cursor.relType)::cursor.pending.tail := hcons
    refine ⟨_,_,rfl,?_,?_,?_⟩
    · exact h
    · rw [if_neg nofun,remaining_of_pending hcons,remaining_of_pending hsame,← append_assoc]
      congr 1
      simp only [kept]
      rw [drop_eq_getElem_cons hlength,hrow,filter_cons]
      simp only [Option.filter,Option.getD_some]
      split_ifs
      · rfl
      · rfl
    · rw [if_neg nofun,work_of_pending hcons,work_of_pending hsame]
      simp only [Option.getD_some]
      omega
  | none =>
    have hfrom : view.expandFrom cursor.node cursor.phase cursor.relType cursor.resume =
        (none,none) := by
      simp only [GraphView.expandFrom,hread]
    rw [hfrom]
    have hpast:=List.getElem?_eq_none_iff.mp hread
    have hsame : ({ cursor with resume := none } : ExpandCursor).InTypes := h
    obtain ⟨hpending,htypes,hresume⟩ := advanceQuery_spec hsame hopen
    obtain ⟨hnode,hdirection⟩ := advanceQuery_owner { cursor with resume := none }
    have htail : ({ cursor with resume := none } : ExpandCursor).advanceQuery.pending =
        cursor.pending.tail := hpending
    refine ⟨_,_,rfl,?_,?_,?_⟩
    · exact htypes
    · rw [if_pos rfl,remaining_of_pending hcons,remaining_of_fresh hresume,htail,hnode,
        hdirection]
      simp only [kept,drop_eq_nil_of_le hpast,filter_nil,nil_append]
      rfl
    · rw [if_pos rfl,work_of_pending hcons,work_of_fresh hresume,htail,hnode]
      simp only
      omega

theorem scan_spec (view : GraphView) (h : cursor.InTypes) :
    ∃ next found,cursor.scan view = some (next,found) ∧ next.InTypes ∧
      cursor.remaining view = found.toList++next.remaining view ∧
      (found = none → next.exhausted = true) := by
  have hnext : ∀ s t : ExpandCursor × Option RelationshipRow,
      s.1.InTypes ∧ cursor.remaining view = s.2.toList++s.1.remaining view →
      scanRound view s = .next t →
      (t.1.InTypes ∧ cursor.remaining view = t.2.toList++t.1.remaining view) ∧
        t.1.work view < s.1.work view := by
    rintro ⟨s,found⟩ t ⟨htypes,hrows⟩ hround
    cases hfound : found.isSome || s.exhausted with
    | true =>
      simp only [scanRound,hfound,if_true] at hround
      cases hround
    | false =>
      obtain ⟨hnone,hopen⟩ := Bool.or_eq_false_iff.mp hfound
      obtain rfl := Option.isSome_eq_false_iff.mp hnone |> Option.isNone_iff_eq_none.mp
      obtain ⟨next,row,hstep,hin,hleft,hwork⟩ := scanRound_spec view htypes hopen
      obtain rfl := Flow.next.inj (hstep.symm.trans hround)
      refine ⟨⟨hin,?_⟩,hwork⟩
      rw [hrows,hleft]
      rfl
  have hstop : ∀ s t : ExpandCursor × Option RelationshipRow,
      s.1.InTypes ∧ cursor.remaining view = s.2.toList++s.1.remaining view →
      scanRound view s = .stop t →
      t.1.InTypes ∧ cursor.remaining view = t.2.toList++t.1.remaining view ∧
        (t.2 = none → t.1.exhausted = true) := by
    rintro ⟨s,found⟩ t ⟨htypes,hrows⟩ hround
    cases hfound : found.isSome || s.exhausted with
    | true =>
      simp only [scanRound,hfound,if_true] at hround
      obtain rfl := Flow.stop.inj hround
      refine ⟨htypes,hrows,?_⟩
      intro hnone
      dsimp only at hnone ⊢
      rw [hnone] at hfound
      exact hfound
    | false =>
      simp only [scanRound,hfound,Bool.false_eq_true,if_false] at hround
      cases hround
  obtain ⟨⟨next,found⟩,hloop,hpost⟩ := loop_spec (s := (cursor,none)) _ _
    (fun s => s.1.work view) hnext hstop ⟨h,rfl⟩ (Nat.lt_succ_self _)
  exact ⟨next,found,hloop,hpost⟩

theorem retainNew_spec (values : List ℕ) : ∀ {retained : List ℕ},retained.Nodup →
    (retainNew values retained).Nodup ∧
      ∀ value,value ∈ retainNew values retained ↔ value ∈ retained ∨ value ∈ values := by
  induction values with
  | nil =>
    intro retained hnodup
    refine ⟨hnodup,?_⟩
    intro value
    simp [retainNew]
  | cons first values ih =>
    intro retained hnodup
    rw [retainNew]
    split_ifs with hmem
    · refine ⟨(ih hnodup).1,?_⟩
      intro value
      rw [(ih hnodup).2,mem_cons]
      constructor
      · rintro (h | h)
        · exact .inl h
        · exact .inr (.inr h)
      · rintro (h | rfl | h)
        · exact .inl h
        · exact .inl hmem
        · exact .inr h
    · have hlonger : (retained++[first]).Nodup := by
        rw [nodup_append_comm]
        exact nodup_cons.mpr ⟨hmem,hnodup⟩
      refine ⟨(ih hlonger).1,?_⟩
      intro value
      rw [(ih hlonger).2,mem_append,mem_singleton,mem_cons,or_assoc]

theorem retainedTypes_nodup (values : List ℕ) : (retainedTypes values).Nodup :=
  (perm_insertionSort _ _).nodup_iff.mpr (retainNew_spec values nodup_nil).1

theorem mem_retainedTypes {values : List ℕ} {value : ℕ} :
    value ∈ retainedTypes values ↔ value ∈ values := by
  rw [retainedTypes,(perm_insertionSort _ _).mem_iff,
    (retainNew_spec values nodup_nil).2]
  simp

theorem pending_new (node : ℕ) (direction : Direction) (selection : Option (List ℕ)) :
    (new node direction selection).pending =
      (selected (selection.map retainedTypes)).map (direction.firstPhase,·)++
        if direction = .either then (selected (selection.map retainedTypes)).map (.inward,·)
        else [] := by
  have hphase : (direction = .either ∧ direction.firstPhase = .outward) = (direction = .either) := by
    cases direction <;> simp [Direction.firstPhase]
  by_cases hempty : (selection.map retainedTypes).any List.isEmpty = true
  · have hselected : selected (selection.map retainedTypes) = [] := by
      cases selection with
      | none => cases hempty
      | some types =>
        have hnil : retainedTypes types = [] := by simpa using hempty
        simp [selected,hnil]
    simp [pending,new,hempty,hselected]
  · simp only [pending,new,hempty,Bool.false_eq_true,if_false,drop_zero,hphase]

def Touches (direction : Direction) (node : ℕ) (row : RelationshipRow) : Prop :=
  match direction with
  | .outgoing => row.source = node
  | .incoming => row.target = node
  | .either => row.source = node ∨ row.target = node

def Selects (selection : Option (List ℕ)) (relType : ℕ) : Prop :=
  ∀ types,selection = some types → relType ∈ types

theorem selected_iff (selection : Option (List ℕ)) (relType : ℕ) :
    (∃ wanted ∈ selected (selection.map retainedTypes),wanted.all (fun t => t = relType) = true) ↔
      Selects selection relType := by
  cases selection with
  | none => simp [selected,Selects]
  | some types => simp [selected,Selects,mem_retainedTypes]

theorem mem_kept {view : GraphView} : row ∈ kept view node direction query 0 ↔
      (row ∈ view.rows ∧ view.visible row = true) ∧ query.2.all (fun t => t = row.relType) = true ∧
        query.1.bound row = node ∧ repeats direction query.1 row = false := by
  simp only [kept,GraphView.adjacent,drop_zero,mem_filter,Bool.and_eq_true,
    decide_eq_true_eq,Bool.not_eq_true']
  tauto

theorem mem_phase {view : GraphView} {phase : Phase} :
    row ∈ ((selected (selection.map retainedTypes)).map (phase,·)).flatMap
        (fun query => kept view node direction query 0) ↔
      (row ∈ view.rows ∧ view.visible row = true) ∧ Selects selection row.relType ∧
        phase.bound row = node ∧ repeats direction phase row = false := by
  rw [flatMap_map,mem_flatMap,← selected_iff]
  constructor
  · rintro ⟨wanted,hwanted,hrow⟩
    obtain ⟨hview,htype,hbound,honce⟩ := mem_kept.mp hrow
    exact ⟨hview,⟨wanted,hwanted,htype⟩,hbound,honce⟩
  · rintro ⟨hview,⟨wanted,hwanted,htype⟩,hbound,honce⟩
    exact ⟨wanted,hwanted,mem_kept.mpr ⟨hview,htype,hbound,honce⟩⟩

theorem remaining_new (view : GraphView) (node : ℕ) (direction : Direction)
    (selection : Option (List ℕ)) :
    (new node direction selection).remaining view =
      ((selected (selection.map retainedTypes)).map (direction.firstPhase,·)).flatMap
          (fun query => kept view node direction query 0)++
        if direction = .either then
          ((selected (selection.map retainedTypes)).map (.inward,·)).flatMap
            (fun query => kept view node direction query 0)
        else [] := by
  rw [remaining_of_fresh rfl,pending_new,flatMap_append]
  congr 1
  split_ifs
  · rfl
  · rfl

theorem mem_remaining_new {view : GraphView} : row ∈ (new node direction selection).remaining view ↔
      (row ∈ view.rows ∧ view.visible row = true) ∧ Selects selection row.relType ∧
        Touches direction node row := by
  rw [remaining_new,mem_append,mem_phase]
  cases direction with
  | outgoing => simp [Direction.firstPhase,Phase.bound,repeats,Touches]
  | incoming => simp [Direction.firstPhase,Phase.bound,repeats,Touches]
  | either =>
    rw [if_pos rfl,mem_phase]
    simp only [Direction.firstPhase,Phase.bound,repeats,Touches,reduceCtorEq,decide_false,
      decide_true,Bool.false_and,Bool.true_and,decide_eq_false_iff_not,and_true]
    constructor
    · rintro (⟨hview,hselects,hbound⟩ | ⟨hview,hselects,hbound,_⟩)
      · exact ⟨hview,hselects,.inl hbound⟩
      · exact ⟨hview,hselects,.inr hbound⟩
    · rintro ⟨hview,hselects,hbound⟩
      by_cases hsource : row.source = node
      · exact .inl ⟨hview,hselects,hsource⟩
      · have htarget:=hbound.resolve_left hsource
        exact .inr ⟨hview,hselects,htarget,fun hloop => hsource (hloop.trans htarget)⟩

theorem rows_nodup (view : GraphView) : view.rows.Nodup := List.Nodup.of_map _ view.unique

theorem selected_nodup (selection : Option (List ℕ)) :
    (selected (selection.map retainedTypes)).Nodup := by
  cases selection with
  | none => exact nodup_singleton _
  | some types => exact (retainedTypes_nodup types).map (Option.some_injective _)

theorem phase_nodup (view : GraphView) (node : ℕ) (direction : Direction) (phase : Phase)
    (selection : Option (List ℕ)) :
    (((selected (selection.map retainedTypes)).map (phase,·)).flatMap
      fun query => kept view node direction query 0).Nodup := by
  rw [flatMap_map,nodup_flatMap]
  constructor
  · intro wanted _
    exact ((rows_nodup view).filter _).filter _
  · have hdistinct:=selected_nodup selection
    apply List.Pairwise.imp_of_mem _ hdistinct
    intro first second hfirst hsecond hne
    simp only [Function.onFun,disjoint_left]
    intro row hrow hrow'
    obtain ⟨_,htype,_⟩ := mem_kept.mp hrow
    obtain ⟨_,htype',_⟩ := mem_kept.mp hrow'
    apply hne
    cases selection with
    | none =>
      rw [mem_singleton.mp hfirst,mem_singleton.mp hsecond]
    | some types =>
      obtain ⟨t,_,rfl⟩ := mem_map.mp hfirst
      obtain ⟨t',_,rfl⟩ := mem_map.mp hsecond
      simp only [Option.all_some,decide_eq_true_eq] at htype htype'
      rw [htype,htype']

theorem remaining_new_nodup (view : GraphView) (node : ℕ) (direction : Direction)
    (selection : Option (List ℕ)) : ((new node direction selection).remaining view).Nodup := by
  rw [remaining_new]
  split_ifs with heither
  · subst heither
    rw [nodup_append']
    refine ⟨phase_nodup ..,phase_nodup ..,?_⟩
    rw [disjoint_left]
    intro row hrow hrow'
    obtain ⟨_,_,hsource,_⟩ := mem_phase.mp hrow
    obtain ⟨_,_,htarget,honce⟩ := mem_phase.mp hrow'
    simp only [Direction.firstPhase,Phase.bound] at hsource htarget
    simp [repeats,hsource,htarget] at honce
  · rw [append_nil]
    exact phase_nodup ..

theorem remaining_new_rels_nodup (view : GraphView) (node : ℕ) (direction : Direction)
    (selection : Option (List ℕ)) :
    (((new node direction selection).remaining view).map RelationshipRow.rel).Nodup := by
  apply List.Nodup.map_on _ (remaining_new_nodup ..)
  intro row hrow other hother hsame
  exact inj_on_of_nodup_map view.unique (mem_remaining_new.mp hrow).1.1
    (mem_remaining_new.mp hother).1.1 hsame

end ExpandCursor

end Zeppelin.Query
