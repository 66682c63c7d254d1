import Zeppelin.Query.BoundedExpand

namespace Zeppelin.Query
open Machine List

def Joins : Direction → ℕ → RelationshipRow → ℕ → Prop
  | .outgoing,node,row,next => row.source = node ∧ row.target = next
  | .incoming,node,row,next => row.target = node ∧ row.source = next
  | .either,node,row,next =>
    (row.source = node ∧ row.target = next) ∨ (row.target = node ∧ row.source = next)

theorem neighbor_iff {direction : Direction} {node next : ℕ} {row : RelationshipRow} :
    neighbor node row direction = .ok next ↔ Joins direction node row next := by
  cases direction with
  | outgoing => by_cases h : row.source = node <;> simp [neighbor,Joins,h]
  | incoming => by_cases h : row.target = node <;> simp [neighbor,Joins,h]
  | either =>
    by_cases hsource : row.source = node
    · by_cases htarget : row.target = node
      · have hloop : row.target = row.source := htarget.trans hsource.symm
        simp [neighbor,Joins,hsource,hloop]
      · simp [neighbor,Joins,hsource,htarget]
    · by_cases htarget : row.target = node
      · simp [neighbor,Joins,hsource,htarget]
      · simp [neighbor,Joins,hsource,htarget]

theorem touches_iff {direction : Direction} {node : ℕ} {row : RelationshipRow} :
    ExpandCursor.Touches direction node row ↔ ∃ next,Joins direction node row next := by
  cases direction with
  | outgoing => simp [ExpandCursor.Touches,Joins]
  | incoming => simp [ExpandCursor.Touches,Joins]
  | either => simp [ExpandCursor.Touches,Joins,exists_or]

namespace BoundedExpand

variable (op : BoundedExpand) (child : ChildRow)

/-- The relationships lead from the node to the last one, over what the pattern selects. -/
inductive Trail : ℕ → List ℕ → ℕ → Prop where
  | nil (node : ℕ) : Trail node [] node
  | cons {node next last : ℕ} {row : RelationshipRow} {rels : List ℕ} (row_mem : row ∈ op.view.rows)
      (visible : op.view.visible row = true)
      (selects : ExpandCursor.Selects op.selection row.relType)
      (joins : Joins op.direction node row next) (rest : Trail next rels last) :
      Trail node (row.rel::rels) last

structure Matches (start : ℕ) (path : List ℕ) (endpoint : ℕ) : Prop where
  trail : op.Trail start path endpoint
  distinct : path.Nodup
  unused : ∀ used ∈ child.uses,used.pattern = op.pattern → used.relationship ∈ path →
    used.origin = op.origin
  steps : ∀ predicate,op.edgePredicate = some predicate →
    ∀ rel ∈ path,predicate child rel = .ok true
  shortest : op.min ≤ path.length
  longest : path.length ≤ op.max
  finished : ∀ predicate,op.completedEdgePredicate = some predicate →
    ∀ rel ∈ path,predicate child path rel = .ok true

def Follower (path : List ℕ) (rel : ℕ) : Prop :=
  rel ∉ path ∧ op.relationshipUsed child rel = false ∧ op.retainsEdge child rel = .ok true

def Admits (path rels : List ℕ) : Prop :=
  rels.Nodup ∧ ∀ rel ∈ rels,op.Follower child path rel

variable {op child} {path rels : List ℕ} {node : ℕ} {rel last endpoint most start : ℕ}
  {row : RelationshipRow} {deeper : List ℕ → ℕ → Walk Found RuntimeError}

theorem admits_cons : op.Admits child path (rel::rels) ↔
      op.Follower child path rel ∧ op.Admits child (path++[rel]) rels := by
  simp only [Admits,Follower,nodup_cons,forall_mem_cons,mem_append,mem_singleton,
    not_or]
  constructor
  · rintro ⟨⟨hfresh,hnodup⟩,hrel,hrest⟩
    refine ⟨hrel,hnodup,?_⟩
    intro other hother
    obtain ⟨hpath,hused,hedge⟩ := hrest other hother
    exact ⟨⟨hpath,fun h => hfresh (h ▸ hother)⟩,hused,hedge⟩
  · rintro ⟨hrel,hnodup,hrest⟩
    refine ⟨⟨fun h => (hrest rel h).1.2 rfl,hnodup⟩,hrel,?_⟩
    intro other hother
    obtain ⟨hpath,hused,hedge⟩ := hrest other hother
    exact ⟨hpath.1,hused,hedge⟩

theorem mem_incident : row ∈ op.incident node ↔
      (row ∈ op.view.rows ∧ op.view.visible row = true) ∧
        ExpandCursor.Selects op.selection row.relType ∧ ∃ next,Joins op.direction node row next := by
  rw [incident,cursor,ExpandCursor.mem_remaining_new,touches_iff]

theorem trail_cons_iff : op.Trail node (rel::rels) last ↔
      ∃ row ∈ op.incident node,row.rel = rel ∧
        ∃ next,Joins op.direction node row next ∧ op.Trail next rels last := by
  constructor
  · intro h
    cases h with
    | cons hmem hvisible hselects hjoins hrest =>
      exact ⟨_,mem_incident.mpr ⟨⟨hmem,hvisible⟩,hselects,_,hjoins⟩,rfl,_,hjoins,hrest⟩
  · rintro ⟨row,hrow,rfl,next,hjoins,hrest⟩
    obtain ⟨⟨hmem,hvisible⟩,hselects,_⟩ := mem_incident.mp hrow
    exact .cons hmem hvisible hselects hjoins hrest

def Completes (op : BoundedExpand) (child : ChildRow) (path : List ℕ) : Prop :=
  op.min ≤ path.length ∧ op.retainsPath child path = .ok true

def Finds (walk : Walk Found RuntimeError) (path : List ℕ) (endpoint : ℕ) : Prop :=
  ∃ out,⟨path,endpoint,out⟩ ∈ walk.1

variable {walk : Walk Found RuntimeError} {whole schema : List ℕ} {next : ℕ}

theorem finds_append {first rest : Walk Found RuntimeError} (h : walk.1 = first.1++rest.1)
    {path : List ℕ} :
    Finds walk path endpoint ↔ Finds first path endpoint ∨ Finds rest path endpoint := by
  simp only [Finds,h,mem_append,exists_or]

theorem not_finds_nil (h : walk.1 = []) {path : List ℕ} : ¬ Finds walk path endpoint := by
  rintro ⟨out,hout⟩
  rw [h] at hout
  cases hout

theorem emission_cases (hnone : (op.emission child path endpoint).2 = none) :
    ((path.length < op.min ∨ op.retainsPath child path ≠ .ok true) ∧
      (op.emission child path endpoint).1 = []) ∨
    (op.min ≤ path.length ∧ op.retainsPath child path = .ok true ∧
      ∃ out,op.pushPath child endpoint path = .ok out ∧
        (op.emission child path endpoint).1 = [⟨path,endpoint,out⟩]) := by
  by_cases hshort : path.length < op.min
  · refine .inl ⟨.inl hshort,?_⟩
    rw [emission,if_pos hshort]
    rfl
  · rw [emission,if_neg hshort] at hnone ⊢
    cases hretains : op.retainsPath child path with
    | error e =>
      rw [hretains] at hnone
      cases hnone
    | ok retained =>
      cases retained with
      | false => exact .inl ⟨.inr nofun,rfl⟩
      | true =>
        rw [hretains] at hnone
        refine .inr ⟨Nat.le_of_not_lt hshort,rfl,?_⟩
        cases hpush : op.pushPath child endpoint path with
        | error e =>
          rw [hpush] at hnone
          cases hnone
        | ok out => exact ⟨out,rfl,rfl⟩

theorem finds_emission (hnone : (op.emission child path endpoint).2 = none) :
    Finds (op.emission child path endpoint) whole last ↔
      whole = path ∧ last = endpoint ∧ op.Completes child path := by
  rcases emission_cases hnone with ⟨hskip,hlist⟩ | ⟨hlong,hretains,out,_,hlist⟩
  · constructor
    · intro h
      exact absurd h (not_finds_nil hlist)
    · rintro ⟨_,_,hlong,hretains⟩
      rcases hskip with hshort | hdrop
      · omega
      · exact absurd hretains hdrop
  · simp only [Finds,hlist,mem_singleton,Found.mk.injEq]
    constructor
    · rintro ⟨_,hwhole,hlast,_⟩
      exact ⟨hwhole,hlast,hlong,hretains⟩
    · rintro ⟨hwhole,hlast,_⟩
      exact ⟨out,hwhole,hlast,rfl⟩

theorem emission_rows (hnone : (op.emission child path endpoint).2 = none) :
    ∀ found ∈ (op.emission child path endpoint).1,found.path = path ∧
      op.pushPath child found.endpoint found.path = .ok found.output := by
  intro found hfound
  rcases emission_cases hnone with ⟨_,hlist⟩ | ⟨_,_,out,hpush,hlist⟩
  · rw [hlist] at hfound
    cases hfound
  · rw [hlist] at hfound
    obtain rfl := mem_singleton.mp hfound
    exact ⟨rfl,hpush⟩

theorem stepWalk_cases (hnone : (op.stepWalk child deeper path node row).2 = none) :
    (¬ op.Follower child path row.rel ∧ (op.stepWalk child deeper path node row).1 = []) ∨
    (op.Follower child path row.rel ∧ ∃ next,Joins op.direction node row next ∧
      (op.emission child (path++[row.rel]) next).2 = none ∧
      (deeper (path++[row.rel]) next).2 = none ∧
      (op.stepWalk child deeper path node row).1 =
        (op.emission child (path++[row.rel]) next).1++(deeper (path++[row.rel]) next).1) := by
  by_cases hblocked : row.rel ∈ path ∨ op.relationshipUsed child row.rel = true
  · left
    rw [stepWalk,if_pos hblocked]
    refine ⟨?_,rfl⟩
    rintro ⟨hpath,hused,_⟩
    rcases hblocked with h | h
    · exact hpath h
    · rw [hused] at h
      cases h
  · rw [stepWalk,if_neg hblocked] at hnone ⊢
    obtain ⟨hpath,hused⟩ := not_or.mp hblocked
    cases hneighbor : neighbor node row op.direction with
    | error e =>
      rw [hneighbor] at hnone
      cases hnone
    | ok next =>
      rw [hneighbor] at hnone
      dsimp only at hnone ⊢
      cases hedge : op.retainsEdge child row.rel with
      | error e =>
        rw [hedge] at hnone
        cases hnone
      | ok retained =>
        rw [hedge] at hnone
        cases retained with
        | false =>
          refine .inl ⟨?_,rfl⟩
          rintro ⟨_,_,htrue⟩
          rw [hedge] at htrue
          cases htrue
        | true =>
          obtain ⟨hfirst,hrest,hlist⟩ := Walk.andThen_eq_none hnone
          refine .inr ⟨⟨hpath,Bool.eq_false_iff.mpr hused,hedge⟩,next,
            neighbor_iff.mp hneighbor,hfirst,hrest,hlist⟩

theorem joins_unique {direction : Direction} {node other : ℕ}
    (h : Joins direction node row next) (h' : Joins direction node row other) : next = other :=
  Except.ok.inj ((neighbor_iff.mpr h).symm.trans (neighbor_iff.mpr h'))

def Reaches (op : BoundedExpand) (child : ChildRow) (most : ℕ) (path : List ℕ) (node : ℕ)
    (whole : List ℕ) (last : ℕ) : Prop :=
  ∃ rels,rels ≠ [] ∧ rels.length ≤ most ∧ whole = path++rels ∧ op.Admits child path rels ∧
    op.Trail node rels last ∧ op.Completes child whole

/-- A walk finds each of the trails that go on from its path once. -/
structure Exact (op : BoundedExpand) (child : ChildRow) (most : ℕ) (path : List ℕ) (node : ℕ)
    (walk : Walk Found RuntimeError) : Prop where
  finds : ∀ whole last,Finds walk whole last ↔ op.Reaches child most path node whole last
  nodup : (walk.1.map Found.path).Nodup
  rows : ∀ found ∈ walk.1,op.pushPath child found.endpoint found.path = .ok found.output

theorem exact_nil : op.Exact child 0 path node Walk.nil := by
  constructor
  · intro whole last
    constructor
    · intro h
      exact absurd h (not_finds_nil rfl)
    · rintro ⟨rels,hne,hlength,_⟩
      exact absurd (length_eq_zero_iff.mp (Nat.le_zero.mp hlength)) hne
  · exact nodup_nil
  · intro found hfound
    cases hfound

theorem stepWalk_paths (hdeeper : ∀ path node,(deeper path node).2 = none →
      op.Exact child most path node (deeper path node))
    (hnone : (op.stepWalk child deeper path node row).2 = none) :
    (∀ found ∈ (op.stepWalk child deeper path node row).1,
      (∃ rels,found.path = path++row.rel::rels) ∧
        op.pushPath child found.endpoint found.path = .ok found.output) ∧
    ((op.stepWalk child deeper path node row).1.map Found.path).Nodup := by
  rcases stepWalk_cases hnone with ⟨_,hempty⟩ | ⟨_,next,_,hhere,hbelow,hboth⟩
  · rw [hempty]
    exact ⟨by simp,nodup_nil⟩
  · have hexact:=hdeeper _ _ hbelow
    have hlonger : ∀ found ∈ (deeper (path++[row.rel]) next).1,
        ∃ rels,rels ≠ [] ∧ found.path = path++row.rel::rels := by
      intro found hfound
      obtain ⟨rels,hne,_,hpath,_⟩ := (hexact.finds _ _).mp ⟨found.output,hfound⟩
      refine ⟨rels,hne,?_⟩
      rw [hpath,append_assoc,singleton_append]
    rw [hboth]
    constructor
    · intro found hfound
      rcases mem_append.mp hfound with hfound | hfound
      · obtain ⟨hpath,hpush⟩ := emission_rows hhere found hfound
        exact ⟨⟨[],hpath⟩,hpush⟩
      · obtain ⟨rels,_,hpath⟩ := hlonger found hfound
        exact ⟨⟨rels,hpath⟩,hexact.rows found hfound⟩
    · rw [map_append,nodup_append']
      refine ⟨?_,hexact.nodup,?_⟩
      · rcases emission_cases hhere with ⟨_,hlist⟩ | ⟨_,_,out,_,hlist⟩
        · rw [hlist]
          exact nodup_nil
        · rw [hlist]
          exact nodup_singleton _
      · rw [disjoint_left]
        intro whole hfirst hrest
        obtain ⟨first,hmem,rfl⟩ := mem_map.mp hfirst
        obtain ⟨other,hother,hsame⟩ := mem_map.mp hrest
        obtain ⟨rels,hne,hpath⟩ := hlonger other hother
        rw [hpath,(emission_rows hhere first hmem).1] at hsame
        exact hne (by simpa using hsame)

theorem incident_nodup (op : BoundedExpand) (node : ℕ) :
    ((op.incident node).map RelationshipRow.rel).Nodup :=
  ExpandCursor.remaining_new_rels_nodup ..

theorem finds_stepWalk (hrow : row ∈ op.incident node)
    (hdeeper : ∀ path node,(deeper path node).2 = none →
      op.Exact child most path node (deeper path node))
    (hnone : (op.stepWalk child deeper path node row).2 = none)
    (h : Finds (op.stepWalk child deeper path node row) whole last) :
    op.Reaches child (most+1) path node whole last := by
  rcases stepWalk_cases hnone with ⟨_,hempty⟩ | ⟨hfollower,next,hjoins,hhere,hbelow,hboth⟩
  · exact absurd h (not_finds_nil hempty)
  · rcases (finds_append hboth).mp h with h | h
    · obtain ⟨hpath,hlast,hcompletes⟩ := (finds_emission hhere).mp h
      refine ⟨[row.rel],by simp,by simp,hpath,?_,?_,hpath ▸ hcompletes⟩
      · exact admits_cons.mpr ⟨hfollower,nodup_nil,by simp⟩
      · rw [hlast]
        exact trail_cons_iff.mpr ⟨row,hrow,rfl,next,hjoins,.nil next⟩
    · obtain ⟨rels,_,hlength,hpath,hadmits,htrail,hcompletes⟩ :=
        ((hdeeper _ _ hbelow).finds _ _).mp h
      refine ⟨row.rel::rels,by simp,by simpa using hlength,?_,?_,?_,hcompletes⟩
      · rw [hpath,append_assoc,singleton_append]
      · exact admits_cons.mpr ⟨hfollower,hadmits⟩
      · exact trail_cons_iff.mpr ⟨row,hrow,rfl,next,hjoins,htrail⟩

theorem stepWalk_finds {rels : List ℕ} (hdeeper : ∀ path node,(deeper path node).2 = none →
      op.Exact child most path node (deeper path node))
    (hnone : (op.stepWalk child deeper path node row).2 = none)
    (hlength : rels.length ≤ most) (hjoins : Joins op.direction node row next)
    (hadmits : op.Admits child path (row.rel::rels)) (htrail : op.Trail next rels last)
    (hcompletes : op.Completes child (path++row.rel::rels)) :
    Finds (op.stepWalk child deeper path node row) (path++row.rel::rels) last := by
  obtain ⟨hfollower,hadmits⟩ := admits_cons.mp hadmits
  rcases stepWalk_cases hnone with ⟨hnot,_⟩ | ⟨_,other,hother,hhere,hbelow,hboth⟩
  · exact absurd hfollower hnot
  · obtain rfl := joins_unique hjoins hother
    rw [finds_append hboth]
    cases rels with
    | nil =>
      cases htrail
      exact .inl ((finds_emission hhere).mpr ⟨rfl,rfl,hcompletes⟩)
    | cons rel rels =>
      right
      rw [(hdeeper _ _ hbelow).finds]
      refine ⟨rel::rels,by simp,hlength,?_,hadmits,htrail,hcompletes⟩
      rw [append_assoc,singleton_append]

theorem exact_each (hdeeper : ∀ path node,(deeper path node).2 = none →
      op.Exact child most path node (deeper path node))
    (hnone : (Walk.each (op.stepWalk child deeper path node) (op.incident node)).2 = none) :
    op.Exact child (most+1) path node
      (Walk.each (op.stepWalk child deeper path node) (op.incident node)) := by
  obtain ⟨hall,hlist⟩ := Walk.each_eq_none hnone
  constructor
  · intro whole last
    simp only [Finds,hlist,mem_flatMap]
    constructor
    · rintro ⟨out,row,hrow,hfound⟩
      exact finds_stepWalk hrow hdeeper (hall row hrow) ⟨out,hfound⟩
    · rintro ⟨rels,hne,hlength,rfl,hadmits,htrail,hcompletes⟩
      cases rels with
      | nil => exact absurd rfl hne
      | cons rel rels =>
        obtain ⟨row,hrow,rfl,next,hjoins,hrest⟩ := trail_cons_iff.mp htrail
        obtain ⟨out,hfound⟩ := stepWalk_finds hdeeper (hall row hrow)
          (Nat.le_of_succ_le_succ hlength) hjoins hadmits hrest hcompletes
        exact ⟨out,row,hrow,hfound⟩
  · rw [hlist,map_flatMap,nodup_flatMap]
    constructor
    · intro row hrow
      exact (stepWalk_paths hdeeper (hall row hrow)).2
    · have hrels:=pairwise_map.mp (incident_nodup op node)
      apply List.Pairwise.imp_of_mem _ hrels
      intro row other hrow hother hne
      simp only [Function.onFun,disjoint_left]
      intro whole hfirst hsecond
      obtain ⟨first,hmem,rfl⟩ := mem_map.mp hfirst
      obtain ⟨second,hmem',hsame⟩ := mem_map.mp hsecond
      obtain ⟨⟨rels,hpath⟩,_⟩ := (stepWalk_paths hdeeper (hall row hrow)).1 first hmem
      obtain ⟨⟨rels',hpath'⟩,_⟩ := (stepWalk_paths hdeeper (hall other hother)).1 second hmem'
      rw [hpath,hpath'] at hsame
      exact hne (List.cons.inj (append_cancel_left hsame)).1.symm
  · intro found hfound
    rw [hlist,mem_flatMap] at hfound
    obtain ⟨row,hrow,hfound⟩ := hfound
    exact ((stepWalk_paths hdeeper (hall row hrow)).1 found hfound).2

theorem walkRow_exact (more : ℕ) {path : List ℕ} {node : ℕ}
    (hnone : (Walk.each (op.walkRow child more path node) (op.incident node)).2 = none) :
    op.Exact child (more+1) path node
      (Walk.each (op.walkRow child more path node) (op.incident node)) := by
  induction more generalizing path node with
  | zero =>
    apply exact_each _ hnone
    intro path node _
    exact exact_nil
  | succ more ih =>
    apply exact_each _ hnone
    intro path node hbelow
    exact ih hbelow

theorem allRetained_iff {predicate : ℕ → Except RuntimeError Bool} {path : List ℕ} :
    allRetained predicate path = .ok true ↔ ∀ rel ∈ path,predicate rel = .ok true := by
  induction path with
  | nil => simp [allRetained]
  | cons rel rest ih =>
    rw [allRetained,forall_mem_cons]
    cases hrel : predicate rel with
    | error e =>
      rw [error_bind]
      simp
    | ok retained =>
      rw [ok_bind]
      cases retained with
      | false => simp [pure,Except.pure]
      | true => simp [ih]

theorem relationshipUsed_iff : op.relationshipUsed child rel = false ↔
      ∀ used ∈ child.uses,used.pattern = op.pattern → used.relationship = rel →
        used.origin = op.origin := by
  simp only [relationshipUsed,any_eq_false,Bool.and_eq_true,decide_eq_true_eq,not_and,
    ne_eq,not_not,and_imp]

theorem retainsEdge_iff : op.retainsEdge child rel = .ok true ↔
      ∀ predicate,op.edgePredicate = some predicate → predicate child rel = .ok true := by
  unfold retainsEdge
  cases op.edgePredicate with
  | none => simp
  | some predicate => simp

theorem retainsPath_iff :
    op.retainsPath child path = .ok true ↔
      ∀ predicate,op.completedEdgePredicate = some predicate →
        ∀ rel ∈ path,predicate child path rel = .ok true := by
  unfold retainsPath
  cases op.completedEdgePredicate with
  | none => simp
  | some predicate => simp [allRetained_iff]

theorem matches_iff : op.Matches child start path last ↔
      op.Admits child [] path ∧ op.Trail start path last ∧ path.length ≤ op.max ∧
        op.Completes child path := by
  simp only [Admits,Follower,Completes,retainsPath_iff,retainsEdge_iff,relationshipUsed_iff]
  constructor
  · intro h
    refine ⟨⟨h.distinct,?_⟩,h.trail,h.longest,h.shortest,h.finished⟩
    intro rel hrel
    refine ⟨not_mem_nil,?_,fun predicate hpredicate => h.steps predicate hpredicate rel hrel⟩
    rintro used hused hpattern rfl
    exact h.unused used hused hpattern hrel
  · rintro ⟨⟨hnodup,hall⟩,htrail,hlong,hshort,hkeep⟩
    refine ⟨htrail,hnodup,?_,?_,hshort,hlong,hkeep⟩
    · intro used hused hpattern hmem
      exact (hall _ hmem).2.1 used hused hpattern rfl
    · intro predicate hpredicate rel hrel
      exact (hall rel hrel).2.2 predicate hpredicate

theorem walkRest_exact (hnone : (op.walkRest child start).2 = none) :
    op.Exact child op.max [] start (op.walkRest child start) := by
  unfold walkRest at hnone ⊢
  cases hmax : op.max with
  | zero => exact exact_nil
  | succ more =>
    rw [hmax] at hnone
    exact walkRow_exact more hnone

theorem trail_nil_iff : op.Trail start [] last ↔ last = start := by
  constructor
  · intro h
    cases h
    rfl
  · rintro rfl
    exact .nil _

theorem walkFrom_exact (hnone : (op.walkFrom child start).2 = none) :
    (∀ path last,Finds (op.walkFrom child start) path last ↔ op.Matches child start path last) ∧
      ((op.walkFrom child start).1.map Found.path).Nodup ∧
      ∀ found ∈ (op.walkFrom child start).1,
        op.pushPath child found.endpoint found.path = .ok found.output := by
  obtain ⟨hhere,hrest,hboth⟩ := Walk.andThen_eq_none hnone
  have hexact:=walkRest_exact hrest
  have hlist : (op.walkFrom child start).1 =
      (op.emission child [] start).1++(op.walkRest child start).1 := hboth
  refine ⟨?_,?_,?_⟩
  · intro path last
    rw [finds_append hlist,finds_emission hhere,hexact.finds,matches_iff]
    constructor
    · rintro (⟨rfl,rfl,hcompletes⟩ | ⟨rels,_,hlength,hpath,hadmits,htrail,hcompletes⟩)
      · exact ⟨⟨nodup_nil,by simp⟩,.nil _,Nat.zero_le _,hcompletes⟩
      · rw [nil_append] at hpath
        subst hpath
        exact ⟨hadmits,htrail,hlength,hcompletes⟩
    · rintro ⟨hadmits,htrail,hlength,hcompletes⟩
      by_cases hempty : path = []
      · subst hempty
        exact .inl ⟨rfl,trail_nil_iff.mp htrail,hcompletes⟩
      · exact .inr ⟨path,hempty,hlength,rfl,hadmits,htrail,hcompletes⟩
  · rw [hlist,map_append,nodup_append']
    refine ⟨?_,hexact.nodup,?_⟩
    · rcases emission_cases hhere with ⟨_,hempty⟩ | ⟨_,_,out,_,hone⟩
      · rw [hempty]
        exact nodup_nil
      · rw [hone]
        exact nodup_singleton _
    · rw [disjoint_left]
      intro whole hfirst hsecond
      obtain ⟨first,hmem,rfl⟩ := mem_map.mp hfirst
      obtain ⟨other,hother,hsame⟩ := mem_map.mp hsecond
      obtain ⟨rels,hne,_,hpath,_⟩ := (hexact.finds _ _).mp ⟨other.output,hother⟩
      rw [(emission_rows hhere first hmem).1,hpath] at hsame
      exact hne hsame
  · intro found hfound
    rw [hlist] at hfound
    rcases mem_append.mp hfound with hfound | hfound
    · exact (emission_rows hhere found hfound).2
    · exact hexact.rows found hfound

/-- No step of the search from the row fails: its source is a node, the predicates have a value,
and there is room for a row with a path between the bounds. -/
structure Evaluates (op : BoundedExpand) (child : ChildRow) : Prop where
  source : ∃ start,op.nodeAt child = .ok start
  edges : ∀ rel,∃ retained,op.retainsEdge child rel = .ok retained
  paths : ∀ path,∃ retained,op.retainsPath child path = .ok retained
  room : ∀ endpoint path,path.length ≤ op.max →
    ∃ out,op.pushPath child endpoint path = .ok out

theorem emission_none (h : op.Evaluates child) (hlength : path.length ≤ op.max) (endpoint : ℕ) :
    (op.emission child path endpoint).2 = none := by
  unfold emission
  split_ifs
  · rfl
  · obtain ⟨retained,hretained⟩ := h.paths path
    rw [hretained]
    cases retained with
    | false => rfl
    | true =>
      obtain ⟨out,hout⟩ := h.room endpoint path hlength
      dsimp only
      rw [hout]

theorem stepWalk_none
    (h : op.Evaluates child) (hlength : path.length+1 ≤ op.max) (hrow : row ∈ op.incident node)
    (hdeeper : ∀ next,(deeper (path++[row.rel]) next).2 = none) :
    (op.stepWalk child deeper path node row).2 = none := by
  unfold stepWalk
  split_ifs
  · rfl
  · obtain ⟨_,_,next,hjoins⟩ := mem_incident.mp hrow
    rw [neighbor_iff.mpr hjoins]
    dsimp only
    obtain ⟨retained,hretained⟩ := h.edges row.rel
    rw [hretained]
    cases retained with
    | false => rfl
    | true =>
      apply Walk.andThen_none _ (hdeeper next)
      apply emission_none h
      rwa [length_append,length_singleton]

theorem walkRow_none (h : op.Evaluates child) (more : ℕ) {path : List ℕ} {node : ℕ}
    (hlength : path.length+1+more ≤ op.max)
    (hrow : row ∈ op.incident node) : (op.walkRow child more path node row).2 = none := by
  induction more generalizing path node row with
  | zero => exact stepWalk_none h hlength hrow fun _ => rfl
  | succ more ih =>
    apply stepWalk_none h (by omega) hrow
    intro next
    apply Walk.each_none
    intro row' hrow'
    apply ih _ hrow'
    rw [length_append,length_singleton]
    omega

theorem walkChild_none (h : op.Evaluates child) : (op.walkChild child).2 = none := by
  obtain ⟨start,hstart⟩ := h.source
  rw [walkChild,hstart]
  dsimp only
  apply Walk.andThen_none (emission_none h (Nat.zero_le _) start)
  unfold walkRest
  cases hmax : op.max with
  | zero => rfl
  | succ more =>
    apply Walk.each_none
    intro row hrow
    apply walkRow_none h more _ hrow
    rw [hmax,length_nil,Nat.zero_add,Nat.add_comm]

theorem mem_copyUses {capacity : ℕ} {source uses copied : List RelationshipUse}
    (h : copyUses capacity source uses = .ok copied) {usage : RelationshipUse} :
    usage ∈ copied ↔ usage ∈ uses ∨ usage ∈ source := by
  induction source generalizing uses with
  | nil =>
    obtain rfl := Except.ok.inj h
    simp
  | cons first rest ih =>
    rw [copyUses] at h
    split_ifs at h with hmem
    · rw [ih h,mem_cons]
      constructor
      · rintro (h | h)
        · exact .inl h
        · exact .inr (.inr h)
      · rintro (h | rfl | h)
        · exact .inl h
        · exact .inl hmem
        · exact .inr h
    · rw [ih h,mem_append,mem_singleton,mem_cons,or_assoc]

/-- The row of the child goes on with the end of the path and with its relationships in order, and
these are used by the operator. -/
structure RowOf (op : BoundedExpand) (child : ChildRow) (path : List ℕ) (endpoint : ℕ)
    (out : Output) : Prop where
  cells : out.1 = child.cells.take op.childSchema.length++[.nodeRef endpoint,.relationships path]
  uses : ∀ usage,usage ∈ out.2 ↔
    usage ∈ child.uses ∨ ∃ rel ∈ path,⟨op.pattern,op.origin,rel⟩ = usage

theorem column_getElem (hnodup : schema.Nodup) {index : ℕ}
    (h : index < schema.length) : column schema schema[index] = some index := by
  rw [column,findIdx?_eq_some_iff_getElem]
  refine ⟨h,by simp,?_⟩
  intro other hother
  simp only [decide_eq_true_eq]
  intro hsame
  exact Nat.ne_of_lt hother (hnodup.getElem_inj_iff.mp hsame)

theorem pushPath_row {out : Output}
    (h : op.pushPath child endpoint path = .ok out) : op.RowOf child path endpoint out := by
  unfold pushPath at h
  obtain ⟨cells,hcells,h⟩ := bind_eq_ok h
  unfold emitRow at h
  obtain ⟨_,_,h⟩ := bind_eq_ok h
  obtain ⟨copied,hcopied,rfl⟩ := bind_pure_eq_ok h
  rw [schema,mapM_append] at hcells
  obtain ⟨first,hfirst,hcells⟩ := bind_eq_ok hcells
  obtain ⟨second,hsecond,rfl⟩ := bind_pure_eq_ok hcells
  have hfresh:=op.fresh
  obtain ⟨hchild,hnew,hapart⟩ := nodup_append'.mp hfresh
  have hnode : op.node ∉ op.childSchema := fun hmem => hapart hmem (by simp)
  have hrels : op.relationships ∉ op.childSchema := fun hmem => hapart hmem (by simp)
  have hdistinct : op.relationships ≠ op.node := by
    intro hsame
    simp [hsame] at hnew
  have hends : second = [.nodeRef endpoint,.relationships path] := by
    have hnodeCell : op.pathCell child endpoint path op.node = .ok (.nodeRef endpoint) := by
      rw [pathCell,column_eq_none hnode]
      exact if_pos rfl
    have hrelsCell : op.pathCell child endpoint path op.relationships =
        .ok (.relationships path) := by
      rw [pathCell,column_eq_none hrels]
      dsimp only
      rw [if_neg hdistinct,if_pos rfl]
    rw [mapM_cons,hnodeCell,ok_bind,mapM_cons,hrelsCell] at hsecond
    exact (Except.ok.inj hsecond).symm
  have hchildCells : first = child.cells.take op.childSchema.length := by
    have hall:=mapM_forall₂ hfirst
    apply ext_getElem?
    intro index
    rw [getElem?_take]
    split_ifs with hindex
    · have hin : index < first.length := by
        rw [← hall.length_eq]
        exact hindex
      have hcell:=hall.get hindex hin
      simp only [get_eq_getElem,pathCell,column_getElem hchild hindex] at hcell
      cases hvalue : child.cells[index]? with
      | none =>
        rw [hvalue] at hcell
        cases hcell
      | some value =>
        rw [hvalue] at hcell
        rw [getElem?_eq_getElem hin,← Except.ok.inj hcell]
    · apply getElem?_eq_none
      rw [← hall.length_eq]
      exact Nat.le_of_not_lt hindex
  constructor
  · rw [hends,hchildCells]
  · intro usage
    rw [mem_copyUses hcopied,mem_append,mem_map]
    simp

end BoundedExpand

/-- A drain of the expansion ends, and unless it failed it has put out the trails of each row of
its child, each once. It fails only where a step of the search of a row does. -/
theorem boundedExpand_exact (op : BoundedExpand) (children : List ChildRow) :
    ∃ outs failed,
      (∃ bound,∀ fuel,bound ≤ fuel → ∀ pulls,outs.length < pulls →
        Machine.drain op.round fuel pulls (BoundedExpand.start children) = some (outs,failed)) ∧
      (failed = none → ∃ results : List (List Found),
        outs = results.flatten.map Found.output ∧
        List.Forall₂ (fun child found => ∃ start,op.nodeAt child = .ok start ∧
          (found.map Found.path).Nodup ∧
          (∀ path endpoint,(∃ out,⟨path,endpoint,out⟩ ∈ found) ↔
            op.Matches child start path endpoint) ∧
          ∀ result ∈ found,op.RowOf child result.path result.endpoint result.output)
          children results) ∧
      ((∀ child ∈ children,op.Evaluates child) → failed = none) := by
  have hidle : (BoundedExpand.start children).active = false := rfl
  obtain ⟨t,hfollows,hdone⟩ := BoundedExpand.walk_follows op children hidle rfl
  have hends : ∀ u,(Walk.each op.walkChild children).result t = .ok u →
      op.round u = .ok .done := by
    intro u hu
    unfold Walk.result at hu
    cases hfailed : (Walk.each op.walkChild children).2 with
    | none =>
      rw [hfailed] at hu
      obtain rfl := Except.ok.inj hu
      exact hdone
    | some e =>
      rw [hfailed] at hu
      cases hu
  have hfailure : failedWith ((Walk.each op.walkChild children).result t) =
      (Walk.each op.walkChild children).2 := by
    unfold Walk.result failedWith
    cases (Walk.each op.walkChild children).2 with
    | none => rfl
    | some e => rfl
  obtain ⟨bound,hbound⟩ := Leads.drain hfollows hends
  rw [hfailure] at hbound
  refine ⟨_,_,⟨bound,hbound⟩,?_,?_⟩
  · intro hnone
    obtain ⟨hall,hlist⟩ := Walk.each_eq_none hnone
    refine ⟨children.map fun child => (op.walkChild child).1,?_,?_⟩
    · rw [hlist]
      simp [List.flatMap]
    · rw [forall₂_map_right_iff,forall₂_same]
      intro child hchild
      have hchild:=hall child hchild
      unfold BoundedExpand.walkChild at hchild ⊢
      cases hstart : op.nodeAt child with
      | error e =>
        rw [hstart] at hchild
        cases hchild
      | ok start =>
        rw [hstart] at hchild
        obtain ⟨hfinds,hnodup,hrows⟩ := BoundedExpand.walkFrom_exact hchild
        refine ⟨start,rfl,hnodup,hfinds,?_⟩
        intro result hresult
        exact BoundedExpand.pushPath_row (hrows result hresult)
  · intro heval
    apply Walk.each_none
    intro child hchild
    exact BoundedExpand.walkChild_none (heval child hchild)

end Zeppelin.Query
