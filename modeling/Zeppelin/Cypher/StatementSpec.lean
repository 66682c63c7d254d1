import Zeppelin.Cypher.Clauses

namespace Zeppelin.Cypher
open List

def ProjectionItem.columns (seen : List Text) : ProjectionItem → List Text
  | .star => seen
  | .item root aliasName source => [columnName root aliasName source]

def ProjectionItem.reusable (item : ProjectionItem) : List Expr :=
  item.roots.filter fun root => !root.aggregate

variable {limits : Limits} {next : ℕ} {scope : List Symbol}

theorem projectColumn_spec {output : List Symbol} {name : Text}
    {result : Symbol × ℕ} (h : projectColumn limits output name next = .ok result) :
    result.1.name = name ∧ name ∉ names output := by
  obtain ⟨_,hfresh,h⟩ := bind_eq_ok h
  obtain ⟨_,_,h⟩ := bind_eq_ok h
  obtain ⟨_,_,rfl⟩ := bind_pure_eq_ok h
  rw [failIf_eq_ok,lookupOptional_isSome] at hfresh
  exact ⟨rfl,hfresh⟩

theorem projectAll_names : ∀ {output : List Symbol} {next : ℕ} {result : List Symbol × ℕ},
      projectAll limits scope output next = .ok result →
      names result.1 = names output++names scope := by
  induction scope with
  | nil =>
    intro output next result h
    obtain rfl := Except.ok.inj h
    exact (append_nil _).symm
  | cons symbol scope ih =>
    intro output next result h
    obtain ⟨column,hcolumn,h⟩ := bind_eq_ok h
    rw [ih h,names_append,(projectColumn_spec hcolumn).1,append_assoc]
    rfl

theorem projectAll_nodup : ∀ {output : List Symbol} {next : ℕ} {result : List Symbol × ℕ},
      projectAll limits scope output next = .ok result → (names output).Nodup →
      (names result.1).Nodup := by
  induction scope with
  | nil =>
    intro output next result h hnodup
    obtain rfl := Except.ok.inj h
    exact hnodup
  | cons symbol scope ih =>
    intro output next result h hnodup
    obtain ⟨column,hcolumn,h⟩ := bind_eq_ok h
    obtain ⟨hname,hfresh⟩ := projectColumn_spec hcolumn
    apply ih h
    rw [names_append,hname]
    exact nodup_append_fresh hnodup hfresh

structure Columns.Adds (columns later : Columns) (added : List Text) (reusable : List Expr) :
    Prop where
  output : names later.output = names columns.output++added
  aliases : later.aliases.map Prod.fst = columns.aliases.map Prod.fst++reusable

theorem Columns.Adds.trans {first second third : Columns} {added more : List Text}
    {reusable others : List Expr} (h : first.Adds second added reusable)
    (h' : second.Adds third more others) :
    first.Adds third (added++more) (reusable++others) where
  output := by rw [h'.output,h.output,append_assoc]
  aliases := by rw [h'.aliases,h.aliases,append_assoc]

variable {item : ProjectionItem} {result : List Site × Columns × ℕ} {items : List ProjectionItem}

theorem bindItem_adds {columns : Columns}
    (h : bindItem limits scope columns next item = .ok result) :
    columns.Adds result.2.1 (item.columns (names scope)) item.reusable := by
  cases item with
  | star =>
    obtain ⟨all,hall,rfl⟩ := bind_pure_eq_ok h
    exact ⟨projectAll_names hall,(append_nil _).symm⟩
  | item root aliasName source =>
    obtain ⟨⟨sites,after,rootNext⟩,hsites,h⟩ := bind_eq_ok h
    obtain ⟨column,hcolumn,rfl⟩ := bind_pure_eq_ok h
    constructor
    · rw [Columns.add,names_append,(projectColumn_spec hcolumn).1]
      rfl
    · rw [Columns.add,ProjectionItem.reusable,ProjectionItem.roots]
      cases hroot : root.aggregate with
      | true => simp [hroot]
      | false => simp [hroot]

theorem bindItems_adds : ∀ {columns : Columns} {next : ℕ} {result : List Site × Columns × ℕ},
      bindItems limits scope items columns next = .ok result →
      columns.Adds result.2.1 (items.flatMap (ProjectionItem.columns (names scope)))
        (items.flatMap ProjectionItem.reusable) := by
  induction items with
  | nil =>
    intro columns next result h
    obtain rfl := Except.ok.inj h
    exact ⟨(append_nil _).symm,(append_nil _).symm⟩
  | cons item items ih =>
    intro columns next result h
    obtain ⟨⟨sites,middle,middleNext⟩,hitem,h⟩ := bind_eq_ok h
    obtain ⟨⟨more,later,laterNext⟩,hrest,rfl⟩ := bind_pure_eq_ok h
    have hothers:=ih hrest
    exact (bindItem_adds hitem).trans hothers

theorem bindItem_lexical {columns : Columns}
    (h : bindItem limits scope columns next item = .ok result) (hscope : (names scope).Nodup)
    (hnodup : (names columns.output).Nodup) : (names result.2.1.output).Nodup ∧
      ((∀ site ∈ result.1,site.Lexical) ↔ ∀ root ∈ item.roots,root.Plain) := by
  cases item with
  | star =>
    obtain ⟨all,hall,rfl⟩ := bind_pure_eq_ok h
    exact ⟨projectAll_nodup hall hnodup,iff_of_true nofun nofun⟩
  | item root aliasName source =>
    obtain ⟨⟨sites,after,rootNext⟩,hsites,h⟩ := bind_eq_ok h
    obtain ⟨column,hcolumn,rfl⟩ := bind_pure_eq_ok h
    obtain ⟨hname,hfresh⟩ := projectColumn_spec hcolumn
    obtain ⟨_,_,hlexical⟩ := (bindRoot_binds limits root).spec scope next _ hsites hscope
    dsimp only at hlexical ⊢
    rw [hlexical,ProjectionItem.roots,forall_mem_singleton,Columns.add,names_append,hname]
    exact ⟨nodup_append_fresh hnodup hfresh,Iff.rfl⟩

theorem bindItems_lexical : ∀ {columns : Columns} {next : ℕ} {result : List Site × Columns × ℕ},
      bindItems limits scope items columns next = .ok result → (names scope).Nodup →
      (names columns.output).Nodup →
      (names result.2.1.output).Nodup ∧ ((∀ site ∈ result.1,site.Lexical) ↔
        ∀ root ∈ items.flatMap ProjectionItem.roots,root.Plain) := by
  induction items with
  | nil =>
    intro columns next result h _ hnodup
    obtain rfl := Except.ok.inj h
    exact ⟨hnodup,iff_of_true nofun nofun⟩
  | cons item items ih =>
    intro columns next result h hscope hnodup
    obtain ⟨⟨sites,middle,middleNext⟩,hitem,h⟩ := bind_eq_ok h
    obtain ⟨⟨more,later,laterNext⟩,hrest,rfl⟩ := bind_pure_eq_ok h
    obtain ⟨hmiddle,hlexical⟩ := bindItem_lexical hitem hscope hnodup
    obtain ⟨hlater,hmore⟩ := ih hrest hscope hmiddle
    dsimp only at hlexical hmore ⊢
    rw [forall_mem_append,hlexical,hmore]
    exact ⟨hlater,forall_mem_append.symm⟩

def scopeOf (seen : List Text) : List Symbol := seen.map fun name => ⟨name,0⟩

theorem names_scopeOf (seen : List Text) : names (scopeOf seen) = seen := by
  rw [names,scopeOf,map_map]
  exact map_id _

mutual

theorem equivalent_congr {scope other : List Symbol} (h : names scope = names other) :
    ∀ a b : Expr,equivalent scope a b = equivalent other a b
  | .group a,b => by
    rw [equivalent,equivalent]
    exact equivalent_congr h a b
  | .var a,b => by
    rw [equivalent,equivalent,lookupOptional_isNone,lookupOptional_isNone,h]
  | .node kind as,b => by
    rw [equivalent,equivalent]
    simp only [equivalentList_congr h as]
  | .comprehension iterator filter map a as,b => by
    rw [equivalent,equivalent]
    simp only [equivalent_congr h a,equivalentList_congr h as]
  | .patternPredicate as,b => by
    rw [equivalent,equivalent]
    simp only [equivalentParts_congr h as]

theorem equivalentList_congr {scope other : List Symbol} (h : names scope = names other) :
    ∀ as bs : List Expr,equivalentList scope as bs = equivalentList other as bs
  | [],[] => rfl
  | [],_::_ => rfl
  | _::_,[] => rfl
  | a::as,b::bs => by
    rw [equivalentList,equivalentList,equivalent_congr h a,equivalentList_congr h as]

theorem equivalentParts_congr {scope other : List Symbol} (h : names scope = names other) :
    ∀ as bs : List PatternPart,equivalentParts scope as bs = equivalentParts other as bs
  | [],[] => rfl
  | [],.mk _ _::_ => rfl
  | .mk _ _::_,[] => rfl
  | .mk _ as::rest,.mk _ bs::others => by
    rw [equivalentParts,equivalentParts,equivalentList_congr h as,equivalentParts_congr h rest]

end

def Projection.reuses (projection : Projection) (seen : List Text) (e : Expr) : Bool :=
  projection.hidesInput && (projection.items.flatMap ProjectionItem.reusable).any fun root =>
    equivalent (scopeOf (projection.items.flatMap (ProjectionItem.columns seen))) e root

theorem reuses_eq_any (env : Environment) (e : Expr) :
    env.reuses e = (env.aliases.map Prod.fst).any fun root => equivalent env.scope e root := by
  rw [Environment.reuses,Environment.projectedAlias,Option.isSome_map,any_map,
    Bool.eq_iff_iff,find?_isSome,any_eq_true]
  rfl

variable {projection : Projection} {scope : List Symbol}

theorem nodup_orderScope {columns : Columns}
    (hscope : (names scope).Nodup) (hcolumns : (names columns.output).Nodup) :
    (names (projection.orderScope scope columns)).Nodup := by
  unfold Projection.orderScope
  split_ifs with hhides
  · exact hcolumns
  · rw [names,map_append]
    apply List.Nodup.append hcolumns
    · exact (filter_sublist.map Symbol.name).nodup hscope
    · intro name hcolumn hbehind
      obtain ⟨symbol,hsymbol,rfl⟩ := mem_map.mp hbehind
      have hfresh:=(mem_filter.mp hsymbol).2
      rw [lookupOptional_isNone] at hfresh
      exact of_decide_eq_true hfresh hcolumn

theorem reuses_orderScope {columns : Columns} {limits : Limits} (h : Columns.Adds ⟨[],[]⟩ columns
      (projection.items.flatMap (ProjectionItem.columns (names scope)))
      (projection.items.flatMap ProjectionItem.reusable)) :
    Environment.reuses ⟨limits.depth,projection.orderScope scope columns,
      projection.orderAliases columns⟩ = projection.reuses (names scope) := by
  funext e
  rw [reuses_eq_any,Projection.reuses]
  unfold Projection.orderScope Projection.orderAliases
  cases hhides : projection.hidesInput with
  | false => rfl
  | true =>
    have hnames : names columns.output = names (scopeOf
        (projection.items.flatMap (ProjectionItem.columns (names scope)))) := by
      rw [names_scopeOf]
      exact h.output
    have haliases : columns.aliases.map Prod.fst =
        projection.items.flatMap ProjectionItem.reusable := h.aliases
    rw [if_pos rfl,if_pos rfl,haliases,Bool.true_and]
    simp only [equivalent_congr hnames]

theorem apart_order {columns : Columns} {added : List Text} {depth : ℕ}
    (h : Columns.Adds ⟨[],[]⟩ columns added (projection.items.flatMap ProjectionItem.reusable))
    {e : Expr} (he : e ∈ projection.order) :
    Environment.Apart ⟨depth,projection.orderScope scope columns,
      projection.orderAliases columns⟩ e.tokens := by
  intro candidate hcandidate
  unfold Projection.orderAliases at hcandidate
  split_ifs at hcandidate
  · have hroot : candidate.1 ∈ projection.items.flatMap ProjectionItem.reusable := by
      rw [← nil_append (List.flatMap _ _),← map_nil,← h.aliases]
      exact mem_map_of_mem hcandidate
    obtain ⟨item,hitem,hreusable⟩ := mem_flatMap.mp hroot
    exact projection.apart e he candidate.1
      (mem_flatMap.mpr ⟨item,hitem,(mem_filter.mp hreusable).1⟩)
  · exact absurd hcandidate not_mem_nil

structure Projection.Safe (projection : Projection) (seen : List Text) : Prop where
  roots : ∀ root ∈ projection.items.flatMap ProjectionItem.roots,root.Plain
  order : ∀ e ∈ projection.order,e.Safe (projection.reuses seen) []
  predicate : ∀ e ∈ projection.predicate.toList,e.Plain

theorem bindOrder_spec {limits : Limits} {aliases : List (Expr × Symbol)} {es : List Expr}
    (hscope : (names scope).Nodup) :
    ∀ {next : ℕ} {result : Progress},bindEach (bindRoot limits aliases) es scope next = .ok result →
      (∀ e ∈ es,Environment.Apart ⟨limits.depth,scope,aliases⟩ e.tokens) →
      ((∀ site ∈ result.1,site.Lexical) ↔
        ∀ e ∈ es,e.Safe (Environment.reuses ⟨limits.depth,scope,aliases⟩) []) := by
  induction es with
  | nil =>
    intro next result h _
    obtain rfl := Except.ok.inj h
    exact iff_of_true nofun nofun
  | cons e es ih =>
    intro next result h hapart
    obtain ⟨head,hhead,h⟩ := bind_eq_ok h
    obtain ⟨rest,hrest,rfl⟩ := bind_pure_eq_ok h
    obtain ⟨bound,hbound,rfl⟩ := bind_pure_eq_ok hhead
    have hlexical:=bindExpression_lexical e 1 [] next bound hbound
      (hapart e mem_cons_self)
    have htail:=ih hrest fun other hother => hapart other (mem_cons_of_mem _ hother)
    dsimp only
    rw [forall_mem_append,htail,forall_mem_singleton,forall_mem_cons]
    apply and_congr_left'
    exact ⟨fun h => hlexical.mp h.2,fun h => ⟨hscope,hlexical.mpr h⟩⟩

theorem bindProjection_binds (limits : Limits) (projection : Projection) :
    Binds (projection.bind limits)
      (fun seen => projection.items.flatMap (ProjectionItem.columns seen)) projection.Safe where
  spec := by
    intro scope next result h hnodup
    obtain ⟨⟨sites,columns,itemsNext⟩,hitems,h⟩ := bind_eq_ok h
    obtain ⟨⟨order,orderScope,orderNext⟩,horder,h⟩ := bind_eq_ok h
    obtain ⟨⟨predicate,after,last⟩,hpredicate,rfl⟩ := bind_pure_eq_ok h
    have hadds:=bindItems_adds hitems
    obtain ⟨hcolumns,hroots⟩ := bindItems_lexical hitems hnodup nodup_nil
    have horders:=bindOrder_spec (nodup_orderScope hnodup hcolumns) horder
      fun e he => apart_order hadds he
    obtain ⟨_,_,hwhere⟩ := (bindRoots_binds limits projection.predicate.toList).spec
      columns.output orderNext _ hpredicate hcolumns
    dsimp only at hroots horders hwhere ⊢
    rw [reuses_orderScope hadds] at horders
    refine ⟨hadds.output,hcolumns,?_⟩
    rw [forall_mem_append,forall_mem_append,hroots,horders,hwhere]
    constructor
    · intro ⟨⟨hroots,horder⟩,hwhere⟩
      exact ⟨hroots,horder,hwhere⟩
    · intro hsafe
      exact ⟨⟨hsafe.roots,hsafe.order⟩,hsafe.predicate⟩

def Clause.after : Clause → List Text → List Text
  | .matching patterns _,seen => afterPatterns patterns seen
  | .create patterns,seen => afterPatterns patterns seen
  | .update _,seen => seen
  | .call _ yields,seen => seen++yields
  | .project projection,seen => projection.items.flatMap (ProjectionItem.columns seen)

/-- No pattern, and no expression that a column stands for, has the name of an iterator around
it. -/
def Clause.Safe : Clause → List Text → Prop
  | .matching patterns predicate,_ =>
    (∀ parts ∈ patterns,∀ part ∈ parts,part.Plain) ∧ ∀ e ∈ predicate.toList,e.Plain
  | .create patterns,_ => ∀ parts ∈ patterns,∀ part ∈ parts,part.Plain
  | .update items,_ => ∀ item ∈ items,item.Plain
  | .call arguments _,_ => ∀ e ∈ arguments,e.Plain
  | .project projection,seen => projection.Safe seen

theorem afterEach_yields {yields seen : List Text} :
    afterEach (fun name seen => seen++[name]) yields seen = seen++yields := by
  induction yields generalizing seen with
  | nil => exact (append_nil _).symm
  | cons name yields ih => rw [afterEach,ih,append_assoc,singleton_append]

theorem bindClause_binds (limits : Limits) (clause : Clause) :
    Binds (clause.bind limits) clause.after clause.Safe := by
  cases clause with
  | matching patterns predicate =>
    exact (bindPatterns_binds limits false patterns).append (bindRoots_binds limits _)
  | create patterns => exact bindPatterns_binds limits true patterns
  | update items =>
    constructor
    intro scope next result h hnodup
    have hbinds:=(Binds.each fun item _ => bindUpdate_binds limits item).spec
      scope next result h hnodup
    rwa [afterEach_same,safeEach_iff] at hbinds
  | call arguments yields =>
    constructor
    intro scope next result h hnodup
    have hbinds:=((bindRoots_binds limits arguments).append
      (Binds.each fun name _ => bindYield_binds limits name)).spec scope next result h hnodup
    rw [afterEach_yields,safeEach_iff] at hbinds
    refine ⟨hbinds.1,hbinds.2.1,hbinds.2.2.trans ?_⟩
    exact and_iff_left fun _ _ => trivial
  | project projection => exact bindProjection_binds limits projection

def StatementSafe (clauses : List Clause) : Prop := SafeEach Clause.after Clause.Safe clauses []

theorem bindStatement_binds (limits : Limits) (clauses : List Clause) :
    Binds (bindEach (Clause.bind limits) clauses) (afterEach Clause.after clauses)
      (SafeEach Clause.after Clause.Safe clauses) :=
  Binds.each fun clause _ => bindClause_binds limits clause

theorem bindStatement_lexical (limits : Limits) (clauses : List Clause) (result : Progress)
    (h : bindStatement limits clauses = .ok result) :
    (∀ site ∈ result.1,site.Lexical) ↔ StatementSafe clauses :=
  ((bindStatement_binds limits clauses).spec [] 0 result h nodup_nil).2.2

def matchX : Clause := .matching [[.mk ⟨.node,some ⟨0,['x']⟩,[],none⟩ []]] none

/-- The clause `RETURN [x IN [1] WHERE (x)-->() | x] AS y`, or the same with another iterator. -/
def returnPattern (iterator : Text) : Clause :=
  .project {
    distinct := false
    items := [.item (.comprehension ⟨1,iterator⟩ true true
      (.node .list [.node (.integer 1) []])
      [.patternPredicate [.mk ⟨.node,some ⟨2,['x']⟩,[],none⟩ [],
        .mk ⟨.relationship .outgoing none,none,[],none⟩ [],.mk ⟨.node,none,[],none⟩ []],
        .var ⟨3,iterator⟩]) (some ['y']) []]
    order := []
    predicate := none
    apart := nofun }

theorem plain_matchX (seen : List Text) : matchX.Safe seen :=
  ⟨by simp [PatternPart.Plain],nofun⟩

theorem bindStatement_lexical_other : ∃ result,
    bindStatement ⟨64,64⟩ [matchX,returnPattern ['z']] = .ok result ∧
      ∀ site ∈ result.1,site.Lexical := by
  refine ⟨_,rfl,(bindStatement_lexical ⟨64,64⟩ [matchX,returnPattern ['z']] _ rfl).mpr ?_⟩
  refine ⟨plain_matchX [],⟨?_,nofun,nofun⟩,trivial⟩
  simp [ProjectionItem.roots,Expr.Plain,Expr.Safe,SafeList,SafeParts]

/-- The pattern is bound to the matched node, although the iterator hides it. -/
theorem bindStatement_not_lexical : ∃ result,
    bindStatement ⟨64,64⟩ [matchX,returnPattern ['x']] = .ok result ∧
      ¬ ∀ site ∈ result.1,site.Lexical := by
  refine ⟨_,rfl,?_⟩
  have hbinds:=(bindStatement_binds ⟨64,64⟩ [matchX,returnPattern ['x']]).spec [] 0 _ rfl
    nodup_nil
  rw [hbinds.2.2]
  rintro ⟨_,hsafe,_⟩
  have hroots:=hsafe.roots
  simp [ProjectionItem.roots,Expr.Plain,Expr.Safe,SafeList,SafeParts] at hroots

end Zeppelin.Cypher
