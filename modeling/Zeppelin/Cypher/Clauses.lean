import Mathlib.Data.List.Nodup
import Zeppelin.Cypher.Binder

/-! zeppelin-embed-cypher/src/binding.rs, patterns.rs, projection.rs -/

namespace Zeppelin.Cypher
open List

structure Limits where
  depth : ℕ
  columns : ℕ

inductive Site where
  | expression (env : Environment) (e : Expr) (bound : Bound)
  | name (scope : List Symbol) (text : Text) (slot : ℕ)

inductive ProjectionItem where
  | star
  /-- The source is the text that names the column where nothing else does. -/
  | item (root : Expr) (aliasName : Option Text) (source : Text)

def ProjectionItem.roots : ProjectionItem → List Expr
  | .star => []
  | .item root _ _ => [root]

structure Projection where
  distinct : Bool
  items : List ProjectionItem
  order : List Expr
  predicate : Option Expr
  apart : ∀ e ∈ order,∀ root ∈ items.flatMap ProjectionItem.roots,
    List.Disjoint e.tokens root.tokens

structure Update where
  variableName : Text
  value : Option Expr

inductive Clause where
  | matching (patterns : List (List PatternPart)) (predicate : Option Expr)
  | create (patterns : List (List PatternPart))
  | update (items : List Update)
  | call (arguments : List Expr) (yields : List Text)
  | project (projection : Projection)

abbrev Progress := List Site × List Symbol × ℕ

def bindRoot (limits : Limits) (aliases : List (Expr × Symbol)) (e : Expr) (scope : List Symbol)
    (next : ℕ) : Except BindError Progress := do
  let (bound,next) ← bindExpression ⟨limits.depth,scope,aliases⟩ 1 [] e next
  return ([.expression ⟨limits.depth,scope,aliases⟩ e bound],scope,next)

def bindEach {α : Type} (bind : α → List Symbol → ℕ → Except BindError Progress) :
    List α → List Symbol → ℕ → Except BindError Progress
  | [],scope,next => .ok ([],scope,next)
  | item::items,scope,next => do
    let (sites,scope,next) ← bind item scope next
    let (more,scope,next) ← bindEach bind items scope next
    return (sites++more,scope,next)

def declare (limits : Limits) (scope : List Symbol) (name : Text) (next : ℕ) :
    Except BindError (Symbol × ℕ) := do
  let (slot,next) ← newSlot next
  failIf (limits.columns ≤ scope.length) .columns
  return (⟨name,slot⟩,next)

/-- CREATE may only name a bound node, and only as the bare end of a relationship. -/
def redeclares (member : Member) (alone : Bool) : Bool :=
  member.kind ≠ .node || member.labels ≠ [] || member.keys.isSome || alone

/-- The name of a member is looked up, and declared where it is new. -/
def bindMember (limits : Limits) (create alone : Bool) (member : Member) (scope : List Symbol)
    (next : ℕ) : Except BindError Progress :=
  match member.variableName with
  | none => do
    let (_,next) ← newSlot next
    return ([],scope,next)
  | some name =>
    match lookupOptional scope name.text with
    | some symbol => do
      failIf (create && redeclares member alone) .duplicateVariable
      return ([.name scope name.text symbol.slot],scope,next)
    | none => do
      let (symbol,next) ← declare limits scope name.text next
      return ([.name (scope++[symbol]) name.text symbol.slot],scope++[symbol],next)

def bindPart (limits : Limits) (create alone : Bool) :
    PatternPart → List Symbol → ℕ → Except BindError Progress
  | .mk member values,scope,next => do
    let (sites,scope,next) ← bindMember limits create alone member scope next
    let (more,scope,next) ← bindEach (bindRoot limits []) values scope next
    return (sites++more,scope,next)

/-- `Binder::patterns` -/
def bindPatterns (limits : Limits) (create : Bool) (patterns : List (List PatternPart)) :
    List Symbol → ℕ → Except BindError Progress :=
  bindEach (fun parts => bindEach (bindPart limits create (parts.length = 1)) parts) patterns

def bindUpdate (limits : Limits) (item : Update) (scope : List Symbol) (next : ℕ) :
    Except BindError Progress := do
  let symbol ← lookup scope item.variableName
  let (sites,after,next) ← bindEach (bindRoot limits []) item.value.toList scope next
  return (.name scope item.variableName symbol.slot::sites,after,next)

def bindYield (limits : Limits) (name : Text) (scope : List Symbol) (next : ℕ) :
    Except BindError Progress := do
  failIf ((lookupOptional scope name).isSome = true) .duplicateVariable
  let (symbol,next) ← declare limits scope name next
  return ([],scope++[symbol],next)

structure Columns where
  output : List Symbol
  aliases : List (Expr × Symbol)

def Columns.add (columns : Columns) (root : Expr) (column : Symbol) : Columns where
  output := columns.output++[column]
  aliases := if root.aggregate then columns.aliases else columns.aliases++[(root,column)]

def projectColumn (limits : Limits) (output : List Symbol) (name : Text) (next : ℕ) :
    Except BindError (Symbol × ℕ) := do
  failIf ((lookupOptional output name).isSome = true) .duplicateVariable
  failIf (limits.columns ≤ output.length) .columns
  let (slot,next) ← newSlot next
  return (⟨name,slot⟩,next)

def projectAll (limits : Limits) : List Symbol → List Symbol → ℕ →
    Except BindError (List Symbol × ℕ)
  | [],output,next => .ok (output,next)
  | symbol::scope,output,next => do
    let (column,next) ← projectColumn limits output symbol.name next
    projectAll limits scope (output++[column]) next

def columnName (root : Expr) (aliasName : Option Text) (source : Text) : Text :=
  match aliasName with
  | some name => name
  | none =>
    match root.ungroup with
    | .var name => name.text
    | _ => source

def bindItem (limits : Limits) (scope : List Symbol) (columns : Columns) (next : ℕ) :
    ProjectionItem → Except BindError (List Site × Columns × ℕ)
  | .star => do
    let (output,next) ← projectAll limits scope columns.output next
    return ([],⟨output,columns.aliases⟩,next)
  | .item root aliasName source => do
    let (sites,_,next) ← bindRoot limits [] root scope next
    let (column,next) ← projectColumn limits columns.output (columnName root aliasName source) next
    return (sites,columns.add root column,next)

def bindItems (limits : Limits) (scope : List Symbol) :
    List ProjectionItem → Columns → ℕ → Except BindError (List Site × Columns × ℕ)
  | [],columns,next => .ok ([],columns,next)
  | item::items,columns,next => do
    let (sites,columns,next) ← bindItem limits scope columns next item
    let (more,columns,next) ← bindItems limits scope items columns next
    return (sites++more,columns,next)

def Projection.aggregate (projection : Projection) : Bool :=
  (projection.items.flatMap ProjectionItem.roots).any Expr.aggregate

def Projection.hidesInput (projection : Projection) : Bool :=
  projection.distinct || projection.aggregate

def Projection.orderScope (projection : Projection) (scope : List Symbol) (columns : Columns) :
    List Symbol :=
  if projection.hidesInput then columns.output
  else columns.output++scope.filter fun symbol =>
    (lookupOptional columns.output symbol.name).isNone

def Projection.orderAliases (projection : Projection) (columns : Columns) :
    List (Expr × Symbol) :=
  if projection.hidesInput then columns.aliases else []

def Projection.bind (limits : Limits) (projection : Projection) (scope : List Symbol)
    (next : ℕ) : Except BindError Progress := do
  let (sites,columns,next) ← bindItems limits scope projection.items ⟨[],[]⟩ next
  let (order,_,next) ← bindEach (bindRoot limits (projection.orderAliases columns))
    projection.order (projection.orderScope scope columns) next
  let (predicate,_,next) ← bindEach (bindRoot limits []) projection.predicate.toList
    columns.output next
  return (sites++order++predicate,columns.output,next)

def Clause.bind (limits : Limits) : Clause → List Symbol → ℕ → Except BindError Progress
  | .matching patterns predicate,scope,next => do
    let (sites,scope,next) ← bindPatterns limits false patterns scope next
    let (more,scope,next) ← bindEach (bindRoot limits []) predicate.toList scope next
    return (sites++more,scope,next)
  | .create patterns,scope,next => bindPatterns limits true patterns scope next
  | .update items,scope,next => bindEach (bindUpdate limits) items scope next
  | .call arguments yields,scope,next => do
    let (sites,scope,next) ← bindEach (bindRoot limits []) arguments scope next
    let (more,scope,next) ← bindEach (bindYield limits) yields scope next
    return (sites++more,scope,next)
  | .project projection,scope,next => projection.bind limits scope next

def bindStatement (limits : Limits) (clauses : List Clause) : Except BindError Progress :=
  bindEach (Clause.bind limits) clauses [] 0

def names (scope : List Symbol) : List Text := scope.map Symbol.name

def Site.Lexical : Site → Prop
  | .expression env e bound => (names env.scope).Nodup ∧ Cypher.Lexical env.scope [] e bound
  | .name scope text slot =>
    (names scope).Nodup ∧ (lookupOptional scope text).map Symbol.slot = some slot

variable {scope : List Symbol} {name : Text} {α : Type} {seen : List Text}

theorem lookupOptional_isNone :
    (lookupOptional scope name).isNone = decide (name ∉ names scope) := by
  rw [Bool.eq_iff_iff,Option.isNone_iff_eq_none,lookupOptional,find?_eq_none,
    decide_eq_true_eq,names,mem_map]
  constructor
  · rintro h ⟨symbol,hsymbol,rfl⟩
    exact h symbol hsymbol (decide_eq_true rfl)
  · intro h symbol hsymbol hname
    exact h ⟨symbol,hsymbol,of_decide_eq_true hname⟩

theorem lookupOptional_isSome : (lookupOptional scope name).isSome = true ↔ name ∈ names scope := by
  rw [← Option.not_isNone,lookupOptional_isNone]
  simp

variable {symbol : Symbol} {items : List α}

theorem lookupOptional_append (hfresh : name ∉ names scope) (hname : symbol.name = name) :
    lookupOptional (scope++[symbol]) name = some symbol := by
  have hnone : lookupOptional scope name = none := by
    rw [← Option.isNone_iff_eq_none,lookupOptional_isNone]
    exact decide_eq_true hfresh
  rw [lookupOptional] at hnone ⊢
  rw [find?_append,hnone,Option.none_or]
  simp [hname]

theorem lookup_eq
    (h : lookup scope name = .ok symbol) : lookupOptional scope name = some symbol := by
  unfold lookup at h
  cases hlookup : lookupOptional scope name with
  | none =>
    rw [hlookup] at h
    cases h
  | some other =>
    rw [hlookup] at h
    rw [Except.ok.inj h]

/-- The names behind a part of a clause, and where its sites are lexical. -/
structure Binds (bind : List Symbol → ℕ → Except BindError Progress)
    (after : List Text → List Text) (safe : List Text → Prop) : Prop where
  spec : ∀ (scope : List Symbol) (next : ℕ) (result : Progress),bind scope next = .ok result →
    (names scope).Nodup → names result.2.1 = after (names scope) ∧ (names result.2.1).Nodup ∧
      ((∀ site ∈ result.1,site.Lexical) ↔ safe (names scope))

theorem Binds.append {first second : List Symbol → ℕ → Except BindError Progress}
    {after later : List Text → List Text} {safe others : List Text → Prop}
    (hfirst : Binds first after safe) (hsecond : Binds second later others) :
    Binds (fun scope next => do
      let (sites,scope,next) ← first scope next
      let (more,scope,next) ← second scope next
      return (sites++more,scope,next)) (fun seen => later (after seen))
      (fun seen => safe seen ∧ others (after seen)) where
  spec := by
    intro scope next result h hnodup
    obtain ⟨⟨sites,middle,nextSlot⟩,hsites,h⟩ := bind_eq_ok h
    obtain ⟨⟨more,last,lastSlot⟩,hmore,rfl⟩ := bind_pure_eq_ok h
    obtain ⟨hafter,hmiddle,hlexical⟩ := hfirst.spec scope next _ hsites hnodup
    obtain ⟨hlater,hlast,hrest⟩ := hsecond.spec middle nextSlot _ hmore hmiddle
    dsimp only at hafter hlater
    refine ⟨?_,hlast,?_⟩
    · dsimp only
      rw [hlater,hafter]
    · rw [forall_mem_append,hlexical,hrest,hafter]

def afterEach {α : Type} (after : α → List Text → List Text) : List α → List Text → List Text
  | [],seen => seen
  | item::items,seen => afterEach after items (after item seen)

def SafeEach {α : Type} (after : α → List Text → List Text) (safe : α → List Text → Prop) :
    List α → List Text → Prop
  | [],_ => True
  | item::items,seen => safe item seen ∧ SafeEach after safe items (after item seen)

theorem Binds.each {bind : α → List Symbol → ℕ → Except BindError Progress}
    {after : α → List Text → List Text} {safe : α → List Text → Prop}
    (h : ∀ item ∈ items,Binds (bind item) (after item) (safe item)) :
    Binds (bindEach bind items) (afterEach after items) (SafeEach after safe items) := by
  induction items with
  | nil =>
    constructor
    intro scope next result hresult hnodup
    obtain rfl := Except.ok.inj hresult
    exact ⟨rfl,hnodup,iff_of_true nofun trivial⟩
  | cons item items ih =>
    exact (h item mem_cons_self).append (ih fun other hother =>
      h other (mem_cons_of_mem _ hother))

theorem safeEach_iff {after : α → List Text → List Text} {safe : α → Prop} :
    SafeEach after (fun item _ => safe item) items seen ↔ ∀ item ∈ items,safe item := by
  induction items generalizing seen with
  | nil => exact iff_of_true trivial nofun
  | cons item items ih => rw [SafeEach,ih,forall_mem_cons]

theorem afterEach_same : afterEach (fun (_ : α) seen => seen) items seen = seen := by
  induction items with
  | nil => rfl
  | cons item items ih => exact ih

def Expr.Plain (e : Expr) : Prop := e.Safe (fun _ => false) []

theorem reuses_nil (depth : ℕ) (scope : List Symbol) :
    Environment.reuses ⟨depth,scope,[]⟩ = fun _ => false := rfl

theorem bindRoot_binds (limits : Limits) (e : Expr) :
    Binds (bindRoot limits [] e) (fun seen => seen) (fun _ => e.Plain) where
  spec := by
    intro scope next result h hnodup
    obtain ⟨bound,hbound,rfl⟩ := bind_pure_eq_ok h
    refine ⟨rfl,hnodup,?_⟩
    have hlexical:=bindExpression_lexical e 1 [] next bound hbound fun candidate hcandidate =>
      absurd hcandidate not_mem_nil
    rw [reuses_nil] at hlexical
    dsimp only
    rw [forall_mem_singleton,Expr.Plain]
    exact ⟨fun h => hlexical.mp h.2,fun h => ⟨hnodup,hlexical.mpr h⟩⟩

theorem bindRoots_binds (limits : Limits) (es : List Expr) :
    Binds (bindEach (bindRoot limits []) es) (fun seen => seen) (fun _ => ∀ e ∈ es,e.Plain) where
  spec := by
    intro scope next result h hnodup
    have hbinds:=(Binds.each fun e _ => bindRoot_binds limits e).spec scope next result h hnodup
    rwa [afterEach_same,safeEach_iff] at hbinds

def Member.after (member : Member) (seen : List Text) : List Text :=
  match member.variableName with
  | none => seen
  | some name => if name.text ∈ seen then seen else seen++[name.text]

theorem names_append (scope : List Symbol) (symbol : Symbol) :
    names (scope++[symbol]) = names scope++[symbol.name] := by
  rw [names,map_append]
  rfl

theorem nodup_append_fresh (hnodup : seen.Nodup)
    (hfresh : name ∉ seen) : (seen++[name]).Nodup := by
  apply List.Nodup.append hnodup (nodup_singleton name)
  rw [disjoint_singleton]
  exact hfresh

theorem declare_name {limits : Limits} {next : ℕ}
    {result : Symbol × ℕ} (h : declare limits scope name next = .ok result) :
    result.1.name = name := by
  obtain ⟨_,_,h⟩ := bind_eq_ok h
  obtain ⟨_,_,rfl⟩ := bind_pure_eq_ok h
  rfl

theorem bindMember_binds (limits : Limits) (create alone : Bool) (member : Member) :
    Binds (bindMember limits create alone member) member.after (fun _ => True) where
  spec := by
    intro scope next result h hnodup
    unfold bindMember at h
    unfold Member.after
    cases hname : member.variableName with
    | none =>
      rw [hname] at h
      obtain ⟨_,_,rfl⟩ := bind_pure_eq_ok h
      exact ⟨rfl,hnodup,iff_of_true nofun trivial⟩
    | some name =>
      rw [hname] at h
      dsimp only at h ⊢
      cases hlookup : lookupOptional scope name.text with
      | some symbol =>
        rw [hlookup] at h
        obtain ⟨_,_,rfl⟩ := bind_pure_eq_ok h
        have hseen : name.text ∈ names scope :=
          lookupOptional_isSome.mp (Option.isSome_iff_exists.mpr ⟨symbol,hlookup⟩)
        rw [if_pos hseen]
        refine ⟨rfl,hnodup,iff_of_true ?_ trivial⟩
        rw [forall_mem_singleton,Site.Lexical,hlookup]
        exact ⟨hnodup,rfl⟩
      | none =>
        rw [hlookup] at h
        obtain ⟨declared,hdeclared,rfl⟩ := bind_pure_eq_ok h
        have hsymbol:=declare_name hdeclared
        have hfresh : name.text ∉ names scope := by
          rw [← lookupOptional_isSome,hlookup]
          exact Bool.false_ne_true
        have hlonger:=nodup_append_fresh hnodup hfresh
        rw [if_neg hfresh]
        dsimp only
        rw [forall_mem_singleton,Site.Lexical,names_append,hsymbol,
          lookupOptional_append hfresh hsymbol]
        exact ⟨rfl,hlonger,iff_of_true ⟨hlonger,rfl⟩ trivial⟩

def PatternPart.after : PatternPart → List Text → List Text
  | .mk member _,seen => member.after seen

def PatternPart.Plain : PatternPart → Prop
  | .mk _ values => ∀ e ∈ values,e.Plain

theorem bindPart_binds (limits : Limits) (create alone : Bool) (part : PatternPart) :
    Binds (bindPart limits create alone part) part.after (fun _ => part.Plain) where
  spec := by
    obtain ⟨member,values⟩ := part
    intro scope next result h hnodup
    have hbinds:=((bindMember_binds limits create alone member).append
      (bindRoots_binds limits values)).spec scope next result h hnodup
    rwa [true_and] at hbinds

theorem bindParts_binds (limits : Limits) (create alone : Bool) (parts : List PatternPart) :
    Binds (bindEach (bindPart limits create alone) parts) (afterEach PatternPart.after parts)
      (fun _ => ∀ part ∈ parts,part.Plain) where
  spec := by
    intro scope next result h hnodup
    have hbinds:=(Binds.each fun part _ => bindPart_binds limits create alone part).spec
      scope next result h hnodup
    rwa [safeEach_iff] at hbinds

def afterPatterns (patterns : List (List PatternPart)) : List Text → List Text :=
  afterEach (afterEach PatternPart.after) patterns

theorem bindPatterns_binds (limits : Limits) (create : Bool) (patterns : List (List PatternPart)) :
    Binds (bindPatterns limits create patterns) (afterPatterns patterns)
      (fun _ => ∀ parts ∈ patterns,∀ part ∈ parts,part.Plain) where
  spec := by
    intro scope next result h hnodup
    have hbinds:=(Binds.each fun parts _ => bindParts_binds limits create (parts.length = 1)
      parts).spec scope next result h hnodup
    rwa [safeEach_iff] at hbinds

def Update.Plain (item : Update) : Prop := ∀ e ∈ item.value.toList,e.Plain

theorem bindUpdate_binds (limits : Limits) (item : Update) :
    Binds (bindUpdate limits item) (fun seen => seen) (fun _ => item.Plain) where
  spec := by
    intro scope next result h hnodup
    obtain ⟨symbol,hsymbol,h⟩ := bind_eq_ok h
    obtain ⟨⟨sites,after,nextSlot⟩,hsites,rfl⟩ := bind_pure_eq_ok h
    obtain ⟨hafter,hnodup',hlexical⟩ :=
      (bindRoots_binds limits item.value.toList).spec scope next _ hsites hnodup
    refine ⟨hafter,hnodup',?_⟩
    dsimp only at hlexical ⊢
    rw [forall_mem_cons,hlexical,Site.Lexical,lookup_eq hsymbol]
    exact and_iff_right ⟨hnodup,rfl⟩

theorem bindYield_binds (limits : Limits) (name : Text) :
    Binds (bindYield limits name) (fun seen => seen++[name]) (fun _ => True) where
  spec := by
    intro scope next result h hnodup
    obtain ⟨_,hfresh,h⟩ := bind_eq_ok h
    obtain ⟨declared,hdeclared,rfl⟩ := bind_pure_eq_ok h
    rw [failIf_eq_ok,lookupOptional_isSome] at hfresh
    dsimp only
    rw [names_append,declare_name hdeclared]
    exact ⟨rfl,nodup_append_fresh hnodup hfresh,iff_of_true nofun trivial⟩

end Zeppelin.Cypher
