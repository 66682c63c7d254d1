import Mathlib.Algebra.GroupWithZero.Nat
import Mathlib.Data.List.Basic
import Zeppelin.Cypher.Syntax

/-! zeppelin-embed-cypher/src/binding.rs, binding/ -/

namespace Zeppelin.Cypher
open List

inductive BindError where
  | unknownVariable
  | duplicateVariable
  | unsupported
  | depth
  | columns
  | invariant
  deriving DecidableEq

structure Symbol where
  name : Text
  slot : ℕ
  deriving DecidableEq

def lookupOptional (scope : List Symbol) (name : Text) : Option Symbol :=
  scope.find? fun symbol => symbol.name = name

def lookup (scope : List Symbol) (name : Text) : Except BindError Symbol :=
  match lookupOptional scope name with
  | some symbol => .ok symbol
  | none => .error .unknownVariable

def newSlot (next : ℕ) : Except BindError (ℕ × ℕ) :=
  if next+1 < 2^32 then .ok (next,next+1) else .error .invariant

mutual

def equivalent (scope : List Symbol) : Expr → Expr → Bool
  | .group a,b => equivalent scope a b
  | .var a,b =>
    (lookupOptional scope a.text).isNone &&
      match b.ungroup with
      | .var b => a.text = b.text
      | _ => false
  | .node kind as,b =>
    match b.ungroup with
    | .node other bs => kind = other && equivalentList scope as bs
    | _ => false
  | .comprehension iterator filter map a as,b =>
    match b.ungroup with
    | .comprehension iterator' filter' map' b bs =>
      iterator = iterator' && filter = filter' && map = map' && equivalent scope a b &&
        equivalentList scope as bs
    | _ => false
  | .patternPredicate as,b =>
    match b.ungroup with
    | .patternPredicate bs => equivalentParts scope as bs
    | _ => false

def equivalentList (scope : List Symbol) : List Expr → List Expr → Bool
  | [],[] => true
  | a::as,b::bs => equivalent scope a b && equivalentList scope as bs
  | _,_ => false

def equivalentParts (scope : List Symbol) : List PatternPart → List PatternPart → Bool
  | [],[] => true
  | .mk a as::rest,.mk b bs::others =>
    a = b && equivalentList scope as bs && equivalentParts scope rest others
  | _,_ => false

end

mutual

/-- An expression with its names bound. A column is a slot that an expression was replaced by; the
parentheses around that are left out. -/
inductive Bound where
  | slot (slot : ℕ)
  | localSlot (slot : ℕ)
  | column (replaced : Expr) (slot : ℕ)
  | node (kind : NodeKind) (children : List Bound)
  | comprehension (iterator : ℕ) (filter map : Bool) (source : Bound) (body : List Bound)
  | patternPredicate (parts : List BoundPart) (witness : ℕ)

inductive BoundPart where
  | mk (slot : ℕ) (values : List Bound)

end

structure Environment where
  depth : ℕ
  scope : List Symbol
  /-- `order_aliases` -/
  aliases : List (Expr × Symbol)

abbrev Locals := List (Text × ℕ)

def Locals.find (locals : Locals) (name : Text) : Option ℕ :=
  (List.find? (fun entry => entry.1 = name) locals).map Prod.snd

def Environment.projectedAlias (env : Environment) (e : Expr) : Option Symbol :=
  (env.aliases.find? fun candidate => equivalent env.scope e candidate.1).map Prod.snd

def Environment.orAlias (env : Environment) (e : Expr) (next : ℕ)
    (otherwise : Except BindError (Bound × ℕ)) : Except BindError (Bound × ℕ) :=
  match env.projectedAlias e with
  | some symbol => .ok (.column e.ungroup symbol.slot,next)
  | none => otherwise

def Environment.bindVariable (env : Environment) (locals : Locals) (name : Text) (next : ℕ) :
    Except BindError (Bound × ℕ) :=
  match locals.find name with
  | some slot => .ok (.localSlot slot,next)
  | none => do
    let symbol ← lookup env.scope name
    return (.slot symbol.slot,next)

def checkPart (scope : List Symbol) : PatternPart → Except BindError Unit
  | .mk ⟨.relationship _ (some _),_,_,_⟩ _ => .error .unsupported
  | .mk ⟨_,none,_,_⟩ _ => .ok ()
  | .mk ⟨_,some name,_,_⟩ _ => do
    let _ ← lookup scope name.text
    return ()

def memberSlot (scope : List Symbol) (member : Member) (next : ℕ) :
    Except BindError (ℕ × ℕ) :=
  match member.variableName with
  | some name => do
    let symbol ← lookup scope name.text
    return (symbol.slot,next)
  | none => newSlot next

mutual

def bindExpression (env : Environment) (depth : ℕ) (locals : Locals) :
    Expr → ℕ → Except BindError (Bound × ℕ)
  | .comprehension iterator filter map source body,next => do
    failIf (env.depth < depth) .depth
    let (source,next) ← bindExpression env 1 locals source next
    let (slot,next) ← newSlot next
    let (body,next) ← bindList env 1 ((iterator.text,slot)::locals) body next
    return (.comprehension slot filter map source body,next)
  | .patternPredicate parts,next => do
    failIf (env.depth < depth) .depth
    parts.forM (checkPart env.scope)
    let (parts,next) ← bindParts env locals parts next
    let (witness,next) ← newSlot next
    return (.patternPredicate parts witness,next)
  | .var name,next => do
    failIf (env.depth < depth) .depth
    env.orAlias (.var name) next (env.bindVariable locals name.text next)
  | .group inner,next => do
    failIf (env.depth < depth) .depth
    env.orAlias (.group inner) next (bindExpression env (depth+1) locals inner next)
  | .node kind children,next => do
    failIf (env.depth < depth) .depth
    env.orAlias (.node kind children) next do
      let (children,next) ← bindList env (depth+1) locals children next
      return (.node kind children,next)

def bindList (env : Environment) (depth : ℕ) (locals : Locals) :
    List Expr → ℕ → Except BindError (List Bound × ℕ)
  | [],next => .ok ([],next)
  | e::es,next => do
    let (b,next) ← bindExpression env depth locals e next
    let (bs,next) ← bindList env depth locals es next
    return (b::bs,next)

def bindParts (env : Environment) (locals : Locals) :
    List PatternPart → ℕ → Except BindError (List BoundPart × ℕ)
  | [],next => .ok ([],next)
  | .mk member values::parts,next => do
    let (slot,next) ← memberSlot env.scope member next
    let (values,next) ← bindList env 1 locals values next
    let (parts,next) ← bindParts env locals parts next
    return (.mk slot values::parts,next)

end

mutual

inductive Lexical (scope : List Symbol) : Locals → Expr → Bound → Prop where
  | iterator {locals : Locals} {name : Name} {slot : ℕ} (found : locals.find name.text = some slot) :
      Lexical scope locals (.var name) (.localSlot slot)
  | declared {locals : Locals} {name : Name} {symbol : Symbol}
      (outer : locals.find name.text = none)
      (found : lookupOptional scope name.text = some symbol) :
      Lexical scope locals (.var name) (.slot symbol.slot)
  /-- The names of what a column stands for are those of the input, which nothing hides. -/
  | column {locals : Locals} {e : Expr} {slot : ℕ}
      (outer : ∀ name ∈ e.free,locals.find name = none ∧ lookupOptional scope name = none) :
      Lexical scope locals e (.column e.ungroup slot)
  | group {locals : Locals} {inner : Expr} {bound : Bound} (binds : Lexical scope locals inner bound) :
      Lexical scope locals (.group inner) bound
  | node {locals : Locals} {kind : NodeKind} {children : List Expr} {bounds : List Bound}
      (binds : LexicalList scope locals children bounds) :
      Lexical scope locals (.node kind children) (.node kind bounds)
  | comprehension {locals : Locals} {iterator : Name} {slot : ℕ} {filter map : Bool}
      {source : Expr} {body : List Expr} {bound : Bound} {bounds : List Bound}
      (sourceBinds : Lexical scope locals source bound)
      (bodyBinds : LexicalList scope ((iterator.text,slot)::locals) body bounds) :
      Lexical scope locals (.comprehension iterator filter map source body)
        (.comprehension slot filter map bound bounds)
  | patternPredicate {locals : Locals} {parts : List PatternPart} {bounds : List BoundPart}
      {witness : ℕ} (binds : LexicalParts scope locals parts bounds) :
      Lexical scope locals (.patternPredicate parts) (.patternPredicate bounds witness)

inductive LexicalList (scope : List Symbol) : Locals → List Expr → List Bound → Prop where
  | nil {locals : Locals} : LexicalList scope locals [] []
  | cons {locals : Locals} {e : Expr} {es : List Expr} {bound : Bound} {bounds : List Bound}
      (head : Lexical scope locals e bound) (tail : LexicalList scope locals es bounds) :
      LexicalList scope locals (e::es) (bound::bounds)

inductive LexicalParts (scope : List Symbol) : Locals → List PatternPart → List BoundPart → Prop
    where
  | nil {locals : Locals} : LexicalParts scope locals [] []
  | cons {locals : Locals} {member : Member} {values : List Expr} {slot : ℕ} {bounds : List Bound}
      {parts : List PatternPart} {others : List BoundPart}
      (names : ∀ name,member.variableName = some name → locals.find name.text = none ∧
        (lookupOptional scope name.text).map Symbol.slot = some slot)
      (valuesBind : LexicalList scope locals values bounds)
      (tail : LexicalParts scope locals parts others) :
      LexicalParts scope locals (.mk member values::parts) (.mk slot bounds::others)

end

variable (reused : Expr → Bool)

mutual

/-- No reused expression and no pattern inside a comprehension has the name of an iterator. -/
def Expr.Safe : List Text → Expr → Prop
  | names,.comprehension iterator _ _ source body =>
    source.Safe names ∧ SafeList (iterator.text::names) body
  | names,.patternPredicate parts => SafeParts names parts
  | names,.var name => reused (.var name) = true → name.text ∉ names
  | names,.group inner =>
    if reused (.group inner) then ∀ name ∈ inner.free,name ∉ names else inner.Safe names
  | names,.node kind children =>
    if reused (.node kind children) then ∀ name ∈ freeList children,name ∉ names
    else SafeList names children

def SafeList : List Text → List Expr → Prop
  | _,[] => True
  | names,e::es => e.Safe names ∧ SafeList names es

def SafeParts : List Text → List PatternPart → Prop
  | _,[] => True
  | names,.mk member values::parts =>
    (∀ name,member.variableName = some name → name.text ∉ names) ∧ SafeList names values ∧
      SafeParts names parts

end

def Environment.reuses (env : Environment) (e : Expr) : Bool := (env.projectedAlias e).isSome

def Locals.names (locals : Locals) : List Text := locals.map Prod.fst

theorem Locals.find_eq_none {locals : Locals} {name : Text} :
    locals.find name = none ↔ name ∉ locals.names := by
  rw [Locals.find,Option.map_eq_none_iff,find?_eq_none,Locals.names,mem_map]
  constructor
  · rintro h ⟨entry,hentry,rfl⟩
    exact h entry hentry (decide_eq_true rfl)
  · intro h entry hentry hname
    exact h ⟨entry,hentry,of_decide_eq_true hname⟩

theorem tokens_ungroup : ∀ e : Expr,e.ungroup.tokens = e.tokens
  | .group inner => by
    rw [Expr.ungroup,Expr.tokens]
    exact tokens_ungroup inner
  | .var _ | .node _ _ | .comprehension _ _ _ _ _ | .patternPredicate _ => rfl

theorem free_ungroup : ∀ e : Expr,e.ungroup.free = e.free
  | .group inner => by
    rw [Expr.ungroup,Expr.free]
    exact free_ungroup inner
  | .var _ | .node _ _ | .comprehension _ _ _ _ _ | .patternPredicate _ => rfl

variable {as : List Expr} {b : Expr}

theorem equivalent_node {scope : List Symbol} {kind : NodeKind}
    (h : equivalent scope (.node kind as) b = true) :
    ∃ bs,b.ungroup = .node kind bs ∧ equivalentList scope as bs = true := by
  rw [equivalent] at h
  cases hb : b.ungroup with
  | node other bs =>
    rw [hb] at h
    simp only [Bool.and_eq_true,decide_eq_true_eq] at h
    exact ⟨bs,by rw [h.1],h.2⟩
  | _ =>
    rw [hb] at h
    cases h

theorem equivalent_comprehension {scope : List Symbol} {iterator : Name} {filter map : Bool}
    {a : Expr} (h : equivalent scope (.comprehension iterator filter map a as) b = true) :
    ∃ source bs,b.ungroup = .comprehension iterator filter map source bs ∧
      equivalent scope a source = true ∧ equivalentList scope as bs = true := by
  rw [equivalent] at h
  cases hb : b.ungroup with
  | comprehension iterator' filter' map' source bs =>
    rw [hb] at h
    simp only [Bool.and_eq_true,decide_eq_true_eq] at h
    obtain ⟨⟨⟨⟨rfl,rfl⟩,rfl⟩,hsource⟩,hbody⟩ := h
    exact ⟨source,bs,rfl,hsource,hbody⟩
  | _ =>
    rw [hb] at h
    cases h

theorem equivalent_pattern {scope : List Symbol} {as : List PatternPart}
    (h : equivalent scope (.patternPredicate as) b = true) :
    ∃ bs,b.ungroup = .patternPredicate bs ∧ equivalentParts scope as bs = true := by
  rw [equivalent] at h
  cases hb : b.ungroup with
  | patternPredicate bs =>
    rw [hb] at h
    exact ⟨bs,rfl,h⟩
  | _ =>
    rw [hb] at h
    cases h

mutual

theorem free_of_equivalent {scope : List Symbol} : ∀ (a b : Expr),equivalent scope a b = true →
    List.Disjoint a.tokens b.tokens → ∀ name ∈ a.free,lookupOptional scope name = none
  | .group a,b,h,htokens => free_of_equivalent a b h htokens
  | .var a,b,h,_ => by
    intro name hname
    rw [Expr.free,mem_singleton] at hname
    rw [equivalent,Bool.and_eq_true] at h
    rw [hname]
    exact Option.isNone_iff_eq_none.mp h.1
  | .node kind as,b,h,htokens => by
    obtain ⟨bs,hb,has⟩ := equivalent_node h
    rw [← tokens_ungroup b,hb] at htokens
    exact free_of_equivalentList as bs has htokens
  | .comprehension iterator filter map a as,b,h,htokens => by
    obtain ⟨source,bs,hb,_⟩ := equivalent_comprehension h
    rw [← tokens_ungroup b,hb] at htokens
    exact absurd mem_cons_self (htokens mem_cons_self)
  | .patternPredicate as,b,h,htokens => by
    obtain ⟨bs,hb,has⟩ := equivalent_pattern h
    rw [← tokens_ungroup b,hb] at htokens
    exact free_of_equivalentParts as bs has htokens

theorem free_of_equivalentList {scope : List Symbol} : ∀ (as bs : List Expr),
    equivalentList scope as bs = true → List.Disjoint (tokensList as) (tokensList bs) →
    ∀ name ∈ freeList as,lookupOptional scope name = none
  | [],_,_,_ => fun _ hname => absurd hname not_mem_nil
  | a::as,[],h,_ => by cases h
  | a::as,b::bs,h,htokens => by
    rw [equivalentList,Bool.and_eq_true] at h
    rw [tokensList,tokensList,disjoint_append_left,disjoint_append_right,
      disjoint_append_right] at htokens
    intro name hname
    rcases mem_append.mp hname with hname | hname
    · exact free_of_equivalent a b h.1 htokens.1.1 name hname
    · exact free_of_equivalentList as bs h.2 htokens.2.2 name hname

theorem free_of_equivalentParts {scope : List Symbol} : ∀ (as bs : List PatternPart),
    equivalentParts scope as bs = true → List.Disjoint (tokensParts as) (tokensParts bs) →
    ∀ name ∈ freeParts as,lookupOptional scope name = none
  | [],_,_,_ => fun _ hname => absurd hname not_mem_nil
  | .mk a as::rest,[],h,_ => by cases h
  | .mk a as::rest,.mk b bs::others,h,htokens => by
    simp only [equivalentParts,Bool.and_eq_true,decide_eq_true_eq] at h
    obtain ⟨⟨rfl,has⟩,hrest⟩ := h
    simp only [tokensParts,disjoint_append_left,disjoint_append_right] at htokens
    intro name hname
    rw [freeParts,mem_append,mem_append] at hname
    rcases hname with (hname | hname) | hname
    · cases hvariable : a.variableName with
      | none =>
        rw [hvariable] at hname
        cases hname
      | some variableName =>
        have hself:=htokens.1.1.1.1.1
        rw [hvariable] at hself
        exact absurd mem_cons_self (hself.1 mem_cons_self)
    · exact free_of_equivalentList as bs has (by tauto) name hname
    · exact free_of_equivalentParts rest others hrest (by tauto) name hname

end

def Environment.Apart (env : Environment) (tokens : List ℕ) : Prop :=
  ∀ candidate ∈ env.aliases,List.Disjoint tokens candidate.1.tokens

variable {env : Environment} {e : Expr} {next slot : ℕ} {scope : List Symbol} {locals : Locals}
  {bound : Bound} {bounds : List Bound}

theorem Environment.Apart.subset {tokens part : List ℕ} (h : env.Apart tokens)
    (hpart : part ⊆ tokens) : env.Apart part :=
  fun candidate hcandidate => disjoint_of_subset_left hpart (h candidate hcandidate)

variable {symbol : Symbol} {result : Bound × ℕ} {member : Member} {parts : List PatternPart}

theorem free_of_projectedAlias
    (h : env.projectedAlias e = some symbol) (htokens : env.Apart e.tokens) :
    ∀ name ∈ e.free,lookupOptional env.scope name = none := by
  unfold Environment.projectedAlias at h
  obtain ⟨candidate,hfound,_⟩ := Option.map_eq_some_iff.mp h
  have hequivalent:=find?_some hfound
  exact free_of_equivalent e candidate.1 hequivalent
    (htokens candidate (mem_of_find?_eq_some hfound))

theorem orAlias_eq_ok {otherwise : Except BindError (Bound × ℕ)}
    (h : env.orAlias e next otherwise = .ok result) :
    (∃ symbol,env.projectedAlias e = some symbol ∧ result.1 = .column e.ungroup symbol.slot) ∨
      env.projectedAlias e = none ∧ otherwise = .ok result := by
  unfold Environment.orAlias at h
  cases halias : env.projectedAlias e with
  | none =>
    rw [halias] at h
    exact .inr ⟨rfl,h⟩
  | some symbol =>
    rw [halias] at h
    obtain rfl := Except.ok.inj h
    exact .inl ⟨symbol,rfl,rfl⟩

theorem outer_of_lexical {replaced : Expr} (e : Expr)
    (h : Lexical scope locals e (.column replaced slot)) :
    ∀ name ∈ replaced.free,locals.find name = none ∧ lookupOptional scope name = none := by
  cases h with
  | group binds => exact outer_of_lexical _ binds
  | column outer =>
    rw [free_ungroup]
    exact outer
termination_by e

theorem lexical_column (h : env.projectedAlias e = some symbol) (htokens : env.Apart e.tokens) :
    Lexical env.scope locals e (.column e.ungroup slot) ↔ ∀ name ∈ e.free,name ∉ locals.names := by
  constructor
  · intro hlexical name hname
    rw [← free_ungroup] at hname
    exact Locals.find_eq_none.mp (outer_of_lexical e hlexical name hname).1
  · intro hnames
    apply Lexical.column
    intro name hname
    exact ⟨Locals.find_eq_none.mpr (hnames name hname),free_of_projectedAlias h htokens name hname⟩

theorem memberSlot_names {result : ℕ × ℕ} (h : memberSlot scope member next = .ok result) :
    (∀ name,member.variableName = some name → locals.find name.text = none ∧
      (lookupOptional scope name.text).map Symbol.slot = some result.1) ↔
      ∀ name,member.variableName = some name → name.text ∉ locals.names := by
  unfold memberSlot at h
  cases hvariable : member.variableName with
  | none => exact iff_of_true nofun nofun
  | some found =>
    rw [hvariable] at h
    obtain ⟨symbol,hsymbol,rfl⟩ := bind_pure_eq_ok h
    have hfound : lookupOptional scope found.text = some symbol := by
      unfold lookup at hsymbol
      cases hlookup : lookupOptional scope found.text with
      | none =>
        rw [hlookup] at hsymbol
        cases hsymbol
      | some other =>
        rw [hlookup] at hsymbol
        rw [Except.ok.inj hsymbol]
    constructor
    · intro hnames name hname
      exact Locals.find_eq_none.mp (hnames name hname).1
    · intro hnames name hname
      refine ⟨Locals.find_eq_none.mpr (hnames name hname),?_⟩
      obtain rfl := Option.some.inj hname
      rw [hfound]
      rfl

theorem lexical_variable {name : Name} (h : env.bindVariable locals name.text next = .ok result) :
    Lexical env.scope locals (.var name) result.1 := by
  unfold Environment.bindVariable at h
  cases hlocal : locals.find name.text with
  | some slot =>
    rw [hlocal] at h
    obtain rfl := Except.ok.inj h
    exact .iterator hlocal
  | none =>
    rw [hlocal] at h
    obtain ⟨symbol,hsymbol,rfl⟩ := bind_pure_eq_ok h
    apply Lexical.declared hlocal
    unfold lookup at hsymbol
    cases hlookup : lookupOptional env.scope name.text with
    | none =>
      rw [hlookup] at hsymbol
      cases hsymbol
    | some other =>
      rw [hlookup] at hsymbol
      rw [Except.ok.inj hsymbol]

theorem lexical_group {inner : Expr} :
    Lexical scope locals (.group inner) bound ↔ Lexical scope locals inner bound := by
  constructor
  · intro h
    cases h with
    | column outer => exact .column outer
    | group binds => exact binds
  · exact .group

theorem lexical_node {kind : NodeKind} {children : List Expr} :
    Lexical scope locals (.node kind children) (.node kind bounds) ↔
      LexicalList scope locals children bounds := by
  constructor
  · intro h
    cases h with
    | node binds => exact binds
  · exact .node

theorem lexical_comprehension {iterator : Name}
    {filter map : Bool} {source : Expr} {body : List Expr} :
    Lexical scope locals (.comprehension iterator filter map source body)
        (.comprehension slot filter map bound bounds) ↔
      Lexical scope locals source bound ∧
        LexicalList scope ((iterator.text,slot)::locals) body bounds := by
  constructor
  · intro h
    cases h with
    | comprehension sourceBinds bodyBinds => exact ⟨sourceBinds,bodyBinds⟩
  · intro ⟨hsource,hbody⟩
    exact .comprehension hsource hbody

theorem lexical_pattern {bounds : List BoundPart} {witness : ℕ} :
    Lexical scope locals (.patternPredicate parts) (.patternPredicate bounds witness) ↔
      LexicalParts scope locals parts bounds := by
  constructor
  · intro h
    cases h with
    | patternPredicate binds => exact binds
  · exact .patternPredicate

theorem lexicalList_cons {es : List Expr} : LexicalList scope locals (e::es) (bound::bounds) ↔
      Lexical scope locals e bound ∧ LexicalList scope locals es bounds := by
  constructor
  · intro h
    cases h with
    | cons head tail => exact ⟨head,tail⟩
  · intro ⟨hhead,htail⟩
    exact .cons hhead htail

theorem lexicalParts_cons {values : List Expr} {others : List BoundPart} :
    LexicalParts scope locals (.mk member values::parts) (.mk slot bounds::others) ↔
      (∀ name,member.variableName = some name → locals.find name.text = none ∧
        (lookupOptional scope name.text).map Symbol.slot = some slot) ∧
        LexicalList scope locals values bounds ∧ LexicalParts scope locals parts others := by
  constructor
  · intro h
    cases h with
    | cons names valuesBind tail => exact ⟨names,valuesBind,tail⟩
  · intro ⟨hnames,hvalues,htail⟩
    exact .cons hnames hvalues htail

mutual

theorem bindExpression_lexical {env : Environment} : ∀ (e : Expr) (depth : ℕ) (locals : Locals)
    (next : ℕ) (result : Bound × ℕ),bindExpression env depth locals e next = .ok result →
    env.Apart e.tokens → (Lexical env.scope locals e result.1 ↔ e.Safe env.reuses locals.names)
  | .comprehension iterator filter map source body,depth,locals,next,result,h,htokens => by
    rw [bindExpression] at h
    obtain ⟨_,_,h⟩ := bind_eq_ok h
    obtain ⟨sourceResult,hsource,h⟩ := bind_eq_ok h
    obtain ⟨slotResult,_,h⟩ := bind_eq_ok h
    obtain ⟨bodyResult,hbody,rfl⟩ := bind_pure_eq_ok h
    have hsourceTokens : env.Apart source.tokens := htokens.subset fun token htoken =>
      mem_cons_of_mem _ (mem_append_left _ htoken)
    have hbodyTokens : env.Apart (tokensList body) := htokens.subset fun token htoken =>
      mem_cons_of_mem _ (mem_append_right _ htoken)
    rw [lexical_comprehension,bindExpression_lexical source _ _ _ _ hsource hsourceTokens,
      bindList_lexical body _ _ _ _ hbody hbodyTokens,Expr.Safe]
    rfl
  | .patternPredicate parts,depth,locals,next,result,h,htokens => by
    rw [bindExpression] at h
    obtain ⟨_,_,h⟩ := bind_eq_ok h
    obtain ⟨_,_,h⟩ := bind_eq_ok h
    obtain ⟨partsResult,hparts,h⟩ := bind_eq_ok h
    obtain ⟨witnessResult,_,rfl⟩ := bind_pure_eq_ok h
    rw [lexical_pattern,bindParts_lexical parts _ _ _ hparts htokens,Expr.Safe]
  | .var name,depth,locals,next,result,h,htokens => by
    rw [bindExpression] at h
    obtain ⟨_,_,h⟩ := bind_eq_ok h
    rw [Expr.Safe]
    rcases orAlias_eq_ok h with ⟨symbol,halias,hresult⟩ | ⟨halias,h⟩
    · rw [hresult,lexical_column halias htokens,Environment.reuses,halias]
      simp [Expr.free]
    · rw [Environment.reuses,halias]
      exact iff_of_true (lexical_variable h) nofun
  | .group inner,depth,locals,next,result,h,htokens => by
    rw [bindExpression] at h
    obtain ⟨_,_,h⟩ := bind_eq_ok h
    rw [Expr.Safe]
    rcases orAlias_eq_ok h with ⟨symbol,halias,hresult⟩ | ⟨halias,h⟩
    · rw [hresult,lexical_column halias htokens,Environment.reuses,halias,Option.isSome_some,
        if_pos rfl,Expr.free]
    · rw [Environment.reuses,halias,Option.isSome_none,if_neg Bool.false_ne_true,lexical_group]
      exact bindExpression_lexical inner _ _ _ _ h htokens
  | .node kind children,depth,locals,next,result,h,htokens => by
    rw [bindExpression] at h
    obtain ⟨_,_,h⟩ := bind_eq_ok h
    rw [Expr.Safe]
    rcases orAlias_eq_ok h with ⟨symbol,halias,hresult⟩ | ⟨halias,h⟩
    · rw [hresult,lexical_column halias htokens,Environment.reuses,halias,Option.isSome_some,
        if_pos rfl,Expr.free]
    · rw [Environment.reuses,halias,Option.isSome_none,if_neg Bool.false_ne_true]
      obtain ⟨childrenResult,hchildren,rfl⟩ := bind_pure_eq_ok h
      rw [lexical_node]
      exact bindList_lexical children _ _ _ _ hchildren htokens

theorem bindList_lexical {env : Environment} : ∀ (es : List Expr) (depth : ℕ) (locals : Locals)
    (next : ℕ) (result : List Bound × ℕ),bindList env depth locals es next = .ok result →
    env.Apart (tokensList es) →
    (LexicalList env.scope locals es result.1 ↔ SafeList env.reuses locals.names es)
  | [],_,_,_,result,h,_ => by
    obtain rfl := Except.ok.inj h
    rw [SafeList]
    exact iff_of_true .nil trivial
  | e::es,depth,locals,next,result,h,htokens => by
    rw [bindList] at h
    obtain ⟨headResult,hhead,h⟩ := bind_eq_ok h
    obtain ⟨tailResult,htail,rfl⟩ := bind_pure_eq_ok h
    have hheadTokens : env.Apart e.tokens := htokens.subset (subset_append_left _ _)
    have htailTokens : env.Apart (tokensList es) := htokens.subset (subset_append_right _ _)
    rw [lexicalList_cons,bindExpression_lexical e _ _ _ _ hhead hheadTokens,
      bindList_lexical es _ _ _ _ htail htailTokens,SafeList]

theorem bindParts_lexical {env : Environment} : ∀ (parts : List PatternPart) (locals : Locals)
    (next : ℕ) (result : List BoundPart × ℕ),bindParts env locals parts next = .ok result →
    env.Apart (tokensParts parts) →
    (LexicalParts env.scope locals parts result.1 ↔ SafeParts env.reuses locals.names parts)
  | [],_,_,result,h,_ => by
    obtain rfl := Except.ok.inj h
    rw [SafeParts]
    exact iff_of_true .nil trivial
  | .mk member values::parts,locals,next,result,h,htokens => by
    rw [bindParts] at h
    obtain ⟨slotResult,hslot,h⟩ := bind_eq_ok h
    obtain ⟨valuesResult,hvalues,h⟩ := bind_eq_ok h
    obtain ⟨partsResult,hparts,rfl⟩ := bind_pure_eq_ok h
    have hvaluesTokens : env.Apart (tokensList values) := htokens.subset fun token htoken =>
      mem_append_left _ (mem_append_right _ htoken)
    have hpartsTokens : env.Apart (tokensParts parts) :=
      htokens.subset (subset_append_right _ _)
    rw [lexicalParts_cons,memberSlot_names hslot,
      bindList_lexical values _ _ _ _ hvalues hvaluesTokens,
      bindParts_lexical parts _ _ _ hparts hpartsTokens,SafeParts]

end

end Zeppelin.Cypher
