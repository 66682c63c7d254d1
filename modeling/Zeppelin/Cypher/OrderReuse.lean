import Zeppelin.Cypher.StatementSpec

namespace Zeppelin.Cypher
open List

/-- What the operators mean. The names of a pattern may stand for values of the row. -/
structure Meaning (V : Type) where
  node : NodeKind → List V → V
  comprehension : Bool → Bool → V → (V → List V) → V
  pattern : List (Member × Option V × List V) → V

section Denotation

variable {V : Type} (meaning : Meaning V)

mutual

def Expr.denote : (Text → V) → Expr → V
  | values,.var name => values name.text
  | values,.group inner => inner.denote values
  | values,.node kind children => meaning.node kind (denoteList values children)
  | values,.comprehension iterator filter map source body =>
    meaning.comprehension filter map (source.denote values) fun element =>
      denoteList (Function.update values iterator.text element) body
  | values,.patternPredicate parts => meaning.pattern (denoteParts values parts)

def denoteList : (Text → V) → List Expr → List V
  | _,[] => []
  | values,e::es => e.denote values::denoteList values es

def denoteParts : (Text → V) → List PatternPart → List (Member × Option V × List V)
  | _,[] => []
  | values,.mk member properties::parts =>
    (member,member.variableName.map fun name => values name.text,denoteList values properties)::
      denoteParts values parts

end

theorem denote_ungroup (values : Text → V) :
    ∀ e : Expr,e.ungroup.denote meaning values = e.denote meaning values
  | .group inner => by
    rw [Expr.ungroup,Expr.denote]
    exact denote_ungroup values inner
  | .var _ | .node _ _ | .comprehension _ _ _ _ _ | .patternPredicate _ => rfl

mutual

theorem denote_congr : ∀ (e : Expr) {values others : Text → V},
    (∀ name ∈ e.free,values name = others name) → e.denote meaning values = e.denote meaning others
  | .var name,values,others,h => by
    rw [Expr.denote,Expr.denote]
    exact h name.text mem_cons_self
  | .group inner,values,others,h => by
    rw [Expr.denote,Expr.denote]
    exact denote_congr inner h
  | .node kind children,values,others,h => by
    rw [Expr.denote,Expr.denote,denoteList_congr children h]
  | .comprehension iterator filter map source body,values,others,h => by
    rw [Expr.free,forall_mem_append] at h
    rw [Expr.denote,Expr.denote,denote_congr source h.1]
    congr 1
    funext element
    apply denoteList_congr body
    intro name hname
    by_cases hiterator : name = iterator.text
    · rw [hiterator,Function.update_self,Function.update_self]
    · rw [Function.update_of_ne hiterator,Function.update_of_ne hiterator]
      exact h.2 name (mem_filter.mpr ⟨hname,decide_eq_true hiterator⟩)
  | .patternPredicate parts,values,others,h => by
    rw [Expr.denote,Expr.denote,denoteParts_congr parts h]

theorem denoteList_congr : ∀ (es : List Expr) {values others : Text → V},
    (∀ name ∈ freeList es,values name = others name) →
    denoteList meaning values es = denoteList meaning others es
  | [],_,_,_ => rfl
  | e::es,values,others,h => by
    rw [freeList,forall_mem_append] at h
    rw [denoteList,denoteList,denote_congr e h.1,denoteList_congr es h.2]

theorem denoteParts_congr : ∀ (parts : List PatternPart) {values others : Text → V},
    (∀ name ∈ freeParts parts,values name = others name) →
    denoteParts meaning values parts = denoteParts meaning others parts
  | [],_,_,_ => rfl
  | .mk member properties::parts,values,others,h => by
    rw [freeParts,forall_mem_append,forall_mem_append] at h
    have hname : (member.variableName.map fun name => values name.text) =
        member.variableName.map fun name => others name.text := by
      cases hvariable : member.variableName with
      | none => rfl
      | some name =>
        rw [Option.map_some,Option.map_some,h.1.1 name.text (by simp [hvariable])]
    rw [denoteParts,denoteParts,hname,denoteList_congr properties h.1.2,
      denoteParts_congr parts h.2]

end

mutual

theorem denote_of_equivalent {scope : List Symbol} : ∀ (a b : Expr) {values : Text → V},
    equivalent scope a b = true → a.denote meaning values = b.denote meaning values
  | .group a,b,values,h => by
    rw [equivalent] at h
    rw [Expr.denote]
    exact denote_of_equivalent a b h
  | .var a,b,values,h => by
    rw [equivalent,Bool.and_eq_true] at h
    rw [← denote_ungroup meaning values b]
    cases hb : b.ungroup with
    | var name =>
      rw [hb] at h
      rw [Expr.denote,Expr.denote,of_decide_eq_true h.2]
    | group _ | node _ _ | comprehension _ _ _ _ _ | patternPredicate _ =>
      rw [hb] at h
      exact absurd h.2 Bool.false_ne_true
  | .node kind as,b,values,h => by
    obtain ⟨bs,hb,hchildren⟩ := equivalent_node h
    rw [← denote_ungroup meaning values b,hb,Expr.denote,Expr.denote,
      denoteList_of_equivalent as bs hchildren]
  | .comprehension iterator filter map a as,b,values,h => by
    obtain ⟨b',bs,hb,hsource,hbody⟩ := equivalent_comprehension h
    rw [← denote_ungroup meaning values b,hb,Expr.denote,Expr.denote,
      denote_of_equivalent a b' hsource]
    congr 1
    funext element
    exact denoteList_of_equivalent as bs hbody
  | .patternPredicate as,b,values,h => by
    obtain ⟨bs,hb,hparts⟩ := equivalent_pattern h
    rw [← denote_ungroup meaning values b,hb,Expr.denote,Expr.denote,
      denoteParts_of_equivalent as bs hparts]

theorem denoteList_of_equivalent {scope : List Symbol} :
    ∀ (as bs : List Expr) {values : Text → V},equivalentList scope as bs = true →
      denoteList meaning values as = denoteList meaning values bs
  | [],[],_,_ => rfl
  | [],_::_,_,h => by cases h
  | _::_,[],_,h => by cases h
  | a::as,b::bs,values,h => by
    rw [equivalentList,Bool.and_eq_true] at h
    rw [denoteList,denoteList,denote_of_equivalent a b h.1,denoteList_of_equivalent as bs h.2]

theorem denoteParts_of_equivalent {scope : List Symbol} :
    ∀ (as bs : List PatternPart) {values : Text → V},equivalentParts scope as bs = true →
      denoteParts meaning values as = denoteParts meaning values bs
  | [],[],_,_ => rfl
  | [],.mk _ _::_,_,h => by cases h
  | .mk _ _::_,[],_,h => by cases h
  | .mk a as::rest,.mk b bs::others,values,h => by
    rw [equivalentParts,Bool.and_eq_true,Bool.and_eq_true] at h
    rw [denoteParts,denoteParts,of_decide_eq_true h.1.1,denoteList_of_equivalent as bs h.1.2,
      denoteParts_of_equivalent rest others h.2]

end

end Denotation

structure Reused where
  iterators : List Text
  replaced : Expr
  slot : ℕ

mutual

def columnsOf (iterators : List Text) : Expr → Bound → List Reused
  | _,.column replaced slot => [⟨iterators,replaced,slot⟩]
  | .group inner,bound => columnsOf iterators inner bound
  | .node _ children,.node _ bounds => columnsOfList iterators children bounds
  | .comprehension iterator _ _ source body,.comprehension _ _ _ bound bounds =>
    columnsOf iterators source bound++columnsOfList (iterator.text::iterators) body bounds
  | .patternPredicate parts,.patternPredicate bounds _ => columnsOfParts iterators parts bounds
  | _,_ => []

def columnsOfList (iterators : List Text) : List Expr → List Bound → List Reused
  | e::es,bound::bounds =>
    columnsOf iterators e bound++columnsOfList iterators es bounds
  | _,_ => []

def columnsOfParts (iterators : List Text) : List PatternPart → List BoundPart → List Reused
  | .mk _ values::parts,.mk _ bounds::others =>
    columnsOfList iterators values bounds++columnsOfParts iterators parts others
  | _,_ => []

end

def scopedValue {V : Type} (env : Environment) (iterators : List Text) (elements : Text → V)
    (row : ℕ → V) (input : Text → V) (name : Text) : V :=
  if name ∈ iterators then elements name
  else
    match lookupOptional env.scope name with
    | some symbol => row symbol.slot
    | none => input name

/-- In every row the column has the value that the expression has where it stands. The columns of
the row hold the projected expressions. -/
def Reused.Sound (env : Environment) (reused : Reused) : Prop :=
  ∀ (V : Type) (meaning : Meaning V) (input : Text → V) (row : ℕ → V),
    (∀ candidate ∈ env.aliases,row candidate.2.slot = candidate.1.denote meaning input) →
    ∀ elements : Text → V,row reused.slot = reused.replaced.denote meaning
      (scopedValue env reused.iterators elements row input)

def Site.Sound : Site → Prop
  | .expression env e bound => ∀ reused ∈ columnsOf [] e bound,reused.Sound env
  | .name _ _ _ => True

def anyTrue : Meaning Bool where
  node := fun _ values => values.any id
  comprehension := fun _ _ source body => source || (body false).any id
  pattern := fun parts => parts.any fun part => part.2.1.getD false || part.2.2.any id

mutual

theorem denote_anyTrue : ∀ (e : Expr) (values : Text → Bool),
    e.denote anyTrue values = e.free.any values
  | .var name,values => by
    rw [Expr.denote,Expr.free,any_cons,any_nil,Bool.or_false]
  | .group inner,values => by
    rw [Expr.denote,Expr.free]
    exact denote_anyTrue inner values
  | .node _ children,values => by
    rw [Expr.denote,Expr.free]
    exact denoteList_anyTrue children values
  | .comprehension iterator _ _ source body,values => by
    have hbody:=denoteList_anyTrue body (Function.update values iterator.text false)
    rw [Expr.denote,Expr.free,any_append,anyTrue]
    dsimp only
    rw [← anyTrue,denote_anyTrue source values,hbody,any_filter]
    congr 2
    funext name
    by_cases hname : name = iterator.text
    · rw [hname,Function.update_self]
      simp
    · rw [Function.update_of_ne hname]
      simp [hname]
  | .patternPredicate parts,values => by
    rw [Expr.denote,Expr.free]
    exact denoteParts_anyTrue parts values

theorem denoteList_anyTrue : ∀ (es : List Expr) (values : Text → Bool),
    (denoteList anyTrue values es).any id = (freeList es).any values
  | [],_ => rfl
  | e::es,values => by
    rw [denoteList,any_cons,freeList,any_append,id,denote_anyTrue e values,
      denoteList_anyTrue es values]

theorem denoteParts_anyTrue : ∀ (parts : List PatternPart) (values : Text → Bool),
    anyTrue.pattern (denoteParts anyTrue values parts) = (freeParts parts).any values
  | [],_ => rfl
  | .mk member properties::parts,values => by
    have hparts:=denoteParts_anyTrue parts values
    rw [anyTrue] at hparts
    rw [denoteParts,freeParts,any_append,any_append,
      ← denoteList_anyTrue properties values,← denoteParts_anyTrue parts values]
    cases hvariable : member.variableName with
    | none => simp [anyTrue]
    | some name => simp [anyTrue]

end

variable {env : Environment} {e : Expr} {symbol : Symbol}

theorem projectedAlias_eq_some (h : env.projectedAlias e = some symbol) :
    ∃ root,(root,symbol) ∈ env.aliases ∧ equivalent env.scope e root = true := by
  unfold Environment.projectedAlias at h
  obtain ⟨candidate,hfound,rfl⟩ := Option.map_eq_some_iff.mp h
  have hequivalent:=find?_some hfound
  exact ⟨candidate.1,mem_of_find?_eq_some hfound,hequivalent⟩

theorem sound_iff {iterators : List Text}
    (h : env.projectedAlias e = some symbol) (htokens : env.Apart e.tokens) :
    Reused.Sound env ⟨iterators,e.ungroup,symbol.slot⟩ ↔ ∀ name ∈ e.free,name ∉ iterators := by
  have houter:=free_of_projectedAlias h htokens
  constructor
  · -- with the iterators true and the row false, the two differ where an iterator has a name
    intro hsound name hname hiterator
    have hvalue:=hsound Bool anyTrue (fun _ => false) (fun _ => false)
      (fun candidate _ => by rw [denote_anyTrue]; simp) fun _ => true
    dsimp only at hvalue
    rw [denote_ungroup,denote_anyTrue] at hvalue
    have htrue : e.free.any (scopedValue env iterators (fun _ => true) (fun _ => false)
        fun _ => false) = true :=
      any_eq_true.mpr ⟨name,hname,if_pos hiterator⟩
    rw [htrue] at hvalue
    cases hvalue
  · intro hnames V meaning input row hrow elements
    obtain ⟨root,hroot,hequivalent⟩ := projectedAlias_eq_some h
    dsimp only
    rw [hrow _ hroot,denote_ungroup,← denote_of_equivalent meaning e root hequivalent]
    apply denote_congr
    intro name hname
    rw [scopedValue,if_neg (hnames name hname),houter name hname]

mutual

def reusedIn (reused : Expr → Bool) (iterators : List Text) : Expr → List (List Text × Expr)
  | .comprehension iterator _ _ source body =>
    reusedIn reused iterators source++reusedInList reused (iterator.text::iterators) body
  | .patternPredicate parts => reusedInParts reused iterators parts
  | .var name => if reused (.var name) then [(iterators,.var name)] else []
  | .group inner =>
    if reused (.group inner) then [(iterators,.group inner)] else reusedIn reused iterators inner
  | .node kind children =>
    if reused (.node kind children) then [(iterators,.node kind children)]
    else reusedInList reused iterators children

def reusedInList (reused : Expr → Bool) (iterators : List Text) :
    List Expr → List (List Text × Expr)
  | [] => []
  | e::es => reusedIn reused iterators e++reusedInList reused iterators es

def reusedInParts (reused : Expr → Bool) (iterators : List Text) :
    List PatternPart → List (List Text × Expr)
  | [] => []
  | .mk _ values::parts =>
    reusedInList reused iterators values++reusedInParts reused iterators parts

end

def Unhidden (occurrence : List Text × Expr) : Prop :=
  ∀ name ∈ occurrence.2.free,name ∉ occurrence.1

variable {iterators : List Text}

theorem columnsOf_column {replaced : Expr} {slot : ℕ} (e : Expr) :
    columnsOf iterators e (.column replaced slot) = [⟨iterators,replaced,slot⟩] := by
  cases e <;> rfl

theorem columnsOf_group {inner : Expr} (bound : Bound) :
    columnsOf iterators (.group inner) bound = columnsOf iterators inner bound := by
  cases bound with
  | column replaced slot => rw [columnsOf_column,columnsOf_column]
  | _ => rfl

theorem columnsOf_variable {env : Environment} {locals : Locals} {name : Name} {next : ℕ}
    {result : Bound × ℕ} (h : env.bindVariable locals name.text next = .ok result) :
    columnsOf iterators (.var name) result.1 = [] := by
  unfold Environment.bindVariable at h
  cases hfind : locals.find name.text with
  | some slot =>
    rw [hfind] at h
    obtain rfl := Except.ok.inj h
    rfl
  | none =>
    rw [hfind] at h
    obtain ⟨symbol,_,rfl⟩ := bind_pure_eq_ok h
    rfl

theorem forall_append_congr {α β : Type} {p : α → Prop} {q : β → Prop} {first second : List α}
    {third fourth : List β} (h : (∀ a ∈ first,p a) ↔ ∀ b ∈ third,q b)
    (h' : (∀ a ∈ second,p a) ↔ ∀ b ∈ fourth,q b) :
    (∀ a ∈ first++second,p a) ↔ ∀ b ∈ third++fourth,q b := by
  rw [forall_mem_append,forall_mem_append,h,h']

mutual

variable {env : Environment}

theorem bindExpression_sound : ∀ (e : Expr) (depth : ℕ) (locals : Locals)
    (next : ℕ) (result : Bound × ℕ),bindExpression env depth locals e next = .ok result →
    env.Apart e.tokens → ((∀ reused ∈ columnsOf locals.names e result.1,reused.Sound env) ↔
      ∀ occurrence ∈ reusedIn env.reuses locals.names e,Unhidden occurrence)
  | .comprehension iterator filter map source body,depth,locals,next,result,h,htokens => by
    rw [bindExpression] at h
    obtain ⟨_,_,h⟩ := bind_eq_ok h
    obtain ⟨sourceResult,hsource,h⟩ := bind_eq_ok h
    obtain ⟨slotResult,_,h⟩ := bind_eq_ok h
    obtain ⟨bodyResult,hbody,rfl⟩ := bind_pure_eq_ok h
    have hsourceTokens : env.Apart source.tokens := htokens.subset fun token htoken =>
      mem_cons_of_mem _ (mem_append_left _ htoken)
    have hbodyTokens : env.Apart (tokensList body) := htokens.subset fun token htoken =>
      mem_cons_of_mem _ (mem_append_right _ htoken)
    rw [reusedIn]
    exact forall_append_congr (bindExpression_sound source _ _ _ _ hsource hsourceTokens)
      (bindList_sound body _ _ _ _ hbody hbodyTokens)
  | .patternPredicate parts,depth,locals,next,result,h,htokens => by
    rw [bindExpression] at h
    obtain ⟨_,_,h⟩ := bind_eq_ok h
    obtain ⟨_,_,h⟩ := bind_eq_ok h
    obtain ⟨partsResult,hparts,h⟩ := bind_eq_ok h
    obtain ⟨witnessResult,_,rfl⟩ := bind_pure_eq_ok h
    rw [reusedIn]
    exact bindParts_sound parts _ _ _ hparts htokens
  | .var name,depth,locals,next,result,h,htokens => by
    rw [bindExpression] at h
    obtain ⟨_,_,h⟩ := bind_eq_ok h
    rw [reusedIn]
    rcases orAlias_eq_ok h with ⟨symbol,halias,hresult⟩ | ⟨halias,h⟩
    · rw [hresult,columnsOf_column,Environment.reuses,halias,Option.isSome_some,if_pos rfl,
        forall_mem_singleton,forall_mem_singleton,sound_iff halias htokens]
      rfl
    · rw [columnsOf_variable h,Environment.reuses,halias,Option.isSome_none,
        if_neg Bool.false_ne_true]
      exact iff_of_true nofun nofun
  | .group inner,depth,locals,next,result,h,htokens => by
    rw [bindExpression] at h
    obtain ⟨_,_,h⟩ := bind_eq_ok h
    rw [reusedIn]
    rcases orAlias_eq_ok h with ⟨symbol,halias,hresult⟩ | ⟨halias,h⟩
    · rw [hresult,columnsOf_column,Environment.reuses,halias,Option.isSome_some,if_pos rfl,
        forall_mem_singleton,forall_mem_singleton,sound_iff halias htokens]
      rfl
    · rw [Environment.reuses,halias,Option.isSome_none,if_neg Bool.false_ne_true,
        columnsOf_group]
      exact bindExpression_sound inner _ _ _ _ h htokens
  | .node kind children,depth,locals,next,result,h,htokens => by
    rw [bindExpression] at h
    obtain ⟨_,_,h⟩ := bind_eq_ok h
    rw [reusedIn]
    rcases orAlias_eq_ok h with ⟨symbol,halias,hresult⟩ | ⟨halias,h⟩
    · rw [hresult,columnsOf_column,Environment.reuses,halias,Option.isSome_some,if_pos rfl,
        forall_mem_singleton,forall_mem_singleton,sound_iff halias htokens]
      rfl
    · rw [Environment.reuses,halias,Option.isSome_none,if_neg Bool.false_ne_true]
      obtain ⟨childrenResult,hchildren,rfl⟩ := bind_pure_eq_ok h
      exact bindList_sound children _ _ _ _ hchildren htokens

theorem bindList_sound : ∀ (es : List Expr) (depth : ℕ) (locals : Locals)
    (next : ℕ) (result : List Bound × ℕ),bindList env depth locals es next = .ok result →
    env.Apart (tokensList es) →
    ((∀ reused ∈ columnsOfList locals.names es result.1,reused.Sound env) ↔
      ∀ occurrence ∈ reusedInList env.reuses locals.names es,Unhidden occurrence)
  | [],_,_,_,result,h,_ => by
    obtain rfl := Except.ok.inj h
    exact iff_of_true nofun nofun
  | e::es,depth,locals,next,result,h,htokens => by
    rw [bindList] at h
    obtain ⟨headResult,hhead,h⟩ := bind_eq_ok h
    obtain ⟨tailResult,htail,rfl⟩ := bind_pure_eq_ok h
    have hheadTokens : env.Apart e.tokens := htokens.subset (subset_append_left _ _)
    have htailTokens : env.Apart (tokensList es) := htokens.subset (subset_append_right _ _)
    exact forall_append_congr (bindExpression_sound e _ _ _ _ hhead hheadTokens)
      (bindList_sound es _ _ _ _ htail htailTokens)

theorem bindParts_sound : ∀ (parts : List PatternPart) (locals : Locals)
    (next : ℕ) (result : List BoundPart × ℕ),bindParts env locals parts next = .ok result →
    env.Apart (tokensParts parts) →
    ((∀ reused ∈ columnsOfParts locals.names parts result.1,reused.Sound env) ↔
      ∀ occurrence ∈ reusedInParts env.reuses locals.names parts,Unhidden occurrence)
  | [],_,_,result,h,_ => by
    obtain rfl := Except.ok.inj h
    exact iff_of_true nofun nofun
  | .mk member values::parts,locals,next,result,h,htokens => by
    rw [bindParts] at h
    obtain ⟨slotResult,hslot,h⟩ := bind_eq_ok h
    obtain ⟨valuesResult,hvalues,h⟩ := bind_eq_ok h
    obtain ⟨partsResult,hparts,rfl⟩ := bind_pure_eq_ok h
    have hvaluesTokens : env.Apart (tokensList values) := htokens.subset fun token htoken =>
      mem_append_left _ (mem_append_right _ htoken)
    have hpartsTokens : env.Apart (tokensParts parts) :=
      htokens.subset (subset_append_right _ _)
    exact forall_append_congr (bindList_sound values _ _ _ _ hvalues hvaluesTokens)
      (bindParts_sound parts _ _ _ hparts hpartsTokens)

end

mutual

theorem reusedIn_none : ∀ (e : Expr) (iterators : List Text),
    reusedIn (fun _ => false) iterators e = []
  | .comprehension iterator _ _ source body,iterators => by
    rw [reusedIn,reusedIn_none source,reusedInList_none body]
    rfl
  | .patternPredicate parts,iterators => by
    rw [reusedIn]
    exact reusedInParts_none parts iterators
  | .var _,_ => rfl
  | .group inner,iterators => by
    rw [reusedIn,if_neg Bool.false_ne_true]
    exact reusedIn_none inner iterators
  | .node _ children,iterators => by
    rw [reusedIn,if_neg Bool.false_ne_true]
    exact reusedInList_none children iterators

theorem reusedInList_none : ∀ (es : List Expr) (iterators : List Text),
    reusedInList (fun _ => false) iterators es = []
  | [],_ => rfl
  | e::es,iterators => by
    rw [reusedInList,reusedIn_none e,reusedInList_none es]
    rfl

theorem reusedInParts_none : ∀ (parts : List PatternPart) (iterators : List Text),
    reusedInParts (fun _ => false) iterators parts = []
  | [],_ => rfl
  | .mk _ values::parts,iterators => by
    rw [reusedInParts,reusedInList_none values,reusedInParts_none parts]
    rfl

end

variable {limits : Limits} {scope : List Symbol} {es : List Expr} {next : ℕ} {result : Progress}

theorem bindRoots_sound {aliases : List (Expr × Symbol)} :
    ∀ {next : ℕ} {result : Progress},bindEach (bindRoot limits aliases) es scope next = .ok result →
      (∀ e ∈ es,Environment.Apart ⟨limits.depth,scope,aliases⟩ e.tokens) →
      ((∀ site ∈ result.1,site.Sound) ↔ ∀ e ∈ es,∀ occurrence ∈
        reusedIn (Environment.reuses ⟨limits.depth,scope,aliases⟩) [] e,Unhidden occurrence) := by
  induction es with
  | nil =>
    intro next result h _
    obtain rfl := Except.ok.inj h
    exact iff_of_true nofun nofun
  | cons e es ih =>
    intro next result h hapart
    obtain ⟨head,hhead,h⟩ := bind_eq_ok h
    obtain ⟨rest,hrest,rfl⟩ := bind_pure_eq_ok h
    obtain ⟨bound,hbound,rfl⟩ := bind_pure_eq_ok hhead
    have hsound:=bindExpression_sound e 1 [] next bound hbound (hapart e mem_cons_self)
    have htail:=ih hrest fun other hother => hapart other (mem_cons_of_mem _ hother)
    dsimp only
    rw [forall_mem_append,htail,forall_mem_singleton,forall_mem_cons]
    exact and_congr_left' hsound

theorem bindPlain_sound (h : bindEach (bindRoot limits []) es scope next = .ok result) :
    ∀ site ∈ result.1,site.Sound := by
  rw [bindRoots_sound h fun e _ candidate hcandidate => absurd hcandidate not_mem_nil,
    reuses_nil]
  intro e _ occurrence hoccurrence
  rw [reusedIn_none] at hoccurrence
  exact absurd hoccurrence not_mem_nil

theorem bindItems_sound {items : List ProjectionItem} :
    ∀ {columns : Columns} {next : ℕ} {result : List Site × Columns × ℕ},
      bindItems limits scope items columns next = .ok result → ∀ site ∈ result.1,site.Sound := by
  induction items with
  | nil =>
    intro columns next result h
    obtain rfl := Except.ok.inj h
    nofun
  | cons item items ih =>
    intro columns next result h
    obtain ⟨⟨sites,middle,middleNext⟩,hitem,h⟩ := bind_eq_ok h
    obtain ⟨⟨more,later,laterNext⟩,hrest,rfl⟩ := bind_pure_eq_ok h
    rw [forall_mem_append]
    refine ⟨?_,ih hrest⟩
    cases item with
    | star =>
      obtain ⟨all,hall,hitem⟩ := bind_eq_ok hitem
      obtain ⟨rfl,_⟩ := Prod.mk.inj (Except.ok.inj hitem)
      nofun
    | item root aliasName source =>
      obtain ⟨⟨rootSites,after,rootNext⟩,hsites,hitem⟩ := bind_eq_ok hitem
      obtain ⟨column,hcolumn,hitem⟩ := bind_eq_ok hitem
      obtain ⟨rfl,_⟩ := Prod.mk.inj (Except.ok.inj hitem)
      have hroot : bindEach (bindRoot limits []) [root] scope next =
          .ok (rootSites++[],after,rootNext) := by
        rw [bindEach,hsites]
        rfl
      have hsound:=bindPlain_sound hroot
      rwa [append_nil] at hsound

def Projection.reusedOrder (projection : Projection) (seen : List Text) :
    List (List Text × Expr) :=
  projection.order.flatMap (reusedIn (projection.reuses seen) [])

theorem bindProjection_sites {projection : Projection}
    (h : projection.bind limits scope next = .ok result) : (∀ site ∈ result.1,site.Sound) ↔
      ∀ occurrence ∈ projection.reusedOrder (names scope),Unhidden occurrence := by
  obtain ⟨⟨sites,columns,itemsNext⟩,hitems,h⟩ := bind_eq_ok h
  obtain ⟨⟨order,orderScope,orderNext⟩,horder,h⟩ := bind_eq_ok h
  obtain ⟨⟨predicate,after,last⟩,hpredicate,rfl⟩ := bind_pure_eq_ok h
  have hadds:=bindItems_adds hitems
  have hsound:=bindRoots_sound horder fun e he => apart_order hadds he
  dsimp only at hsound ⊢
  rw [reuses_orderScope hadds] at hsound
  rw [forall_mem_append,forall_mem_append,hsound,Projection.reusedOrder,
    forall_mem_flatMap]
  constructor
  · intro h
    exact h.1.2
  · intro h
    exact ⟨⟨bindItems_sound hitems,h⟩,bindPlain_sound hpredicate⟩

theorem bindProjection_sound (limits : Limits) (projection : Projection) (scope : List Symbol)
    (next : ℕ) (result : Progress) (h : projection.bind limits scope next = .ok result) :
    (∀ site ∈ result.1,site.Sound) ↔
      ∀ occurrence ∈ projection.reusedOrder (names scope),Unhidden occurrence :=
  bindProjection_sites h

/-- `RETURN DISTINCT x AS y ORDER BY [z IN [1] | x]`, or the same with another iterator. -/
def distinctOrdered (iterator : Text) : Projection where
  distinct := true
  items := [.item (.var ⟨0,['x']⟩) (some ['y']) []]
  order := [.comprehension ⟨2,iterator⟩ false true (.node .list [.node (.integer 1) []])
    [.var ⟨3,['x']⟩]]
  predicate := none
  apart := by simp [ProjectionItem.roots,Expr.tokens]

theorem reusedOrder_distinctOrdered (iterator : Text) :
    (distinctOrdered iterator).reusedOrder (names [⟨['x'],0⟩]) =
      [([iterator],.var ⟨3,['x']⟩)] := rfl

theorem bindProjection_sound_other : ∃ result,
    (distinctOrdered ['z']).bind ⟨64,64⟩ [⟨['x'],0⟩] 1 = .ok result ∧
      ∀ site ∈ result.1,site.Sound := by
  refine ⟨_,rfl,
    (bindProjection_sound ⟨64,64⟩ (distinctOrdered ['z']) [⟨['x'],0⟩] 1 _ rfl).mpr ?_⟩
  rw [reusedOrder_distinctOrdered,forall_mem_singleton,Unhidden]
  decide

/-- The iterator is read from the column of the input variable of its name. -/
theorem bindProjection_not_sound : ∃ result,
    (distinctOrdered ['x']).bind ⟨64,64⟩ [⟨['x'],0⟩] 1 = .ok result ∧
      ¬ ∀ site ∈ result.1,site.Sound := by
  refine ⟨_,rfl,?_⟩
  have hbind : ∀ result,(distinctOrdered ['x']).bind ⟨64,64⟩ [⟨['x'],0⟩] 1 = .ok result →
      ¬ ∀ site ∈ result.1,site.Sound := by
    intro result h
    rw [bindProjection_sites h,reusedOrder_distinctOrdered,forall_mem_singleton,Unhidden]
    decide
  exact hbind _ rfl

end Zeppelin.Cypher
