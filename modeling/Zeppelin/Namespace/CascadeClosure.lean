import Zeppelin.Namespace.Cascade

namespace Zeppelin.Namespace
open Ingest Meta Reachability Machine List

variable {α β : Type} {p : Participant} {rest : List Participant} {declaring : Bool} {name : String}
  {references : List Ownership}

theorem insertEntry_fresh [LinearOrder α] {key : α} {value : β} {es : List (α × β)}
    (h : key ∉ es.map Prod.fst) {e : α × β} :
    e ∈ (insertEntry key value es).2 ↔ e = (key,value) ∨ e ∈ es := by
  induction es with
  | nil => simp [insertEntry]
  | cons head es ih =>
    obtain ⟨k,v⟩ := head
    rw [map_cons,mem_cons,not_or] at h
    rw [insertEntry]
    split_ifs with hlt heq
    · exact mem_cons
    · exact absurd heq h.1
    · rw [mem_cons,ih h.2,mem_cons]
      exact or_left_comm

structure Sources.Of (sources : Sources) (participants : List Participant) : Prop where
  entries : ∀ entry,entry ∈ sources.entries ↔ ∃ p ∈ participants,entry = (p.name,p.source)
  named : ∀ p ∈ participants,nameValid p.name ∧ p.readWrite
  nodup : (participants.map Participant.name).Nodup

theorem Sources.Of.names {sources : Sources} {participants : List Participant}
    (h : sources.Of participants) (name : String) :
    name ∈ sources.entries.map Prod.fst ↔ name ∈ participants.map Participant.name := by
  constructor
  · intro hname
    obtain ⟨entry,hentry,rfl⟩ := mem_map.mp hname
    obtain ⟨p,hp,rfl⟩ := (h.entries entry).mp hentry
    exact mem_map_of_mem hp
  · intro hname
    obtain ⟨p,hp,rfl⟩ := mem_map.mp hname
    exact mem_map_of_mem ((h.entries _).mpr ⟨p,hp,rfl⟩)

theorem Sources.Of.snoc {root : String} {sources next : Sources} {participants : List Participant}
    (h : sources.Of participants)
    (hadd : addParticipant root sources p = .ok next) : next.Of (participants++[p]) := by
  unfold addParticipant at hadd
  split_ifs at hadd with hbad
  obtain rfl := Except.ok.inj hadd
  rw [not_or,not_or,not_not,not_not,SortedMap.insert_isSome] at hbad
  obtain ⟨hname,hfresh,hwrite⟩ := hbad
  constructor
  · intro entry
    rw [SortedMap.insert,insertEntry_fresh hfresh,h.entries]
    simp [or_comm]
  · intro other hother
    rcases mem_append.mp hother with hother | hother
    · exact h.named other hother
    · rw [mem_singleton.mp hother]
      exact ⟨hname,hwrite⟩
  · rw [map_append]
    apply List.Nodup.append h.nodup (nodup_singleton _)
    apply disjoint_singleton.mpr
    rw [← h.names]
    exact hfresh

theorem addParticipants_of {root : String} :
    ∀ {before : List Participant} {sources final : Sources},sources.Of before →
      rest.foldlM (addParticipant root) sources = .ok final → final.Of (before++rest) := by
  induction rest with
  | nil =>
    intro before sources final h hfold
    obtain rfl := Except.ok.inj hfold
    rwa [append_nil]
  | cons p rest ih =>
    intro before sources final h hfold
    rw [foldlM_cons] at hfold
    obtain ⟨next,hnext,hfold⟩ := bind_eq_ok hfold
    rw [append_cons]
    exact ih (h.snoc hnext) hfold

theorem of_nil : Sources.Of .empty [] := ⟨fun _ => iff_of_false nofun nofun,nofun,nodup_nil⟩

theorem addParticipants_spec {root : String} {participants : List Participant} {sources : Sources}
    (h : participants.foldlM (addParticipant root) .empty = .ok sources) :
    sources.Of participants := addParticipants_of of_nil h

theorem addParticipants_ok (root : String) :
    ∀ {before : List Participant} {sources : Sources},sources.Of before →
      (∀ p ∈ rest,nameValid p.name ∧ p.readWrite) → ((before++rest).map Participant.name).Nodup →
      ∃ final,rest.foldlM (addParticipant root) sources = .ok final := by
  induction rest with
  | nil =>
    intro before sources _ _ _
    exact ⟨sources,rfl⟩
  | cons p rest ih =>
    intro before sources h hnamed hnodup
    have hfresh : p.name ∉ sources.entries.map Prod.fst := by
      rw [h.names]
      intro hmem
      rw [map_append,nodup_append] at hnodup
      exact hnodup.2.2 _ hmem _ mem_cons_self rfl
    have hadd : addParticipant root sources p =
        .ok (sources.insert p.name p.source).2 := by
      obtain ⟨hname,hwrite⟩ := hnamed p mem_cons_self
      rw [addParticipant,if_neg]
      rw [not_or,not_or,not_not,not_not,SortedMap.insert_isSome]
      exact ⟨hname,hfresh,hwrite⟩
    rw [append_cons] at hnodup
    obtain ⟨final,hfinal⟩ := ih (h.snoc hadd)
      (fun other hother => hnamed other (mem_cons_of_mem _ hother)) hnodup
    exact ⟨final,by rw [foldlM_cons,hadd,ok_bind,hfinal]⟩

structure Admitted (declaring : Bool) (participants : List Participant) : Prop where
  count : 1 ≤ participants.length ∧ participants.length ≤ 128
  plain : ∀ p ∈ participants,p.writes = false ∧ (declaring = true → p.deletes = [])
  named : ∀ p ∈ participants,nameValid p.name ∧ p.readWrite
  nodup : (participants.map Participant.name).Nodup

theorem openParticipants_ok {root : String} {participants : List Participant}
    {sources : Sources} (h : openParticipants root declaring participants = .ok sources) :
    sources.Of participants ∧ Admitted declaring participants := by
  obtain ⟨_,hcount,h⟩ := bind_eq_ok h
  obtain ⟨_,hplain,h⟩ := bind_eq_ok h
  have hsources:=addParticipants_spec h
  refine ⟨hsources,?_,?_,hsources.named,hsources.nodup⟩
  · rw [failIf_eq_ok] at hcount
    omega
  · intro p hp
    rw [failIf_eq_ok] at hplain
    have hgood : ¬ (p.writes = true ∨ declaring = true ∧ p.deletes ≠ []) :=
      fun hbad => hplain ⟨p,hp,hbad⟩
    rw [not_or,Bool.not_eq_true,not_and,not_not] at hgood
    exact hgood

theorem Admitted.open {participants : List Participant}
    (h : Admitted declaring participants) (root : String) :
    ∃ sources,openParticipants root declaring participants = .ok sources := by
  obtain ⟨sources,hsources⟩ := addParticipants_ok root of_nil h.named h.nodup
  refine ⟨sources,?_⟩
  rw [openParticipants,failIf_neg,ok_bind,failIf_neg,ok_bind,hsources]
  · rintro ⟨p,hp,hbad⟩
    obtain ⟨hwrites,hdeletes⟩ := h.plain p hp
    rw [hwrites] at hbad
    rcases hbad with hbad | ⟨hdeclaring,hbad⟩
    · cases hbad
    · exact hbad (hdeletes hdeclaring)
  · have hcount:=h.count
    omega

theorem Sources.find_eq_none {sources : Sources} :
    sources.find name = none ↔ name ∉ sources.entries.map Prod.fst := by
  rw [Sources.find,Option.map_eq_none_iff,find?_eq_none,mem_map]
  constructor
  · rintro h ⟨entry,hentry,rfl⟩
    exact h entry hentry (decide_eq_true rfl)
  · intro h entry hentry hname
    exact h ⟨entry,hentry,of_decide_eq_true hname⟩

theorem Sources.Of.find {sources : Sources} {participants : List Participant}
    (h : sources.Of participants) (hp : p ∈ participants) :
    sources.find p.name = some p.source := by
  have hmem : (p.name,p.source) ∈ sources.entries := (h.entries _).mpr ⟨p,hp,rfl⟩
  cases hfind : sources.find p.name with
  | none => exact absurd (mem_map_of_mem hmem) (Sources.find_eq_none.mp hfind)
  | some source =>
    obtain ⟨entry,hentry,rfl⟩ := Option.map_eq_some_iff.mp hfind
    have hname:=find?_some hentry
    obtain ⟨other,hother,rfl⟩ := (h.entries entry).mp (mem_of_find?_eq_some hentry)
    have hsame : other = p :=
      inj_on_of_nodup_map h.nodup hother hp (of_decide_eq_true hname)
    rw [hsame]

def Owned (rules : Rules) (participants : List Participant) (reference : Ownership) : Prop :=
  ∃ rule ∈ rules.list,rule.parent = reference.1.1 ∧ rule.child = reference.2.1 ∧
    ∃ p ∈ participants,p.name = reference.2.1 ∧ ∃ document ∈ p.source.pages.flatten,
      document.docId = reference.2.2 ∧
        (rule.column,.id128 reference.1.2) ∈ document.attributes.getD []

inductive Deleted (rules : Rules) (participants : List Participant) : String × DocId → Prop where
  | explicit {p : Participant} (hp : p ∈ participants) {id : DocId} (hid : id ∈ p.deletes) :
      Deleted rules participants (p.name,id)
  | owned {parent child : String × DocId} (deleted : Deleted rules participants parent)
      (owned : Owned rules participants (parent,child)) : Deleted rules participants child

structure Expandable (rules : Rules) (participants : List Participant) : Prop where
  children : ∀ rule ∈ rules.list,rule.parent ∈ participants.map Participant.name →
    rule.child ∈ participants.map Participant.name
  columns : ∀ rule ∈ rules.list,rule.parent ∈ participants.map Participant.name →
    ∀ p ∈ participants,p.name = rule.child →
      (p.source.schema.column rule.column).map ColumnDefinition.columnType = some .id128
  references : ∀ rule ∈ rules.list,rule.parent ∈ participants.map Participant.name →
    ∀ p ∈ participants,p.name = rule.child → ∀ document ∈ p.source.pages.flatten,
      ∀ value,(rule.column,value) ∈ document.attributes.getD [] → ∃ id,value = .id128 id

theorem cascadePass_eq {root : String} {names : List String}
    (h : ∀ reference ∈ references,reference.2.1 ∈ names) :
    ∀ ids,cascadePass root names references ids = .ok (spread references ids) := by
  induction references with
  | nil => exact fun _ => rfl
  | cons reference references ih =>
    intro ids
    have hrest:=ih fun other hother => h other (mem_cons_of_mem _ hother)
    rw [cascadePass,foldlM_cons,spread_cons]
    unfold cascadePass at hrest
    split_ifs with hsource hname
    · rw [ok_bind,hrest]
    · exact absurd (h reference mem_cons_self) hname
    · rw [ok_bind,hrest]

theorem cascadeLoop_eq {root : String} {names : List String}
    (h : ∀ reference ∈ references,reference.2.1 ∈ names) {fuel : ℕ} :
    ∀ {ids final : Finset (String × DocId)},loop (saturateStep references) fuel ids = some final →
      cascadeLoop root names references fuel ids = .ok final := by
  induction fuel with
  | zero => nofun
  | succ fuel ih =>
    intro ids final hloop
    rw [cascadeLoop,cascadePass_eq h,ok_bind]
    rw [loop,saturateStep] at hloop
    split_ifs at hloop ⊢ with hcard
    · obtain rfl := Option.some.inj hloop
      rfl
    · exact ih hloop

structure Collects {ε α β : Type} (f : α → Except ε (List β)) (good : α → Prop)
    (member : α → β → Prop) : Prop where
  ok : ∀ x,good x → ∃ ys,f x = .ok ys
  good : ∀ x ys,f x = .ok ys → good x
  member : ∀ x ys,f x = .ok ys → ∀ y,y ∈ ys ↔ member x y

theorem Collects.each {ε : Type} {f : α → Except ε (List β)} {good : α → Prop}
    {member : α → β → Prop} (h : Collects f good member) : Collects (fun xs : List α => do
      let lists ← xs.mapM f
      return lists.flatten) (fun xs => ∀ x ∈ xs,good x) fun xs y => ∃ x ∈ xs,member x y where
  ok := by
    intro xs hgood
    obtain ⟨lists,hlists⟩ := mapM_ok fun x hx => h.ok x (hgood x hx)
    exact ⟨lists.flatten,by rw [hlists]; rfl⟩
  good := by
    intro xs ys hok x hx
    obtain ⟨lists,hlists,_⟩ := bind_eq_ok hok
    obtain ⟨y,_,hy⟩ := (mapM_mem hlists).1 x hx
    exact h.good x y hy
  member := by
    intro xs ys hok y
    obtain ⟨lists,hlists,rfl⟩ := bind_pure_eq_ok hok
    obtain ⟨hforward,hback⟩ := mapM_mem hlists
    rw [mem_flatten]
    constructor
    · rintro ⟨list,hlist,hy⟩
      obtain ⟨x,hx,hf⟩ := hback list hlist
      exact ⟨x,hx,(h.member x list hf y).mp hy⟩
    · rintro ⟨x,hx,hy⟩
      obtain ⟨list,hlist,hf⟩ := hforward x hx
      exact ⟨list,hlist,(h.member x list hf y).mpr hy⟩

theorem ruleReferences_collects (root name : String) (docId : DocId) (value : PredicateValue)
    (rules : List CascadeRule) :
    (∃ references,ruleReferences root name docId value rules = .ok references) ↔
      ∀ rule ∈ rules,∃ id,value = .id128 id := by
  constructor
  · intro ⟨references,h⟩ rule hrule
    obtain ⟨reference,_,hreference⟩ := (mapM_mem h).1 rule hrule
    cases value with
    | id128 id => exact ⟨id,rfl⟩
    | _ => cases hreference
  · intro h
    apply mapM_ok
    intro rule hrule
    obtain ⟨id,rfl⟩ := h rule hrule
    exact ⟨_,rfl⟩

theorem mem_ruleReferences {root : String} {docId : DocId} {value : PredicateValue}
    {rules : List CascadeRule}
    (h : ruleReferences root name docId value rules = .ok references) (reference : Ownership) :
    reference ∈ references ↔
      ∃ rule ∈ rules,∃ id,value = .id128 id ∧ reference = ((rule.parent,id),(name,docId)) := by
  obtain ⟨hforward,hback⟩ := mapM_mem h
  constructor
  · intro hreference
    obtain ⟨rule,hrule,hvalue⟩ := hback reference hreference
    cases value with
    | id128 id => exact ⟨rule,hrule,id,rfl,(Except.ok.inj hvalue).symm⟩
    | _ => cases hvalue
  · rintro ⟨rule,hrule,id,rfl,rfl⟩
    obtain ⟨other,hother,hvalue⟩ := hforward rule hrule
    rwa [Except.ok.inj hvalue]

theorem documentReferences_collects (root name : String) (rules : List CascadeRule) :
    Collects (documentReferences root name rules)
      (fun document => ∀ value ∈ document.attributes.getD [],∀ rule ∈ rules,
        rule.column = value.1 → ∃ id,value.2 = .id128 id)
      (fun document reference => ∃ rule ∈ rules,∃ id,
        (rule.column,PredicateValue.id128 id) ∈ document.attributes.getD [] ∧
          reference = ((rule.parent,id),(name,document.docId))) := by
  have heach : ∀ docId,Collects
      (fun value : ColumnId × PredicateValue => ruleReferences root name docId value.2
        (rules.filter fun rule => rule.column = value.1))
      (fun value => ∀ rule ∈ rules,rule.column = value.1 → ∃ id,value.2 = .id128 id)
      fun value reference => ∃ rule ∈ rules,rule.column = value.1 ∧
        ∃ id,value.2 = .id128 id ∧ reference = ((rule.parent,id),(name,docId)) := by
    intro docId
    constructor
    · intro value hgood
      apply (ruleReferences_collects root name docId value.2 _).mpr
      intro rule hrule
      obtain ⟨hrule,hcolumn⟩ := mem_filter.mp hrule
      exact hgood rule hrule (of_decide_eq_true hcolumn)
    · intro value references hok rule hrule hcolumn
      exact (ruleReferences_collects root name docId value.2 _).mp ⟨references,hok⟩ rule
        (mem_filter.mpr ⟨hrule,decide_eq_true hcolumn⟩)
    · intro value references hok reference
      rw [mem_ruleReferences hok]
      constructor
      · rintro ⟨rule,hrule,hid⟩
        obtain ⟨hrule,hcolumn⟩ := mem_filter.mp hrule
        exact ⟨rule,hrule,of_decide_eq_true hcolumn,hid⟩
      · rintro ⟨rule,hrule,hcolumn,hid⟩
        exact ⟨rule,mem_filter.mpr ⟨hrule,decide_eq_true hcolumn⟩,hid⟩
  constructor
  · intro document
    exact (heach document.docId).each.ok _
  · intro document
    exact (heach document.docId).each.good _
  · intro document references hok reference
    rw [(heach document.docId).each.member _ references hok]
    constructor
    · rintro ⟨⟨column,value⟩,hvalue,rule,hrule,rfl,id,rfl,rfl⟩
      exact ⟨rule,hrule,id,hvalue,rfl⟩
    · rintro ⟨rule,hrule,id,hvalue,rfl⟩
      exact ⟨_,hvalue,rule,hrule,rfl,id,rfl,rfl⟩

theorem sourceReferences_collects (root : String) (active : List CascadeRule) :
    Collects (sourceReferences root active)
      (fun source => ∀ rule ∈ active,rule.child = source.1 →
        ∀ document ∈ source.2.pages.flatten,∀ value,
          (rule.column,value) ∈ document.attributes.getD [] → ∃ id,value = .id128 id)
      (fun source reference => ∃ rule ∈ active,rule.child = source.1 ∧
        ∃ document ∈ source.2.pages.flatten,∃ id,
          (rule.column,PredicateValue.id128 id) ∈ document.attributes.getD [] ∧
            reference = ((rule.parent,id),(source.1,document.docId))) := by
  have heach:=fun name => (documentReferences_collects root name
    (active.filter fun rule => rule.child = name)).each
  constructor
  · intro source hgood
    unfold sourceReferences
    split_ifs
    · exact ⟨[],rfl⟩
    · apply (heach source.1).ok
      intro document hdocument value hvalue rule hrule hcolumn
      obtain ⟨hrule,hchild⟩ := mem_filter.mp hrule
      apply hgood rule hrule (of_decide_eq_true hchild) document hdocument
      rw [hcolumn]
      exact hvalue
  · intro source references hok rule hrule hchild document hdocument value hvalue
    have hmem : rule ∈ active.filter fun rule => rule.child = source.1 :=
      mem_filter.mpr ⟨hrule,decide_eq_true hchild⟩
    unfold sourceReferences at hok
    split_ifs at hok with hempty
    · rw [hempty] at hmem
      exact absurd hmem not_mem_nil
    · exact (heach source.1).good _ references hok document hdocument _ hvalue rule hmem rfl
  · intro source references hok reference
    unfold sourceReferences at hok
    split_ifs at hok with hempty
    · obtain rfl := Except.ok.inj hok
      apply iff_of_false not_mem_nil
      rintro ⟨rule,hrule,hchild,_⟩
      have hmem : rule ∈ active.filter fun rule => rule.child = source.1 :=
        mem_filter.mpr ⟨hrule,decide_eq_true hchild⟩
      rw [hempty] at hmem
      exact not_mem_nil hmem
    · rw [(heach source.1).member _ references hok]
      constructor
      · rintro ⟨document,hdocument,rule,hrule,hid⟩
        obtain ⟨hrule,hchild⟩ := mem_filter.mp hrule
        exact ⟨rule,hrule,of_decide_eq_true hchild,document,hdocument,hid⟩
      · rintro ⟨rule,hrule,hchild,document,hdocument,hid⟩
        exact ⟨document,hdocument,rule,
          mem_filter.mpr ⟨hrule,decide_eq_true hchild⟩,hid⟩

theorem validateRule_eq_ok {root : String} {sources : Sources} {rule : CascadeRule} :
    validateRule root sources rule = .ok () ↔ sources.find rule.parent ≠ none ∧
      ∃ child,sources.find rule.child = some child ∧
        (child.schema.column rule.column).map ColumnDefinition.columnType = some .id128 := by
  unfold validateRule
  constructor
  · intro h
    obtain ⟨_,hparent,h⟩ := bind_eq_ok h
    rw [failIf_eq_ok] at hparent
    split at h
    · cases h
    · rename_i child hchild
      rw [failIf_eq_ok,not_not] at h
      exact ⟨hparent,child,hchild,h⟩
  · rintro ⟨hparent,child,hchild,hcolumn⟩
    rw [failIf_neg _ hparent,ok_bind,hchild]
    exact failIf_neg _ (not_not.mpr hcolumn)

section Expand

variable {root : String} {rules : Rules} {sources : Sources} {participants : List Participant}
  {reached : Finset String}

theorem reached_eq (hsources : sources.Of participants)
    (hreached : ∀ name,name ∈ reached ↔
      ∃ b ∈ (sources.entries.map Prod.fst).toFinset,Reaches rules.edges b name) :
    (∀ name ∈ reached,sources.find name ≠ none) ↔
      ∀ rule ∈ rules.list,rule.parent ∈ participants.map Participant.name →
        rule.child ∈ participants.map Participant.name := by
  constructor
  · intro h rule hrule hparent
    rw [← hsources.names] at hparent ⊢
    by_contra hchild
    apply h rule.child ((hreached _).mpr ⟨rule.parent,mem_toFinset.mpr hparent,?_⟩)
    · exact Sources.find_eq_none.mpr hchild
    · exact .single (mem_map_of_mem hrule)
  · intro h name hname hnone
    obtain ⟨b,hb,hreaches⟩ := (hreached name).mp hname
    apply Sources.find_eq_none.mp hnone
    apply mem_toFinset.mp
    refine mem_of_closed rules.edges _ ?_ hb hreaches
    intro edge hedge hsource
    obtain ⟨rule,hrule,rfl⟩ := mem_map.mp hedge
    rw [mem_toFinset,hsources.names] at hsource ⊢
    exact h rule hrule hsource

theorem mem_reached (hsources : sources.Of participants)
    (hreached : ∀ name,name ∈ reached ↔
      ∃ b ∈ (sources.entries.map Prod.fst).toFinset,Reaches rules.edges b name)
    (hgiven : ∀ name ∈ reached,sources.find name ≠ none) (name : String) :
    name ∈ reached ↔ name ∈ participants.map Participant.name := by
  rw [← hsources.names]
  constructor
  · intro hname
    by_contra hmissing
    exact hgiven name hname (Sources.find_eq_none.mpr hmissing)
  · intro hname
    exact (hreached name).mpr ⟨name,mem_toFinset.mpr hname,.refl⟩

theorem columns_iff (root : String) (hsources : sources.Of participants)
    (hmem : ∀ name,name ∈ reached ↔ name ∈ participants.map Participant.name)
    (hchildren : ∀ rule ∈ rules.list,rule.parent ∈ participants.map Participant.name →
      rule.child ∈ participants.map Participant.name) :
    (rules.list.filter fun rule => rule.parent ∈ reached).forM (validateRule root sources) =
        .ok () ↔
      ∀ rule ∈ rules.list,rule.parent ∈ participants.map Participant.name →
        ∀ p ∈ participants,p.name = rule.child →
          (p.source.schema.column rule.column).map ColumnDefinition.columnType =
            some .id128 := by
  rw [forM_eq_ok]
  constructor
  · intro h rule hrule hparent p hp hname
    obtain ⟨_,child,hchild,hcolumn⟩ := validateRule_eq_ok.mp (h rule
      (mem_filter.mpr ⟨hrule,decide_eq_true ((hmem _).mpr hparent)⟩))
    rw [← hname,hsources.find hp] at hchild
    rwa [Option.some.inj hchild]
  · intro h rule hrule
    obtain ⟨hrule,hparent⟩ := mem_filter.mp hrule
    have hparent:=(hmem _).mp (of_decide_eq_true hparent)
    obtain ⟨p,hp,hname⟩ := mem_map.mp (hchildren rule hrule hparent)
    apply validateRule_eq_ok.mpr
    refine ⟨?_,p.source,?_,h rule hrule hparent p hp hname⟩
    · intro hnone
      exact Sources.find_eq_none.mp hnone ((hsources.names _).mpr hparent)
    · rw [← hname]
      exact hsources.find hp

theorem mem_references {lists : List (List Ownership)} (hsources : sources.Of participants)
    (hmem : ∀ name,name ∈ reached ↔ name ∈ participants.map Participant.name)
    (h : sources.entries.mapM (sourceReferences root
      (rules.list.filter fun rule => rule.parent ∈ reached)) = .ok lists)
    (reference : Ownership) : reference ∈ lists.flatten ↔ Owned rules participants reference ∧
      reference.1.1 ∈ participants.map Participant.name := by
  have hcollect : (do
      let lists ← sources.entries.mapM (sourceReferences root
        (rules.list.filter fun rule => rule.parent ∈ reached))
      return lists.flatten) = Except.ok lists.flatten := by
    rw [h]
    rfl
  rw [(sourceReferences_collects root _).each.member _ _ hcollect]
  constructor
  · rintro ⟨entry,hentry,rule,hrule,hchild,document,hdocument,id,hid,rfl⟩
    obtain ⟨p,hp,rfl⟩ := (hsources.entries entry).mp hentry
    obtain ⟨hrule,hparent⟩ := mem_filter.mp hrule
    exact ⟨⟨rule,hrule,rfl,hchild,p,hp,rfl,document,hdocument,rfl,hid⟩,
      (hmem _).mp (of_decide_eq_true hparent)⟩
  · obtain ⟨⟨parent,id⟩,⟨child,docId⟩⟩ := reference
    rintro ⟨⟨rule,hrule,rfl,rfl,p,hp,hname,document,hdocument,rfl,hid⟩,hparent⟩
    refine ⟨(p.name,p.source),(hsources.entries _).mpr ⟨p,hp,rfl⟩,rule,
      mem_filter.mpr ⟨hrule,decide_eq_true ((hmem _).mpr hparent)⟩,hname.symm,document,
      hdocument,id,hid,?_⟩
    dsimp only
    rw [hname]

theorem references_iff (root : String) (hsources : sources.Of participants)
    (hmem : ∀ name,name ∈ reached ↔ name ∈ participants.map Participant.name) :
    (∃ lists,sources.entries.mapM (sourceReferences root
        (rules.list.filter fun rule => rule.parent ∈ reached)) = .ok lists) ↔
      ∀ rule ∈ rules.list,rule.parent ∈ participants.map Participant.name →
        ∀ p ∈ participants,p.name = rule.child → ∀ document ∈ p.source.pages.flatten,
          ∀ value,(rule.column,value) ∈ document.attributes.getD [] →
            ∃ id,value = .id128 id := by
  have hcollects:=sourceReferences_collects root
    (rules.list.filter fun rule => rule.parent ∈ reached)
  constructor
  · rintro ⟨lists,hlists⟩ rule hrule hparent p hp hname
    obtain ⟨list,_,hlist⟩ := (mapM_mem hlists).1 (p.name,p.source)
      ((hsources.entries _).mpr ⟨p,hp,rfl⟩)
    exact hcollects.good _ list hlist rule
      (mem_filter.mpr ⟨hrule,decide_eq_true ((hmem _).mpr hparent)⟩) hname.symm
  · intro h
    apply mapM_ok
    intro entry hentry
    obtain ⟨p,hp,rfl⟩ := (hsources.entries entry).mp hentry
    apply hcollects.ok
    intro rule hrule hchild
    obtain ⟨hrule,hparent⟩ := mem_filter.mp hrule
    exact h rule hrule ((hmem _).mp (of_decide_eq_true hparent)) p hp hchild.symm

theorem Deleted.name_mem {document : String × DocId} (h : Deleted rules participants document) :
    document.1 ∈ participants.map Participant.name := by
  cases h with
  | explicit hp _ => exact mem_map_of_mem hp
  | owned _ howned =>
    obtain ⟨_,_,_,_,p,hp,hname,_⟩ := howned
    rw [← hname]
    exact mem_map_of_mem hp

def explicitDeletes (participants : List Participant) : List (String × DocId) :=
  (participants.map Participant.mutation).flatMap NamespaceMutation.explicit

theorem mem_explicitDeletes {document : String × DocId} :
    document ∈ explicitDeletes participants ↔
      ∃ p ∈ participants,∃ id ∈ p.deletes,document = (p.name,id) := by
  rw [explicitDeletes,flatMap_map,mem_flatMap]
  constructor
  · rintro ⟨p,hp,hdocument⟩
    obtain ⟨id,hid,rfl⟩ := mem_map.mp hdocument
    exact ⟨p,hp,id,hid,rfl⟩
  · rintro ⟨p,hp,id,hid,rfl⟩
    exact ⟨p,hp,mem_map_of_mem hid⟩

theorem deleted_iff {references : List Ownership}
    (h : ∀ reference,reference ∈ references ↔ Owned rules participants reference ∧
      reference.1.1 ∈ participants.map Participant.name) (document : String × DocId) :
    (∃ b ∈ (explicitDeletes participants).toFinset,Reaches references b document) ↔
      Deleted rules participants document := by
  constructor
  · rintro ⟨b,hb,hreaches⟩
    induction hreaches with
    | refl =>
      obtain ⟨p,hp,id,hid,rfl⟩ := mem_explicitDeletes.mp (mem_toFinset.mp hb)
      exact .explicit hp hid
    | tail _ hstep ih => exact .owned ih ((h _).mp hstep).1
  · intro hdeleted
    induction hdeleted with
    | explicit hp hid =>
      exact ⟨_,mem_toFinset.mpr (mem_explicitDeletes.mpr ⟨_,hp,_,hid,rfl⟩),.refl⟩
    | owned hparent howned ih =>
      obtain ⟨b,hb,hreaches⟩ := ih
      exact ⟨b,hb,hreaches.tail ((h _).mpr ⟨howned,hparent.name_mem⟩)⟩

end Expand

theorem mem_delete {ids : Finset (String × DocId)} {mutation : NamespaceMutation} {id : DocId} :
    id ∈ (mutation.delete ids).deletes ↔ (mutation.name,id) ∈ ids := by
  have hround : ∀ other : DocId,BitVec.ofNat 128 other.toNat = other := fun other => by
    rw [BitVec.ofNat_toNat,BitVec.setWidth_eq]
  rw [NamespaceMutation.delete,mem_map]
  constructor
  · rintro ⟨n,hn,rfl⟩
    rw [Finset.mem_sort,deletesOf,Finset.mem_image] at hn
    obtain ⟨entry,hentry,rfl⟩ := hn
    obtain ⟨hentry,hname⟩ := Finset.mem_filter.mp hentry
    rw [hround,← hname]
    exact hentry
  · intro hentry
    refine ⟨id.toNat,?_,hround id⟩
    rw [Finset.mem_sort,deletesOf,Finset.mem_image]
    exact ⟨(mutation.name,id),Finset.mem_filter.mpr ⟨hentry,rfl⟩,rfl⟩

structure Cascaded (rules : Rules) (participants : List Participant)
    (result : List NamespaceMutation) : Prop where
  names : result.map NamespaceMutation.name = participants.map Participant.name
  deletes : ∀ mutation ∈ result,∀ id,
    id ∈ mutation.deletes ↔ Deleted rules participants (mutation.name,id)

theorem expand_ok (root : String) {rules : Rules} {sources : Sources}
    {participants : List Participant} (hsources : sources.Of participants)
    (h : Expandable rules participants) : ∃ result,
    expand root rules sources (participants.map Participant.mutation) = .ok result ∧
      Cascaded rules participants result := by
  obtain ⟨reached,hsaturate,hreached⟩ :=
    saturate_spec rules.edges (sources.entries.map Prod.fst).toFinset
  have hgiven:=(reached_eq hsources hreached).mpr h.children
  have hmem:=mem_reached hsources hreached hgiven
  obtain ⟨lists,hlists⟩ := (references_iff root hsources hmem).mpr h.references
  have hreferences:=mem_references hsources hmem hlists
  obtain ⟨final,hfinal,hdeleted⟩ := saturate_spec lists.flatten
    (explicitDeletes participants).toFinset
  have hnames : ∀ reference ∈ lists.flatten,reference.2.1 ∈
      (participants.map Participant.mutation).map NamespaceMutation.name := by
    intro reference hreference
    obtain ⟨⟨_,_,_,_,p,hp,hname,_⟩,_⟩ := (hreferences reference).mp hreference
    rw [map_map,← hname]
    exact mem_map_of_mem hp
  refine ⟨(participants.map Participant.mutation).map (NamespaceMutation.delete final),?_,?_⟩
  · have hpresent : (reached.sort (· ≤ ·)).forM (fun name => failIf (sources.find name = none)
        (CascadeError.invalid root ("missing cascade participant "++name))) = .ok () := by
      rw [forM_eq_ok]
      intro name hname
      exact failIf_neg _ (hgiven name (Finset.mem_sort _ |>.mp hname))
    have hcolumns:=(columns_iff root hsources hmem h.children).mpr h.columns
    have hloop : cascadeLoop root
        ((participants.map Participant.mutation).map NamespaceMutation.name) lists.flatten
        (lists.flatten.length+1) (explicitDeletes participants).toFinset = .ok final :=
      cascadeLoop_eq hnames hfinal
    unfold explicitDeletes at hloop
    simp only [expand,hsaturate,Option.getD_some,hpresent,hcolumns,hlists,ok_bind,hloop]
    rfl
  · constructor
    · rw [map_map,map_map]
      rfl
    · intro mutation hmutation id
      obtain ⟨before,_,rfl⟩ := mem_map.mp hmutation
      rw [mem_delete,hdeleted,deleted_iff hreferences]
      rfl

theorem expandable_of_ok {root : String} {rules : Rules} {sources : Sources}
    {participants : List Participant} {result : List NamespaceMutation}
    (hsources : sources.Of participants)
    (h : expand root rules sources (participants.map Participant.mutation) = .ok result) :
    Expandable rules participants := by
  obtain ⟨reached,hsaturate,hreached⟩ :=
    saturate_spec rules.edges (sources.entries.map Prod.fst).toFinset
  unfold expand at h
  simp only [hsaturate,Option.getD_some] at h
  obtain ⟨_,hpresent,h⟩ := bind_eq_ok h
  obtain ⟨_,hcolumns,h⟩ := bind_eq_ok h
  obtain ⟨lists,hlists,_⟩ := bind_eq_ok h
  have hgiven : ∀ name ∈ reached,sources.find name ≠ none := by
    intro name hname
    exact failIf_eq_ok.mp (forM_eq_ok.mp hpresent name ((Finset.mem_sort _).mpr hname))
  have hmem:=mem_reached hsources hreached hgiven
  have hchildren:=(reached_eq hsources hreached).mp hgiven
  exact ⟨hchildren,(columns_iff _ hsources hmem hchildren).mp hcolumns,
    (references_iff _ hsources hmem).mp ⟨lists,hlists⟩⟩

end Zeppelin.Namespace
