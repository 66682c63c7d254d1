import Zeppelin.Namespace.CascadeClosure

namespace Zeppelin.Namespace
open Ingest Meta Reachability Machine

section Checksum
variable (xxh3 : Bytes → U64)

structure Declarable (participants : List Participant) (rule : CascadeRule) : Prop where
  parent : rule.parent ∈ participants.map Participant.name
  child : ∃ p ∈ participants,p.name = rule.child ∧
    (p.source.schema.column rule.column).map ColumnDefinition.columnType = some .id128

theorem validateRule_iff {root : String} {sources : Sources} {participants : List Participant}
    (h : sources.Of participants) {rule : CascadeRule} :
    validateRule root sources rule = .ok () ↔ Declarable participants rule := by
  rw [validateRule_eq_ok]
  constructor
  · rintro ⟨hparent,child,hchild,hcolumn⟩
    have hpresent : rule.child ∈ sources.entries.map Prod.fst := by
      by_contra hmissing
      rw [Sources.find_eq_none.mpr hmissing] at hchild
      cases hchild
    obtain ⟨p,hp,hname⟩ := List.mem_map.mp ((h.names _).mp hpresent)
    rw [← hname,h.find hp] at hchild
    obtain rfl := Option.some.inj hchild
    refine ⟨?_,p,hp,hname,hcolumn⟩
    rw [← h.names]
    by_contra hmissing
    exact hparent (Sources.find_eq_none.mpr hmissing)
  · rintro ⟨hparent,p,hp,hname,hcolumn⟩
    refine ⟨?_,p.source,?_,hcolumn⟩
    · intro hnone
      exact Sources.find_eq_none.mp hnone ((h.names _).mpr hparent)
    · rw [← hname]
      exact h.find hp

theorem Declarable.named {sources : Sources} {participants : List Participant}
    {rule : CascadeRule} (h : Declarable participants rule) (hsources : sources.Of participants) :
    rule.Named where
  parent := by
    obtain ⟨p,hp,hname⟩ := List.mem_map.mp h.parent
    rw [← hname]
    exact (hsources.named p hp).1
  child := by
    obtain ⟨p,hp,hname,_⟩ := h.child
    rw [← hname]
    exact (hsources.named p hp).1

def Fits (rules : Rules) (rule : CascadeRule) : Prop :=
  rule ∈ rules.list ∨ (Rules.encode xxh3 (rules.insert rule ()).2).length ≤ maxRecord

section Step

variable {xxh3} {root path : String} {sources : Sources} {participants : List Participant}
  {rules : Rules} {rule : CascadeRule} {file : Option Bytes}

theorem declaration_spec (hsources : sources.Of participants)
    (hread : readRules xxh3 path file = .ok rules) :
    (∃ written,declaration xxh3 root path sources rule file = .ok written) ↔
      Declarable participants rule ∧ ¬ Reaches rules.edges rule.child rule.parent ∧
        Fits xxh3 rules rule := by
  unfold declaration
  constructor
  · rintro ⟨written,h⟩
    obtain ⟨_,hvalid,h⟩ := bind_eq_ok h
    rw [hread,ok_bind] at h
    obtain ⟨_,hcycle,h⟩ := bind_eq_ok h
    refine ⟨(validateRule_iff hsources).mp hvalid,rejectCycle_eq_ok.mp hcycle,?_⟩
    split_ifs at h with hdeclared
    · exact .inl (insert_list.mp hdeclared)
    · obtain ⟨_,hsize,_⟩ := bind_eq_ok h
      rw [failIf_eq_ok,not_lt] at hsize
      exact .inr hsize
  · rintro ⟨hdeclarable,hcycle,hfits⟩
    rw [(validateRule_iff hsources).mpr hdeclarable,ok_bind,hread,ok_bind,
      rejectCycle_eq_ok.mpr hcycle,ok_bind]
    split_ifs with hdeclared
    · exact ⟨none,rfl⟩
    · rcases hfits with hfits | hfits
      · exact absurd (insert_list.mpr hfits) hdeclared
      · rw [failIf_neg _ (not_lt.mpr hfits)]
        exact ⟨_,rfl⟩

theorem declaration_written (hsources : sources.Of participants)
    (hread : readRules xxh3 path file = .ok rules) {written : Option Bytes}
    (h : declaration xxh3 root path sources rule file = .ok written) :
    (written = none ∧ rule ∈ rules.list) ∨
      written = some (Rules.encode xxh3 (rules.insert rule ()).2) ∧
        readRules xxh3 path written = .ok (rules.insert rule ()).2 := by
  unfold declaration at h
  obtain ⟨_,hvalid,h⟩ := bind_eq_ok h
  rw [hread,ok_bind] at h
  obtain ⟨_,hcycle,h⟩ := bind_eq_ok h
  split_ifs at h with hdeclared
  · obtain rfl := Except.ok.inj h
    exact .inl ⟨rfl,insert_list.mp hdeclared⟩
  · obtain ⟨_,hsize,rfl⟩ := bind_pure_eq_ok h
    rw [failIf_eq_ok,not_lt] at hsize
    have hnamed:=((validateRule_iff hsources).mp hvalid).named hsources
    have hnext:=(readRules_valid hread).insert hnamed (rejectCycle_eq_ok.mp hcycle)
    exact .inr ⟨rfl,readRules_encode path hnext hsize⟩

theorem declareRule_reads (hsources : sources.Of participants)
    (hread : readRules xxh3 path file = .ok rules) (fault : Fault) :
    ∃ next,readRules xxh3 path (declareRule xxh3 root path sources rule fault file).2 = .ok next ∧
      ((declareRule xxh3 root path sources rule fault file).1 = .ok () →
        ∀ other,other ∈ next.list ↔ other = rule ∨ other ∈ rules.list) := by
  unfold declareRule
  cases hwritten : declaration xxh3 root path sources rule file with
  | error e => exact ⟨rules,hread,nofun⟩
  | ok written =>
    rcases declaration_written hsources hread hwritten with ⟨rfl,hmem⟩ | ⟨hbytes,hnext⟩
    · refine ⟨rules,hread,fun _ other => (or_iff_right_of_imp ?_).symm⟩
      rintro rfl
      exact hmem
    · rw [hbytes] at hnext ⊢
      cases fault with
      | none => exact ⟨_,hnext,fun _ other => mem_list_insert⟩
      | beforeRename => exact ⟨rules,hread,nofun⟩
      | afterRename => exact ⟨_,hnext,nofun⟩

end Step

def declareStep (root path : String) (file : Option Bytes) (declaration : Declaration) :
    Option (Option Bytes) :=
  some (declareCascade xxh3 root path declaration file).2

def ReadsBack (path : String) (file : Option Bytes) : Prop :=
  ∃ rules,readRules xxh3 path file = .ok rules

theorem readsBack_run {root path : String} {declarations : List Declaration} {file : Option Bytes}
    (run : Run (declareStep xxh3 root path) anyEvent none declarations file) :
    ReadsBack xxh3 path file := by
  apply run.invariant (ReadsBack xxh3 path)
  · exact ⟨.empty,rfl⟩
  · rintro file declaration next ⟨rules,hread⟩ _ hstep
    obtain rfl := Option.some.inj hstep
    unfold declareCascade
    cases hopen : openParticipants root true declaration.participants with
    | error e => exact ⟨rules,hread⟩
    | ok sources =>
      obtain ⟨next,hnext,_⟩ :=
        declareRule_reads (openParticipants_ok hopen).1 hread declaration.fault
      exact ⟨next,hnext⟩

/-- A declaration is refused unless its participants are admitted and hold what the rule names,
the rule closes no cycle and the record has room. -/
structure Accepted (rules : Rules) (participants : List Participant) (rule : CascadeRule) :
    Prop where
  admitted : Admitted true participants
  declarable : Declarable participants rule
  acyclic : Acyclic (rule.edge::rules.edges)
  fits : Fits xxh3 rules rule

theorem declareCascade_ok {root path : String} {file : Option Bytes} {rules : Rules}
    (hread : readRules xxh3 path file = .ok rules) (participants : List Participant)
    (rule : CascadeRule) :
    (declareCascade xxh3 root path ⟨participants,rule,.none⟩ file).1 = .ok () ↔
      Accepted xxh3 rules participants rule := by
  have hacyclic:=(readRules_valid hread).acyclic
  have hrule : ∀ {sources : Sources},
      (declareRule xxh3 root path sources rule .none file).1 = .ok () ↔
        ∃ written,declaration xxh3 root path sources rule file = .ok written := by
    intro sources
    unfold declareRule
    cases declaration xxh3 root path sources rule file with
    | error e => exact iff_of_false nofun nofun
    | ok written => cases written <;> exact iff_of_true rfl ⟨_,rfl⟩
  unfold declareCascade
  constructor
  · intro h
    cases hopen : openParticipants root true participants with
    | error e =>
      rw [hopen] at h
      cases h
    | ok sources =>
      rw [hopen] at h
      obtain ⟨hsources,hadmitted⟩ := openParticipants_ok hopen
      obtain ⟨hdeclarable,hcycle,hfits⟩ := (declaration_spec hsources hread).mp (hrule.mp h)
      exact ⟨hadmitted,hdeclarable,(acyclic_cons hacyclic).mpr hcycle,hfits⟩
  · intro h
    obtain ⟨sources,hopen⟩ := h.admitted.open root
    have hsources:=(openParticipants_ok hopen).1
    rw [hopen]
    exact hrule.mpr ((declaration_spec hsources hread).mpr
      ⟨h.declarable,(acyclic_cons hacyclic).mp h.acyclic,h.fits⟩)

theorem deleteCascade_ok {root path : String} {file : Option Bytes} {rules : Rules}
    (hread : readRules xxh3 path file = .ok rules) (participants : List Participant) :
    (∃ result,deleteCascade xxh3 root path file participants = .ok result) ↔
      Admitted false participants ∧ Expandable rules participants := by
  unfold deleteCascade
  constructor
  · rintro ⟨result,h⟩
    obtain ⟨sources,hopen,h⟩ := bind_eq_ok h
    rw [hread,ok_bind] at h
    obtain ⟨hsources,hadmitted⟩ := openParticipants_ok hopen
    exact ⟨hadmitted,expandable_of_ok hsources h⟩
  · rintro ⟨hadmitted,hexpandable⟩
    obtain ⟨sources,hopen⟩ := hadmitted.open root
    obtain ⟨result,hresult,_⟩ := expand_ok root (openParticipants_ok hopen).1 hexpandable
    exact ⟨result,by rw [hopen,ok_bind,hread,ok_bind,hresult]⟩

theorem deleteCascade_cascaded {root path : String} {file : Option Bytes} {rules : Rules}
    (hread : readRules xxh3 path file = .ok rules) {participants : List Participant}
    {result : List NamespaceMutation}
    (h : deleteCascade xxh3 root path file participants = .ok result) :
    Cascaded rules participants result := by
  obtain ⟨sources,hopen,h⟩ := bind_eq_ok h
  rw [hread,ok_bind] at h
  obtain ⟨hsources,_⟩ := openParticipants_ok hopen
  obtain ⟨other,hother,hcascaded⟩ := expand_ok root hsources (expandable_of_ok hsources h)
  rw [h] at hother
  rwa [Except.ok.inj hother]

theorem declareCascade_reads {root path : String} {file : Option Bytes} {rules : Rules}
    (hread : readRules xxh3 path file = .ok rules) {participants : List Participant}
    {rule : CascadeRule}
    (h : (declareCascade xxh3 root path ⟨participants,rule,.none⟩ file).1 = .ok ()) :
    ∃ next,readRules xxh3 path
        (declareCascade xxh3 root path ⟨participants,rule,.none⟩ file).2 = .ok next ∧
      ∀ other,other ∈ next.list ↔ other = rule ∨ other ∈ rules.list := by
  unfold declareCascade at h ⊢
  cases hopen : openParticipants root true participants with
  | error e =>
    rw [hopen] at h
    cases h
  | ok sources =>
    rw [hopen] at h
    obtain ⟨next,hnext,hlist⟩ := declareRule_reads (openParticipants_ok hopen).1 hread .none
    exact ⟨next,hnext,hlist h⟩

/-- After every sequence of declarations, the rules have no cycle, a declaration is refused where
it would close one or is not well formed, and a cascade deletes the least closure. -/
theorem cascade_runs (root path : String) (declarations : List Declaration) (file : Option Bytes)
    (run : Run (declareStep xxh3 root path) anyEvent none declarations file) :
    ∃ rules,readRules xxh3 path file = .ok rules ∧ Acyclic rules.edges ∧
      (∀ participants rule,
        (declareCascade xxh3 root path ⟨participants,rule,.none⟩ file).1 = .ok () ↔
          Accepted xxh3 rules participants rule) ∧
      (∀ participants rule,
        (declareCascade xxh3 root path ⟨participants,rule,.none⟩ file).1 = .ok () →
          ∃ next,readRules xxh3 path
              (declareCascade xxh3 root path ⟨participants,rule,.none⟩ file).2 = .ok next ∧
            ∀ other,other ∈ next.list ↔ other = rule ∨ other ∈ rules.list) ∧
      (∀ participants,(∃ result,deleteCascade xxh3 root path file participants = .ok result) ↔
        Admitted false participants ∧ Expandable rules participants) ∧
      ∀ participants result,deleteCascade xxh3 root path file participants = .ok result →
        Cascaded rules participants result := by
  obtain ⟨rules,hread⟩ := readsBack_run xxh3 run
  exact ⟨rules,hread,(readRules_valid hread).acyclic,declareCascade_ok xxh3 hread,
    fun _ _ => declareCascade_reads xxh3 hread,deleteCascade_ok xxh3 hread,fun _ _ => deleteCascade_cascaded xxh3 hread⟩

end Checksum

def exampleRule : CascadeRule := ⟨"notes","words",1⟩

def exampleParticipant (name : String) : Participant where
  name := name
  source := ⟨⟨[⟨1,"parent",.id128,true⟩]⟩,[]⟩
  deletes := []
  writes := false
  readWrite := true

theorem cascade_runs_declared : ∃ rules,readRules (fun _ => 0) "" (declareCascade (fun _ => 0) "" ""
    ⟨[exampleParticipant "notes",exampleParticipant "words"],exampleRule,.none⟩ none).2 =
      .ok rules ∧ Acyclic rules.edges := by
  obtain ⟨rules,hread,hacyclic,_⟩ := cascade_runs (fun _ => 0) "" ""
    [⟨[exampleParticipant "notes",exampleParticipant "words"],exampleRule,.none⟩] _
    (.snoc (.refl none) trivial rfl)
  exact ⟨rules,hread,hacyclic⟩

/-- A rule whose child is not given is refused, although it closes no cycle. -/
theorem declareCascade_refused :
    (declareCascade (fun _ => 0) "" "" ⟨[exampleParticipant "notes"],exampleRule,.none⟩ none).1 ≠
      .ok () ∧ Acyclic (exampleRule.edge::Rules.edges .empty) := by
  constructor
  · decide
  · apply (acyclic_cons acyclic_nil).mpr
    intro hreaches
    cases hreaches.cases_head with
    | inl h => exact absurd h (by decide)
    | inr h =>
      obtain ⟨_,hstep,_⟩ := h
      exact List.not_mem_nil hstep

end Zeppelin.Namespace
