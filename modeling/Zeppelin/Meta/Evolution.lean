import Mathlib.Data.List.Pairwise
import Zeppelin.Meta.Columns

/-! meta/mod.rs -/

namespace Zeppelin.Meta
open Ingest List

inductive SchemaError where
  | reservedTimestampId
  | reservedTimestampName
  | duplicateColumnId (id : ColumnId)
  | duplicateColumnName (name : String)
  deriving DecidableEq

inductive SchemaConflict where
  | removed (persisted : ColumnDefinition)
  | changed (persisted declared : ColumnDefinition)
  | addedNotNullable (declared : ColumnDefinition)
  deriving DecidableEq

def timestampDefinition : ColumnDefinition := ⟨timestampColumn,"ts",.i64,false⟩

def checkDefinition (before : List ColumnDefinition) (definition : ColumnDefinition) :
    Except SchemaError Unit :=
  if definition.id = timestampColumn then .error .reservedTimestampId
  else if definition.name = "ts" then .error .reservedTimestampName
  else
    match before.find? fun candidate =>
        candidate.id = definition.id ∨ candidate.name = definition.name with
    | none => .ok ()
    | some duplicate =>
      if duplicate.id = definition.id then .error (.duplicateColumnId definition.id)
      else .error (.duplicateColumnName definition.name)

def checkDefinitions (before : List ColumnDefinition) :
    List ColumnDefinition → Except SchemaError Unit
  | [] => .ok ()
  | definition::definitions => do
    checkDefinition before definition
    checkDefinitions (before++[definition]) definitions

namespace Schema

def timestampOnly : Schema := ⟨[timestampDefinition]⟩

def new (userColumns : List ColumnDefinition) : Except SchemaError Schema := do
  checkDefinitions [] userColumns
  return ⟨timestampDefinition::userColumns⟩

def userColumns (s : Schema) : List ColumnDefinition := s.columns.drop 1

def checkPersisted (declared : Schema) : List ColumnDefinition → Except SchemaConflict Unit
  | [] => .ok ()
  | persisted::rest =>
    match declared.column persisted.id with
    | none => .error (.removed persisted)
    | some candidate =>
      if candidate ≠ persisted then .error (.changed persisted candidate)
      else checkPersisted declared rest

/-- The declared columns that are not persisted, in declaration order. -/
def addedColumns (s : Schema) : List ColumnDefinition → Except SchemaConflict (List ColumnDefinition)
  | [] => .ok []
  | candidate::rest =>
    if (s.column candidate.id).isNone then
      if !candidate.nullable then .error (.addedNotNullable candidate)
      else do
        let added ← addedColumns s rest
        return candidate::added
    else addedColumns s rest

/-- `none` when both name the same columns. -/
def additiveEvolution (s declared : Schema) : Except SchemaConflict (Option Schema) := do
  checkPersisted declared s.columns
  let added ← s.addedColumns declared.columns
  return if added.isEmpty then none else some ⟨s.columns++added⟩

end Schema

def Apart (a b : ColumnDefinition) : Prop := a.id ≠ b.id ∧ a.name ≠ b.name

instance : Std.Symm Apart := ⟨fun _ _ h => ⟨h.1.symm,h.2.symm⟩⟩

variable {before user : List ColumnDefinition} {definition : ColumnDefinition}

theorem checkDefinition_ok_iff : checkDefinition before definition = .ok () ↔
    Apart timestampDefinition definition ∧ ∀ candidate ∈ before,Apart candidate definition := by
  unfold checkDefinition
  split_ifs with hid hts'
  · simp only [false_iff,not_and]
    intro h
    exact absurd hid.symm h.1
  · simp only [false_iff,not_and]
    intro h
    exact absurd hts'.symm h.2
  · have hapart : Apart timestampDefinition definition := ⟨fun h => hid h.symm,fun h => hts' h.symm⟩
    simp only [hapart,true_and]
    split
    · rename_i hfind
      rw [find?_eq_none] at hfind
      simp only [true_iff]
      intro candidate hmem
      have hne:=hfind candidate hmem
      simp only [decide_eq_true_eq,not_or] at hne
      exact hne
    · rename_i duplicate hfind
      have hmem:=mem_of_find?_eq_some hfind
      have hsame:=find?_some hfind
      simp only [decide_eq_true_eq] at hsame
      have hnot : ¬ ∀ candidate ∈ before,Apart candidate definition := by
        intro hall
        obtain ⟨hid',hname'⟩ := hall duplicate hmem
        exact hsame.elim hid' hname'
      simp only [hnot,iff_false]
      split_ifs <;> simp

theorem checkDefinitions_ok_iff : checkDefinitions before user = .ok () ↔
    (∀ definition ∈ user,Apart timestampDefinition definition ∧
      ∀ candidate ∈ before,Apart candidate definition) ∧ user.Pairwise Apart := by
  induction user generalizing before with
  | nil => simp [checkDefinitions]
  | cons definition user ih =>
    have hstep : checkDefinitions before (definition::user) = .ok () ↔
        checkDefinition before definition = .ok () ∧
          checkDefinitions (before++[definition]) user = .ok () := by
      constructor
      · intro h
        obtain ⟨⟨⟩,hfirst,hrest⟩ := bind_eq_ok h
        exact ⟨hfirst,hrest⟩
      · rintro ⟨hfirst,hrest⟩
        rw [checkDefinitions,hfirst,ok_bind,hrest]
    rw [hstep,checkDefinition_ok_iff,ih,pairwise_cons]
    constructor
    · rintro ⟨hfirst,hrest,hpair⟩
      refine ⟨?_,?_,hpair⟩
      · intro d hd
        rcases mem_cons.mp hd with rfl | hd
        · exact hfirst
        · exact ⟨(hrest d hd).1,fun c hc => (hrest d hd).2 c (mem_append_left _ hc)⟩
      · intro d hd
        exact (hrest d hd).2 definition (mem_append_right _ (mem_singleton_self _))
    · rintro ⟨hall,hfirst,hpair⟩
      refine ⟨hall definition mem_cons_self,?_,hpair⟩
      intro d hd
      have hd':=hall d (mem_cons_of_mem _ hd)
      refine ⟨hd'.1,fun c hc => ?_⟩
      rcases mem_append.mp hc with hc | hc
      · exact hd'.2 c hc
      · rw [mem_singleton.mp hc]
        exact hfirst d hd

namespace Schema
variable {s declared evolved : Schema}

theorem new_ok_iff : new user = .ok s ↔
    s.columns = timestampDefinition::user ∧ s.columns.Pairwise Apart := by
  have hpair : (timestampDefinition::user).Pairwise Apart ↔
      checkDefinitions [] user = .ok () := by
    rw [checkDefinitions_ok_iff,pairwise_cons]
    simp
  constructor
  · intro h
    obtain ⟨⟨⟩,hcheck,rfl⟩ := bind_pure_eq_ok h
    exact ⟨rfl,hpair.mpr hcheck⟩
  · rintro ⟨hcolumns,happart⟩
    rw [hcolumns] at happart
    rw [new,hpair.mp happart,ok_bind]
    exact congrArg Except.ok (congrArg Schema.mk hcolumns.symm)

/-- The schemas that exist: the fields are private and every constructor checks them. -/
def Built (s : Schema) : Prop := new s.userColumns = .ok s

theorem built_of_new (h : new user = .ok s) : s.Built := by
  have hboth:=new_ok_iff.mp h
  have huser : s.userColumns = user := by rw [userColumns,hboth.1,drop_one,tail_cons]
  rw [Built,huser,h]

theorem Built.columns_eq (h : s.Built) : s.columns = timestampDefinition::s.userColumns :=
  (new_ok_iff.mp h).1

theorem Built.apart (h : s.Built) : s.columns.Pairwise Apart := (new_ok_iff.mp h).2

theorem Built.column_of_mem (h : s.Built) {d : ColumnDefinition} (hd : d ∈ s.columns) :
    s.column d.id = some d := by
  unfold Schema.column
  obtain ⟨front,back,hsplit⟩ := append_of_mem hd
  have hpair:=h.apart
  rw [hsplit,pairwise_append] at hpair
  rw [hsplit,find?_append,find?_eq_none.mpr,Option.none_or,find?_cons_of_pos]
  · exact decide_eq_true rfl
  · intro c hc
    simp only [decide_eq_true_eq]
    exact (hpair.2.2 c hc d mem_cons_self).1

theorem mem_of_column {id : ColumnId} {d : ColumnDefinition} (h : s.column id = some d) :
    d ∈ s.columns ∧ d.id = id :=
  ⟨mem_of_find?_eq_some h,by simpa using find?_some h⟩

theorem checkPersisted_ok {columns : List ColumnDefinition}
    (h : checkPersisted declared columns = .ok ()) :
    ∀ d ∈ columns,declared.column d.id = some d := by
  induction columns with
  | nil => simp
  | cons persisted rest ih =>
    unfold checkPersisted at h
    cases hfind : declared.column persisted.id with
    | none =>
      rw [hfind] at h
      cases h
    | some candidate =>
      rw [hfind] at h
      simp only [ne_eq] at h
      split_ifs at h with hsame
      intro d hd
      rcases mem_cons.mp hd with rfl | hd
      · rw [hfind,hsame]
      · exact ih h d hd

theorem addedColumns_ok {columns added : List ColumnDefinition}
    (h : s.addedColumns columns = .ok added) :
    added = columns.filter (fun d => (s.column d.id).isNone) ∧ ∀ d ∈ added,d.nullable = true := by
  induction columns generalizing added with
  | nil =>
    obtain rfl := Except.ok.inj h
    simp
  | cons candidate rest ih =>
    unfold addedColumns at h
    split_ifs at h with hnone hnullable
    · obtain ⟨others,hothers,rfl⟩ := bind_pure_eq_ok h
      obtain ⟨rfl,hall⟩ := ih hothers
      refine ⟨by rw [filter_cons,if_pos hnone],?_⟩
      intro d hd
      rcases mem_cons.mp hd with rfl | hd
      · simpa using hnullable
      · exact hall d hd
    · obtain ⟨rfl,hall⟩ := ih h
      exact ⟨by rw [filter_cons,if_neg hnone],hall⟩

end Schema

end Zeppelin.Meta
