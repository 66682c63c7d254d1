import Mathlib.Data.Finset.Sort
import Mathlib.Data.Prod.Lex
import Zeppelin.Collections.Reachability
import Zeppelin.Meta.Columns
import Zeppelin.Namespace.RootCodec

/-! lifecycle/cascade.rs, lifecycle/namespace_batch.rs -/

namespace Zeppelin.Namespace
open Ingest Meta Reachability List

inductive CascadeError where
  | invalid (path message : String)
  | cascadeCycle (cycle : List String)
  /-- A step of the file system failed. -/
  | io
  deriving DecidableEq

def NamespaceError.cascade : NamespaceError → CascadeError
  | .invalid path message => .invalid path message

structure CascadeRule where
  parent : String
  child : String
  /-- The `attribute` of the source. -/
  column : ColumnId
  deriving DecidableEq

def CascadeRule.key (rule : CascadeRule) : String ×ₗ String ×ₗ ℕ :=
  toLex (rule.parent,toLex (rule.child,rule.column.toNat))

theorem CascadeRule.key_injective : Function.Injective CascadeRule.key := by
  intro first second h
  obtain ⟨hparent,hrest⟩ := Prod.mk.inj (toLex_inj.mp h)
  obtain ⟨hchild,hcolumn⟩ := Prod.mk.inj (toLex_inj.mp hrest)
  cases first
  cases second
  cases hparent
  cases hchild
  rw [CascadeRule.mk.injEq]
  exact ⟨rfl,rfl,BitVec.eq_of_toNat_eq hcolumn⟩

instance : LinearOrder CascadeRule := LinearOrder.lift' CascadeRule.key CascadeRule.key_injective

abbrev Rules := SortedMap CascadeRule Unit

def Rules.list (rules : Rules) : List CascadeRule := rules.entries.map Prod.fst

def CascadeRule.edge (rule : CascadeRule) : String × String := (rule.parent,rule.child)

def Rules.edges (rules : Rules) : Edges String := rules.list.map CascadeRule.edge

def cascadeVersion : List Char := "ZECASCADE1\n".toList

def CascadeRule.line (rule : CascadeRule) : List Char :=
  rule.parent.toList ++ '\t' :: (rule.child.toList ++ '\t' :: Nat.toDigits 10 rule.column.toNat)

def parseDigits (digits : List Char) : Option ColumnId :=
  if digits ≠ [] ∧ (digits.all Char.isDigit) = true ∧ Nat.ofDigitChars 10 digits 0 < 2^32 then
    some (BitVec.ofNat 32 (Nat.ofDigitChars 10 digits 0))
  else none

/-- `str::parse::<u32>` -/
def parseU32 : List Char → Option ColumnId
  | '+' :: digits => parseDigits digits
  | digits => parseDigits digits

def rejectCycle (rules : Rules) (new : CascadeRule) : Except CascadeError Unit :=
  match search rules.edges new.parent new.child [new.parent,new.child] with
  | some (some cycle) => .error (.cascadeCycle cycle)
  | _ => .ok ()

def readAttribute (path : String) (fields : List (List Char)) : Except CascadeError ColumnId :=
  match fields.head?.bind parseU32 with
  | some column => .ok column
  | none => .error (.invalid path "cascade attribute")

def addRule (path : String) (rules : Rules) (rule : CascadeRule) : Except CascadeError Rules :=
  if (rules.insert rule ()).1.isSome then .error (.invalid path "duplicate cascade rule")
  else .ok (rules.insert rule ()).2

def readRule (path : String) (rules : Rules) (line : List Char) : Except CascadeError Rules :=
  match line.splitOn '\t' with
  | parent::child::fields => do
    let column ← readAttribute path fields
    failIf (1 < fields.length ∨ ¬ nameValid (String.ofList parent) ∨
      ¬ nameValid (String.ofList child)) (.invalid path "invalid cascade rule")
    rejectCycle rules ⟨String.ofList parent,String.ofList child,column⟩
    addRule path rules ⟨String.ofList parent,String.ofList child,column⟩
  | _ => .error (.invalid path "cascade child")

section Checksum
variable (xxh3 : Bytes → U64)

def Rules.encode (rules : Rules) : Bytes :=
  envelope xxh3 (utf8Bytes (String.ofList
    (cascadeVersion++rules.list.flatMap fun rule => rule.line++['\n'])))

def readText (path : String) (bytes raw : Bytes) : Except CascadeError Rules :=
  match fromUtf8 raw with
  | none => .error (.invalid path "cascade UTF-8")
  | some text =>
    if cascadeVersion.isPrefixOf text.toList then do
      let rules ← (textLines (text.toList.drop cascadeVersion.length)).foldlM
        (readRule path) .empty
      failIf (Rules.encode xxh3 rules ≠ bytes) (.invalid path "noncanonical cascade record")
      return rules
    else .error (.invalid path "cascade version")

def readRules (path : String) : Option Bytes → Except CascadeError Rules
  | none => .ok .empty
  | some bytes => do
    failIf (maxRecord < bytes.length) (.invalid path "namespace record too large")
    let raw ← (body xxh3 path bytes).mapError NamespaceError.cascade
    readText xxh3 path bytes raw

structure ScannedDocument where
  docId : DocId
  attributes : Option (List (ColumnId × PredicateValue))

structure Source where
  schema : Schema
  pages : List (List ScannedDocument)

abbrev Sources := SortedMap String Source

def Sources.find (sources : Sources) (name : String) : Option Source :=
  (sources.entries.find? fun entry => entry.1 = name).map Prod.snd

/-- `validate`: both namespaces are given, and the attribute is an id column of the child. -/
def validateRule (root : String) (sources : Sources) (rule : CascadeRule) :
    Except CascadeError Unit := do
  failIf (sources.find rule.parent = none)
    (.invalid root ("missing cascade participant "++rule.parent))
  match sources.find rule.child with
  | none => .error (.invalid root ("missing cascade participant "++rule.child))
  | some child =>
    failIf ((child.schema.column rule.column).map ColumnDefinition.columnType ≠ some .id128)
      (.invalid root "cascade attribute must be a declared id128 column")

inductive Fault where
  | none
  | beforeRename
  | afterRename
  deriving DecidableEq

def declaration (root path : String) (sources : Sources) (rule : CascadeRule)
    (file : Option Bytes) : Except CascadeError (Option Bytes) := do
  validateRule root sources rule
  let rules ← readRules xxh3 path file
  rejectCycle rules rule
  if (rules.insert rule ()).1.isSome then return none
  failIf (maxRecord < (Rules.encode xxh3 (rules.insert rule ()).2).length)
    (.invalid root "cascade record too large")
  return some (Rules.encode xxh3 (rules.insert rule ()).2)

def declareRule (root path : String) (sources : Sources) (rule : CascadeRule) (fault : Fault)
    (file : Option Bytes) : Except CascadeError Unit × Option Bytes :=
  match declaration xxh3 root path sources rule file with
  | .error e => (.error e,file)
  | .ok none => (.ok (),file)
  | .ok (some bytes) =>
    match fault with
    | .none => (.ok (),some bytes)
    | .beforeRename => (.error .io,file)
    | .afterRename => (.error .io,some bytes)

structure NamespaceMutation where
  name : String
  deletes : List DocId

abbrev Ownership := (String × DocId) × (String × DocId)

def ruleReferences (root name : String) (docId : DocId) (value : PredicateValue)
    (rules : List CascadeRule) : Except CascadeError (List Ownership) :=
  rules.mapM fun rule =>
    match value with
    | .id128 parentId => .ok ((rule.parent,parentId),(name,docId))
    | _ => .error (.invalid root "cascade reference is not id128")

def documentReferences (root name : String) (childRules : List CascadeRule)
    (document : ScannedDocument) : Except CascadeError (List Ownership) := do
  let references ← (document.attributes.getD []).mapM fun value =>
    ruleReferences root name document.docId value.2
      (childRules.filter fun rule => rule.column = value.1)
  return references.flatten

/-- The references of a namespace; its documents are scanned where a rule has it for a child. -/
def sourceReferences (root : String) (active : List CascadeRule) (source : String × Source) :
    Except CascadeError (List Ownership) :=
  if (active.filter fun rule => rule.child = source.1) = [] then .ok []
  else do
    let references ← source.2.pages.flatten.mapM
      (documentReferences root source.1 (active.filter fun rule => rule.child = source.1))
    return references.flatten

def cascadePass (root : String) (names : List String) (references : List Ownership)
    (ids : Finset (String × DocId)) : Except CascadeError (Finset (String × DocId)) :=
  references.foldlM (fun ids reference =>
    if reference.1 ∈ ids then
      if reference.2.1 ∈ names then .ok (insert reference.2 ids)
      else .error (.invalid root "missing child ID set")
    else .ok ids) ids

def cascadeLoop (root : String) (names : List String) (references : List Ownership) :
    ℕ → Finset (String × DocId) → Except CascadeError (Finset (String × DocId))
  | 0,ids => .ok ids
  | fuel+1,ids => do
    let next ← cascadePass root names references ids
    if next.card = ids.card then return next
    else cascadeLoop root names references fuel next

def deletesOf (ids : Finset (String × DocId)) (name : String) : Finset ℕ :=
  (ids.filter fun entry => entry.1 = name).image fun entry => entry.2.toNat

def NamespaceMutation.delete (ids : Finset (String × DocId)) (mutation : NamespaceMutation) :
    NamespaceMutation :=
  { mutation with deletes := ((deletesOf ids mutation.name).sort (· ≤ ·)).map (BitVec.ofNat 128) }

def NamespaceMutation.explicit (mutation : NamespaceMutation) : List (String × DocId) :=
  mutation.deletes.map fun id => (mutation.name,id)

def expand (root : String) (rules : Rules) (sources : Sources)
    (mutations : List NamespaceMutation) : Except CascadeError (List NamespaceMutation) := do
  let reachable:=(saturate rules.edges (sources.entries.map Prod.fst).toFinset).getD ∅
  (reachable.sort (· ≤ ·)).forM fun name =>
    failIf (sources.find name = none) (.invalid root ("missing cascade participant "++name))
  let active:=rules.list.filter fun rule => rule.parent ∈ reachable
  active.forM (validateRule root sources)
  let references ← sources.entries.mapM (sourceReferences root active)
  let ids ← cascadeLoop root (mutations.map NamespaceMutation.name) references.flatten
    (references.flatten.length+1) (mutations.flatMap NamespaceMutation.explicit).toFinset
  return mutations.map (NamespaceMutation.delete ids)

structure Participant where
  name : String
  source : Source
  deletes : List DocId
  /-- It has upserts or a filter. -/
  writes : Bool
  readWrite : Bool

def Participant.mutation (participant : Participant) : NamespaceMutation :=
  ⟨participant.name,participant.deletes⟩

def addParticipant (root : String) (sources : Sources) (participant : Participant) :
    Except CascadeError Sources :=
  if ¬ nameValid participant.name ∨ (sources.insert participant.name participant.source).1.isSome ∨
      ¬ participant.readWrite
  then .error (.invalid root "invalid, duplicate, or read-only namespace participant")
  else .ok (sources.insert participant.name participant.source).2

/-- `execute`, up to the stores that it opens. -/
def openParticipants (root : String) (declaring : Bool) (participants : List Participant) :
    Except CascadeError Sources := do
  failIf (participants.length < 1 ∨ 128 < participants.length)
    (.invalid root "namespace batch requires 2..128 participants")
  failIf (∃ p ∈ participants,p.writes ∨ declaring ∧ p.deletes ≠ [])
    (.invalid root "cascade operations reject upserts/filters; declarations reject deletes")
  participants.foldlM (addParticipant root) .empty

structure Declaration where
  participants : List Participant
  rule : CascadeRule
  fault : Fault

def declareCascade (root path : String) (declaration : Declaration) (file : Option Bytes) :
    Except CascadeError Unit × Option Bytes :=
  match openParticipants root true declaration.participants with
  | .error e => (.error e,file)
  | .ok sources => declareRule xxh3 root path sources declaration.rule declaration.fault file

def deleteCascade (root path : String) (file : Option Bytes) (participants : List Participant) :
    Except CascadeError (List NamespaceMutation) := do
  let sources ← openParticipants root false participants
  let rules ← readRules xxh3 path file
  expand root rules sources (participants.map Participant.mutation)

end Checksum

structure CascadeRule.Named (rule : CascadeRule) : Prop where
  parent : nameValid rule.parent
  child : nameValid rule.child

structure Rules.Valid (rules : Rules) : Prop where
  named : ∀ rule ∈ rules.list,rule.Named
  acyclic : Acyclic rules.edges

theorem rejectCycle_spec (rules : Rules) (new : CascadeRule) :
    (rejectCycle rules new = .ok () ∧ ¬ Reaches rules.edges new.child new.parent) ∨
      ∃ walk,rejectCycle rules new = .error (.cascadeCycle (new.parent::new.child::walk)) ∧
        Walk rules.edges new.child walk new.parent := by
  obtain ⟨found,hfound,hsearched⟩ :=
    search_spec rules.edges new.parent new.child [new.parent,new.child]
  unfold rejectCycle
  rw [hfound]
  cases found with
  | none => exact .inl ⟨rfl,hsearched.none rfl⟩
  | some cycle =>
    obtain ⟨walk,rfl,hwalk⟩ := hsearched.walk cycle rfl
    exact .inr ⟨walk,rfl,hwalk⟩

variable {rules : Rules} {rule : CascadeRule}

theorem rejectCycle_eq_ok {new : CascadeRule} :
    rejectCycle rules new = .ok () ↔ ¬ Reaches rules.edges new.child new.parent := by
  rcases rejectCycle_spec rules new with ⟨hok,hreaches⟩ | ⟨walk,herror,hwalk⟩
  · exact iff_of_true hok hreaches
  · rw [herror]
    exact iff_of_false nofun fun hreaches => hreaches hwalk.reaches

theorem mem_list_insert {other : CascadeRule} :
    other ∈ Rules.list (rules.insert rule ()).2 ↔ other = rule ∨ other ∈ rules.list :=
  SortedMap.mem_keys_insert

theorem insert_list : (rules.insert rule ()).1.isSome = true ↔ rule ∈ rules.list :=
  SortedMap.insert_isSome

theorem edges_insert : Rules.edges (rules.insert rule ()).2 ⊆ rule.edge::rules.edges ∧
      rule.edge::rules.edges ⊆ Rules.edges (rules.insert rule ()).2 := by
  constructor
  · intro edge hedge
    obtain ⟨other,hother,rfl⟩ := mem_map.mp hedge
    rcases mem_list_insert.mp hother with rfl | hother
    · exact mem_cons_self
    · exact mem_cons_of_mem _ (mem_map_of_mem hother)
  · intro edge hedge
    rcases mem_cons.mp hedge with rfl | hedge
    · exact mem_map_of_mem (mem_list_insert.mpr (.inl rfl))
    · obtain ⟨other,hother,rfl⟩ := mem_map.mp hedge
      exact mem_map_of_mem (mem_list_insert.mpr (.inr hother))

theorem Rules.Valid.insert (h : rules.Valid)
    (hnamed : rule.Named) (hcycle : ¬ Reaches rules.edges rule.child rule.parent) :
    Rules.Valid (rules.insert rule ()).2 where
  named := by
    intro other hother
    rcases mem_list_insert.mp hother with rfl | hother
    · exact hnamed
    · exact h.named other hother
  acyclic := ((acyclic_cons h.acyclic).mpr hcycle).mono edges_insert.1

theorem valid_empty : Rules.Valid .empty := ⟨nofun,acyclic_nil⟩

theorem parseU32_toDigits (column : ColumnId) :
    parseU32 (Nat.toDigits 10 column.toNat) = some column := by
  have hdigits : ∀ c ∈ Nat.toDigits 10 column.toNat,c.isDigit = true := fun c hc =>
    Nat.isDigit_of_mem_toDigits (b := 10) (by norm_num) (by norm_num) hc
  have hparse : parseDigits (Nat.toDigits 10 column.toNat) = some column := by
    rw [parseDigits,Nat.ofDigitChars_ten_toDigits,if_pos]
    · rw [BitVec.ofNat_toNat,BitVec.setWidth_eq]
    · exact ⟨Nat.toDigits_ne_nil,all_eq_true.mpr hdigits,column.isLt⟩
  unfold parseU32
  split
  · rename_i digits heq
    have hplus:=hdigits '+' (by rw [heq]; exact mem_cons_self)
    exact absurd hplus (by decide)
  · exact hparse

variable {name path : String} {next : Rules}

theorem tab_notMem (h : nameValid name) : '\t' ∉ name.toList :=
  not_mem_of_nameValid h (by decide)

theorem notMem_toDigits {c : Char} (hc : c.isDigit = false) (n : ℕ) : c ∉ Nat.toDigits 10 n := by
  intro hmem
  rw [Nat.isDigit_of_mem_toDigits (b := 10) (by norm_num) (by norm_num) hmem] at hc
  cases hc

theorem splitOn_line (h : rule.Named) : rule.line.splitOn '\t' =
    [rule.parent.toList,rule.child.toList,Nat.toDigits 10 rule.column.toNat] := by
  rw [CascadeRule.line,splitOn_append_cons_self_of_not_mem (tab_notMem h.parent),
    splitOn_append_cons_self_of_not_mem (tab_notMem h.child),
    splitOn_eq_singleton (notMem_toDigits (by decide) _)]

theorem lineEnd_notMem (h : rule.Named) : '\n' ∉ rule.line ∧ '\r' ∉ rule.line := by
  have hdigits:=notMem_toDigits (c := '\n') (by decide) rule.column.toNat
  have hdigits':=notMem_toDigits (c := '\r') (by decide) rule.column.toNat
  have hparent : '\n' ∉ rule.parent.toList ∧ '\r' ∉ rule.parent.toList :=
    ⟨not_mem_of_nameValid h.parent (by decide),not_mem_of_nameValid h.parent (by decide)⟩
  have hchild : '\n' ∉ rule.child.toList ∧ '\r' ∉ rule.child.toList :=
    ⟨not_mem_of_nameValid h.child (by decide),not_mem_of_nameValid h.child (by decide)⟩
  simp [CascadeRule.line,hparent,hchild,hdigits,hdigits']

theorem readRule_line (path : String) (hnamed : rule.Named)
    (hlast : ∀ e ∈ rules.entries,e.1 < rule)
    (hcycle : ¬ Reaches rules.edges rule.child rule.parent) :
    ∃ next,readRule path rules rule.line = .ok next ∧
      next.entries = rules.entries++[(rule,())] := by
  obtain ⟨hnone,hentries⟩ := SortedMap.insert_last () hlast
  refine ⟨_,?_,hentries⟩
  rw [readRule,splitOn_line hnamed]
  dsimp only
  rw [readAttribute,head?_cons,Option.bind_some,parseU32_toDigits]
  dsimp only
  rw [ok_bind,String.ofList_toList,String.ofList_toList,failIf_neg,ok_bind,
    rejectCycle_eq_ok.mpr hcycle,ok_bind,addRule,hnone]
  · rfl
  · simp [hnamed.parent,hnamed.child]

theorem list_append
    (h : next.entries = rules.entries++[(rule,())]) : next.list = rules.list++[rule] := by
  rw [Rules.list,h,map_append]
  rfl

theorem readRule_fold (path : String) {list : List CascadeRule} (hnamed : ∀ rule ∈ list,rule.Named)
    (hsorted : (rules.entries++list.map fun rule => (rule,())).Pairwise fun a b => a.1 < b.1)
    (hacyclic : Acyclic ((rules.list++list).map CascadeRule.edge)) :
    ∃ next,(list.map CascadeRule.line).foldlM (readRule path) rules = .ok next ∧
      next.entries = rules.entries++list.map fun rule => (rule,()) := by
  induction list generalizing rules with
  | nil => exact ⟨rules,rfl,(append_nil _).symm⟩
  | cons rule list ih =>
    have hlast : ∀ e ∈ rules.entries,e.1 < rule := fun e he =>
      (pairwise_append.mp hsorted).2.2 e he (rule,()) mem_cons_self
    have hsub : rule.edge::rules.edges ⊆ (rules.list++rule::list).map CascadeRule.edge := by
      intro edge hedge
      rw [map_append]
      rcases mem_cons.mp hedge with rfl | hedge
      · exact mem_append_right _ mem_cons_self
      · exact mem_append_left _ hedge
    have hold : Acyclic rules.edges :=
      hacyclic.mono (List.Subset.trans (subset_cons_self _ _) hsub)
    obtain ⟨next,hnext,hentries⟩ := readRule_line path (hnamed rule mem_cons_self) hlast
      ((acyclic_cons hold).mp (hacyclic.mono hsub))
    rw [map_cons,append_cons,← hentries] at hsorted
    rw [append_cons,← list_append hentries] at hacyclic
    obtain ⟨final,hfold,hfinal⟩ := ih (fun other hother => hnamed other
      (mem_cons_of_mem _ hother)) hsorted hacyclic
    refine ⟨final,?_,?_⟩
    · rw [map_cons,foldlM_cons,hnext,ok_bind,hfold]
    · rw [hfinal,hentries,← append_cons,map_cons]

theorem readRule_valid {line : List Char} (h : rules.Valid)
    (hread : readRule path rules line = .ok next) : next.Valid := by
  unfold readRule at hread
  split at hread
  · obtain ⟨column,_,hread⟩ := bind_eq_ok hread
    obtain ⟨_,hchecked,hread⟩ := bind_eq_ok hread
    obtain ⟨_,hcycle,hread⟩ := bind_eq_ok hread
    rw [failIf_eq_ok,not_or,not_or,not_not,not_not] at hchecked
    unfold addRule at hread
    split_ifs at hread
    obtain rfl := Except.ok.inj hread
    exact h.insert ⟨hchecked.2.1,hchecked.2.2⟩ (rejectCycle_eq_ok.mp hcycle)
  · cases hread

theorem readRule_fold_valid {lines : List (List Char)} {final : Rules}
    (h : rules.Valid) (hread : lines.foldlM (readRule path) rules = .ok final) : final.Valid := by
  induction lines generalizing rules with
  | nil =>
    obtain rfl := Except.ok.inj hread
    exact h
  | cons line lines ih =>
    rw [foldlM_cons] at hread
    obtain ⟨next,hnext,hread⟩ := bind_eq_ok hread
    exact ih (readRule_valid h hnext) hread

section Checksum
variable {xxh3 : Bytes → U64}

theorem readRules_encode (path : String) {rules : Rules} (h : rules.Valid)
    (hsize : (Rules.encode xxh3 rules).length ≤ maxRecord) :
    readRules xxh3 path (some (Rules.encode xxh3 rules)) = .ok rules := by
  have hentries : rules.list.map (fun rule => (rule,())) = rules.entries := by
    rw [Rules.list,map_map]
    exact map_id _
  have hsorted : ((.empty : Rules).entries++rules.list.map fun rule => (rule,())).Pairwise
      fun a b => a.1 < b.1 := by
    rw [hentries]
    exact rules.sorted
  obtain ⟨next,hfold,hnext⟩ := readRule_fold path h.named hsorted h.acyclic
  obtain rfl : next = rules := SortedMap.ext (hnext.trans hentries)
  have hlines : textLines (next.list.flatMap fun rule => rule.line++['\n']) =
      next.list.map CascadeRule.line := by
    have hflat : (next.list.flatMap fun rule => rule.line++['\n']) =
        (next.list.map CascadeRule.line).flatMap fun line => line++['\n'] := by
      rw [flatMap_map]
    rw [hflat,textLines_flatMap]
    intro line hline
    obtain ⟨rule,hrule,rfl⟩ := mem_map.mp hline
    exact lineEnd_notMem (h.named rule hrule)
  have hbody:=body_envelope xxh3 path hsize
  rw [readRules,failIf_neg _ (not_lt.mpr hsize),ok_bind,Rules.encode,hbody]
  rw [show (Except.ok _ : Except NamespaceError Bytes).mapError NamespaceError.cascade =
    .ok _ from rfl,ok_bind,readText,fromUtf8_utf8Bytes]
  dsimp only
  rw [String.toList_ofList,if_pos,drop_left,hlines,hfold,ok_bind,failIf_neg]
  · rfl
  · exact not_not.mpr rfl
  · rw [ isPrefixOf_iff_prefix]
    exact prefix_append _ _

theorem readRules_valid {path : String} {file : Option Bytes} {rules : Rules}
    (h : readRules xxh3 path file = .ok rules) : rules.Valid := by
  cases file with
  | none =>
    obtain rfl := Except.ok.inj h
    exact valid_empty
  | some bytes =>
    obtain ⟨_,_,h⟩ := bind_eq_ok h
    obtain ⟨raw,_,h⟩ := bind_eq_ok h
    unfold readText at h
    split at h
    · cases h
    · split_ifs at h
      obtain ⟨final,hfold,h⟩ := bind_eq_ok h
      obtain ⟨_,_,rfl⟩ := bind_pure_eq_ok h
      exact readRule_fold_valid valid_empty hfold

end Checksum

end Zeppelin.Namespace
