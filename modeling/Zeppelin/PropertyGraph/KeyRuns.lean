import Mathlib.Data.List.Chain
import Zeppelin.Machine.Run
import Zeppelin.PropertyGraph.KeyLifecycle

namespace Zeppelin.PropertyGraph
open Machine List

structure KeyHistory where
  state : KeyState
  installed : List OperationFields
  deriving DecidableEq

def KeyHistory.fresh : KeyHistory := ⟨.neverUsed,[]⟩

inductive KeyEvent where
  | request (request : KeyRequest) (incarnation : EntityId) (generation : GraphGeneration)
  | cypher (edit : CypherEdit) (incarnation : EntityId) (generation : GraphGeneration)
  deriving DecidableEq

def installedState (c : PendingKeyChange) (contents : Option CanonicalRecord)
    (p : OperationProvenance) : Option KeyState :=
  if c.isDeletion then some (.deleted p) else contents.map fun contents => .live ⟨p,contents⟩

def applyDecision (s : KeyHistory) (contents : Option CanonicalRecord) (incarnation : EntityId)
    (generation : GraphGeneration) : KeyDecision → Option KeyHistory
  | .noOp | .replay _ => some s
  | .change c => do
    let p ← (c.install incarnation generation).toOption
    let state ← installedState c contents p
    return ⟨state,s.installed++[p.fields]⟩

def CypherEdit.contents : CypherEdit → Option CanonicalRecord
  | .put contents => some contents
  | .delete _ => none

def KeyState.current : KeyState → Option CurrentEntity
  | .live current => some current
  | _ => none

def keyStep (key : ApplicationKey) (s : KeyHistory) : KeyEvent → Option KeyHistory
  | .request request incarnation generation => do
    let decision ← (classifyKey key s.state request).toOption
    applyDecision s request.contents incarnation generation decision
  | .cypher edit incarnation generation => do
    let decision ← (classifyCypher s.state.current edit).toOption
    applyDecision s edit.contents incarnation generation decision

structure Succeeds (f g : OperationFields) : Prop where
  revision : f.installedRevision.get < g.installedRevision.get
  generation : f.originalGeneration < g.originalGeneration
  incarnation : f.deleteMode = none ∧ g.incarnation = f.incarnation ∨
    f.deleteMode.isSome = true ∧ g.operation = .structuredRecreate ∧
      g.expected = .deletion f.installedRevision ∧ g.incarnation ≠ f.incarnation

theorem install_eq_ok {c : PendingKeyChange} {incarnation : EntityId} {generation : GraphGeneration}
    {p : OperationProvenance} (h : c.install incarnation generation = .ok p) :
    p.fields = c.fields incarnation generation ∧ incarnation.kind = c.kind ∧
      (∀ id,c.existing = some id → incarnation = id) ∧ c.retired ≠ some incarnation ∧
      c.previousGeneration < generation := by
  unfold PendingKeyChange.install at h
  obtain ⟨hkind,h⟩ := of_ite_error h
  obtain ⟨hidentity,h⟩ := of_ite_error h
  obtain ⟨hgeneration,h⟩ := of_ite_error h
  unfold OperationProvenance.fromFields at h
  split at h
  · obtain rfl := Except.ok.inj h
    simp only [Bool.or_eq_true,not_or,decide_eq_true_eq] at hidentity
    refine ⟨rfl,not_not.mp hkind,?_,hidentity.2,BitVec.not_le.mp hgeneration⟩
    intro id hid
    by_contra hne
    exact hidentity.1 (by simp [hid,Ne.symm hne])
  · cases h

/-- What a change may ask for after the evidence `f`. -/
def Follows (key : ApplicationKey) (f : OperationFields) (c : PendingKeyChange) : Prop :=
  c.key = some key ∧ c.kind = key.kind ∧ f.installedRevision.get < c.revision.get ∧
    c.previousGeneration = f.originalGeneration ∧
    (f.deleteMode = none ∧ c.existing = some f.incarnation ∧ c.expected = .entity f.incarnation ∧
        (c.deleteMode = none ∧ (c.operation = .structuredPut ∨ c.operation = .cypherEdit) ∨
          c.deleteMode.isSome = true ∧
            (c.operation = .structuredDelete ∨ c.operation = .cypherEdit)) ∨
      f.deleteMode.isSome = true ∧ c.retired = some f.incarnation ∧ c.deleteMode = none ∧
        c.operation = .structuredRecreate ∧ c.expected = .deletion f.installedRevision)

theorem validateProvenance_eq_ok {key : Option ApplicationKey} {p : OperationProvenance}
    {deleted : Bool} : validateProvenance key p deleted = .ok () ↔
      validOrigin p.fields deleted = true ∧ p.fields.key = key ∧
        p.fields.requestedRevision = p.fields.installedRevision ∧
        p.fields.originalGeneration ≠ 0 ∧ p.fields.deleteMode.isSome = deleted := by
  unfold validateProvenance
  split
  · rename_i hinvalid
    constructor
    · intro h
      cases h
    · rintro ⟨horigin,hkey,hrevision,hgeneration,hmode⟩
      simp only [horigin,hkey,hrevision,hmode,Bool.not_true,Bool.false_or,ne_eq,
        not_true_eq_false,decide_false,bne_self_eq_false,Bool.or_false,
        decide_eq_true_eq] at hinvalid
      exact absurd hinvalid hgeneration
  · rename_i hvalid
    refine iff_of_true rfl ?_
    simp only [Bool.or_eq_true,not_or,Bool.not_eq_true',decide_eq_true_eq,bne_iff_ne,ne_eq,
      not_not,Bool.not_eq_false] at hvalid
    exact ⟨hvalid.1.1.1.1,hvalid.1.1.1.2,hvalid.1.1.2,hvalid.1.2,hvalid.2⟩

section Decisions
variable {key : ApplicationKey} {request : KeyRequest} {c : PendingKeyChange}
  {p : OperationProvenance} {shape : Option EntityShape} {deleted : Bool}

theorem prepareUsed_change {metadata : KeyRequestMetadata}
    (h : prepareUsed key p shape deleted metadata = .ok (.change c)) :
    c = pending key metadata (some p.fields) deleted ∧
      p.fields.installedRevision.get < metadata.revision.get ∧
      metadata.expected.entity?.all (fun id => id = p.fields.incarnation) = true ∧
      admitOperation deleted metadata p.fields = .ok () := by
  obtain ⟨⟨⟩,-,h⟩ := bind_eq_ok h
  obtain ⟨-,h⟩ := of_ite_error h
  obtain ⟨hincarnation,h⟩ := of_ite_error h
  obtain ⟨hstale,h⟩ := of_ite_error h
  split at h
  · split at h
    · cases h
    · cases h
  · rename_i hne
    obtain ⟨⟨⟩,hadmitted,h⟩ := bind_eq_ok h
    obtain rfl := KeyPreparation.change.inj (Except.ok.inj h)
    refine ⟨rfl,?_,?_,hadmitted⟩
    · have hnat : metadata.revision.get.toNat ≠ p.fields.installedRevision.get.toNat :=
        fun heq => hne (GraphRevision.ext (BitVec.eq_of_toNat_eq heq))
      rw [BitVec.lt_def] at hstale ⊢
      omega
    · cases hid : metadata.expected.entity? with
      | none => rfl
      | some id =>
        rw [hid] at hincarnation
        simpa using hincarnation

theorem completeKey_change {prepared : KeyPreparation} {current requested : Option CanonicalRecord}
    (h : completeKey prepared current requested = .ok (.change c)) :
    prepared = .change c ∧ c.isDeletion = requested.isNone ∧
      requested.all (fun contents => contents.shape.kind = c.kind) = true := by
  cases prepared with
  | compareReplay p =>
    unfold completeKey at h
    simp only at h
    split at h
    · cases h
    · cases h
  | change change =>
    unfold completeKey at h
    simp only at h
    obtain ⟨hdeletion,h⟩ := of_ite_error h
    obtain ⟨hkind,h⟩ := of_ite_error h
    have hchange : change = c := by
      split at h
      · split at h
        · split at h
          · cases h
          · exact KeyDecision.change.inj (Except.ok.inj h)
        · cases h
      · exact KeyDecision.change.inj (Except.ok.inj h)
    subst hchange
    refine ⟨rfl,by simpa using hdeletion,?_⟩
    cases requested with
    | none => rfl
    | some contents => simpa using hkind

theorem prepareUsed_follows (hvalid : validateProvenance (some key) p deleted = .ok ())
    (h : prepareUsed key p shape deleted request.metadata = .ok (.change c)) :
    Follows key p.fields c := by
  obtain ⟨-,-,-,-,hmode⟩ := validateProvenance_eq_ok.mp hvalid
  obtain ⟨rfl,hrevision,hexpected,hadmitted⟩ := prepareUsed_change h
  refine ⟨rfl,rfl,hrevision,rfl,?_⟩
  cases deleted with
  | false =>
    have hnone : p.fields.deleteMode = none := by simpa using hmode
    refine .inl ⟨hnone,rfl,?_⟩
    cases request with
    | create revision contents => cases hadmitted
    | recreate revision deletedRevision contents => cases hadmitted
    | put revision expected contents =>
      have hid : expected = p.fields.incarnation := by
        simpa [KeyRequest.metadata,ExpectedGraphState.entity?] using hexpected
      exact ⟨by rw [← hid]; rfl,.inl ⟨rfl,.inl rfl⟩⟩
    | delete revision expected mode =>
      have hid : expected = p.fields.incarnation := by
        simpa [KeyRequest.metadata,ExpectedGraphState.entity?] using hexpected
      exact ⟨by rw [← hid]; rfl,.inr ⟨rfl,.inl rfl⟩⟩
  | true =>
    refine .inr ⟨hmode,rfl,?_⟩
    cases request with
    | create revision contents => cases hadmitted
    | put revision expected contents => cases hadmitted
    | delete revision expected mode => cases hadmitted
    | recreate revision deletedRevision contents =>
      refine ⟨rfl,rfl,?_⟩
      by_cases hdeletion : deletedRevision = p.fields.installedRevision
      · rw [← hdeletion]
        rfl
      · simp [admitOperation,KeyRequest.metadata,hdeletion] at hadmitted

theorem cypherChange_follows {f : OperationFields} {mode : Option GraphDeleteMode}
    (hkey : f.key = some key) (hkind : f.incarnation.kind = key.kind) (hlive : f.deleteMode = none)
    (h : cypherChange f mode = .ok (.change c)) : Follows key f c ∧ c.deleteMode = mode := by
  unfold cypherChange at h
  cases hnext : f.installedRevision.checkedNext with
  | none =>
    rw [hnext] at h
    cases h
  | some revision =>
    rw [hnext] at h
    obtain rfl := KeyDecision.change.inj (Except.ok.inj h)
    have hnat:=GraphRevision.checkedNext_toNat hnext
    refine ⟨⟨hkey,hkind,BitVec.lt_def.mpr (by simp only; omega),rfl,.inl ⟨hlive,rfl,rfl,?_⟩⟩,
      rfl⟩
    cases mode with
    | none => exact .inl ⟨rfl,.inr rfl⟩
    | some mode => exact .inr ⟨rfl,.inr rfl⟩

theorem Follows.install {f : OperationFields} (h : Follows key f c) {incarnation : EntityId}
    {generation : GraphGeneration} {q : OperationProvenance}
    (hinstall : c.install incarnation generation = .ok q) :
    Succeeds f q.fields ∧ validateProvenance (some key) q c.isDeletion = .ok () := by
  obtain ⟨hkey,hkind,hrevision,hprevious,hcase⟩ := h
  obtain ⟨hfields,-,hexisting,hretired,hgeneration⟩ := install_eq_ok hinstall
  rw [hprevious] at hgeneration
  have hpositive : generation ≠ 0 := by
    rintro rfl
    rw [BitVec.lt_def] at hgeneration
    simp at hgeneration
  rw [validateProvenance_eq_ok,hfields]
  rcases hcase with ⟨hlive,hsame,hexpected,hop⟩ | ⟨hgone,hold,hmode,hop,hexpected⟩
  · have hincarnation:=hexisting _ hsame
    refine ⟨⟨hrevision,hgeneration,.inl ⟨hlive,hincarnation⟩⟩,?_,hkey,rfl,hpositive,rfl⟩
    rcases hop with ⟨hmode,hop | hop⟩ | ⟨hmode,hop | hop⟩ <;>
      simp [validOrigin,PendingKeyChange.fields,PendingKeyChange.isDeletion,hop,hmode,hkey,
        hexpected,hincarnation]
  · have hne : incarnation ≠ f.incarnation := by
      rintro rfl
      exact hretired hold
    refine ⟨⟨hrevision,hgeneration,.inr ⟨hgone,hop,hexpected,hne⟩⟩,?_,hkey,rfl,hpositive,
      rfl⟩
    have hlt : f.installedRevision.get < c.revision.get := hrevision
    simp [validOrigin,PendingKeyChange.fields,PendingKeyChange.isDeletion,hop,hmode,hkey,
      hexpected,hlt]

end Decisions

def Evidence (key : ApplicationKey) (s : KeyHistory) : Prop :=
  match s.state with
  | .neverUsed => s.installed = []
  | .live current => s.installed.getLast? = some current.provenance.fields ∧
      validateProvenance (some key) current.provenance false = .ok () ∧
      current.contents.shape.kind = key.kind
  | .deleted p => s.installed.getLast? = some p.fields ∧
      validateProvenance (some key) p true = .ok ()

structure KeyInv (key : ApplicationKey) (s : KeyHistory) : Prop where
  evidence : Evidence key s
  chain : s.installed.IsChain Succeeds

variable {s t : KeyHistory} {incarnation : EntityId} {generation : GraphGeneration}

theorem KeyInv.apply {key : ApplicationKey} (h : KeyInv key s)
    {c : PendingKeyChange} {contents : Option CanonicalRecord}
    (hcontents : contents.all (fun contents => contents.shape.kind = key.kind) = true)
    (hchange : ∀ q,c.install incarnation generation = .ok q →
      (∀ f,s.installed.getLast? = some f → Succeeds f q.fields) ∧
        validateProvenance (some key) q c.isDeletion = .ok ())
    (happly : applyDecision s contents incarnation generation (.change c) = some t) :
    KeyInv key t := by
  obtain ⟨q,hq,happly⟩ := Option.bind_eq_some_iff.mp happly
  obtain ⟨state,hstate,happly⟩ := Option.bind_eq_some_iff.mp happly
  obtain rfl := Option.some.inj happly
  obtain ⟨hsucceeds,hvalid⟩ := hchange q (toOption_eq_some hq)
  have hlast : (s.installed++[q.fields]).getLast? = some q.fields := by simp
  refine ⟨?_,?_⟩
  · unfold installedState at hstate
    split at hstate
    · rename_i hdeletion
      obtain rfl := Option.some.inj hstate
      exact ⟨hlast,hdeletion ▸ hvalid⟩
    · rename_i hlive
      obtain ⟨image,rfl,rfl⟩ := Option.map_eq_some_iff.mp hstate
      rw [Bool.not_eq_true] at hlive
      exact ⟨hlast,hlive ▸ hvalid,by simpa using hcontents⟩
  · rw [isChain_append]
    refine ⟨h.chain,.singleton _,?_⟩
    intro f hf g hg
    obtain rfl := Option.some.inj hg
    exact hsucceeds f hf

theorem classifyKey_eq_ok {key : ApplicationKey} {state : KeyState} {request : KeyRequest}
    {decision : KeyDecision} (h : classifyKey key state request = .ok decision) :
    request.contents.all (fun contents => contents.shape.kind = key.kind) = true ∧
      ∃ prepared,prepareKey key state request.metadata = .ok prepared ∧
        completeKey prepared state.contents request.contents = .ok decision := by
  unfold classifyKey at h
  obtain ⟨hkind,h⟩ := of_ite_error h
  obtain ⟨prepared,hprepared,hcomplete⟩ := bind_eq_ok h
  refine ⟨?_,prepared,hprepared,hcomplete⟩
  cases hcontents : request.contents with
  | none => rfl
  | some contents =>
    rw [hcontents] at hkind
    simpa using hkind

theorem KeyInv.request_install {key : ApplicationKey} (h : KeyInv key s)
    {request : KeyRequest} {c : PendingKeyChange}
    (hclassify : classifyKey key s.state request = .ok (.change c)) {q : OperationProvenance}
    (hinstall : c.install incarnation generation = .ok q) :
    (∀ f,s.installed.getLast? = some f → Succeeds f q.fields) ∧
      validateProvenance (some key) q c.isDeletion = .ok () := by
  obtain ⟨-,prepared,hprepared,hcomplete⟩ := classifyKey_eq_ok hclassify
  obtain ⟨rfl,-,-⟩ := completeKey_change hcomplete
  have hevidence:=h.evidence
  unfold prepareKey at hprepared
  unfold Evidence at hevidence
  obtain ⟨-,hprepared⟩ := of_ite_error hprepared
  cases hstate : s.state with
  | neverUsed =>
    rw [hstate] at hprepared hevidence
    simp only at hprepared hevidence
    split at hprepared
    · rename_i hcreate
      obtain rfl := KeyPreparation.change.inj (Except.ok.inj hprepared)
      obtain ⟨hfields,-,-,-,hgeneration⟩ := install_eq_ok hinstall
      refine ⟨by simp [hevidence],?_⟩
      have hpositive : generation ≠ 0 := by
        rintro rfl
        rw [BitVec.lt_def] at hgeneration
        simp at hgeneration
      rw [validateProvenance_eq_ok,hfields]
      cases request <;> cases hcreate
      exact ⟨rfl,rfl,rfl,hpositive,rfl⟩
    · cases hprepared
  | live current =>
    rw [hstate] at hprepared hevidence
    obtain ⟨hlast,hvalid,-⟩ := hevidence
    have hboth:=(prepareUsed_follows hvalid hprepared).install hinstall
    refine ⟨?_,hboth.2⟩
    intro f hf
    rw [Option.some.inj (hf.symm.trans hlast)]
    exact hboth.1
  | deleted p =>
    rw [hstate] at hprepared hevidence
    obtain ⟨hlast,hvalid⟩ := hevidence
    have hboth:=(prepareUsed_follows hvalid hprepared).install hinstall
    refine ⟨?_,hboth.2⟩
    intro f hf
    rw [Option.some.inj (hf.symm.trans hlast)]
    exact hboth.1

theorem classifyCypher_change {current : Option CurrentEntity} {edit : CypherEdit}
    {c : PendingKeyChange} (h : classifyCypher current edit = .ok (.change c)) :
    ∃ live,current = some live ∧
      edit.contents.all (fun contents =>
        contents.shape.kind = live.provenance.fields.incarnation.kind) = true ∧
      ∃ mode,cypherChange live.provenance.fields mode = .ok (.change c) := by
  cases current with
  | none => cases h
  | some live =>
    obtain ⟨⟨⟩,-,h⟩ := bind_eq_ok h
    obtain ⟨-,h⟩ := of_ite_error h
    cases edit with
    | put final =>
      simp only at h
      obtain ⟨hkind,h⟩ := of_ite_error h
      obtain ⟨-,h⟩ := of_ite_error h
      split at h
      · cases h
      · exact ⟨live,rfl,by simpa [CypherEdit.contents] using hkind,none,h⟩
    | delete mode => exact ⟨live,rfl,rfl,some mode,h⟩

theorem KeyInv.step {key : ApplicationKey} (h : KeyInv key s) {event : KeyEvent}
    (hstep : keyStep key s event = some t) : KeyInv key t := by
  cases event with
  | request request incarnation generation =>
    obtain ⟨decision,hdecision,happly⟩ := Option.bind_eq_some_iff.mp hstep
    have hclassify:=toOption_eq_some hdecision
    cases decision with
    | noOp =>
      obtain rfl := Option.some.inj happly
      exact h
    | replay p =>
      obtain rfl := Option.some.inj happly
      exact h
    | change c =>
      exact h.apply (classifyKey_eq_ok hclassify).1
        (fun q hq => h.request_install hclassify hq) happly
  | cypher edit incarnation generation =>
    obtain ⟨decision,hdecision,happly⟩ := Option.bind_eq_some_iff.mp hstep
    have hclassify:=toOption_eq_some hdecision
    cases decision with
    | noOp =>
      obtain rfl := Option.some.inj happly
      exact h
    | replay p =>
      obtain rfl := Option.some.inj happly
      exact h
    | change c =>
      obtain ⟨live,hlive,hcontents,mode,hchange⟩ := classifyCypher_change hclassify
      have hstate : s.state = .live live := by
        cases hs : s.state with
        | live current =>
          rw [hs] at hlive
          rw [Option.some.inj hlive]
        | neverUsed =>
          rw [hs] at hlive
          cases hlive
        | deleted p =>
          rw [hs] at hlive
          cases hlive
      have hevidence:=h.evidence
      unfold Evidence at hevidence
      rw [hstate] at hevidence
      obtain ⟨hlast,hvalid,-⟩ := hevidence
      obtain ⟨-,hkey,-,-,hmode⟩ := validateProvenance_eq_ok.mp hvalid
      have hkind : live.provenance.fields.incarnation.kind = key.kind := by
        have hkinds:=live.provenance.kinds
        simp only [OperationFields.kindsAgree,hkey,Option.all_some,Bool.and_eq_true,
          decide_eq_true_eq] at hkinds
        exact hkinds.1.symm
      have hnone : live.provenance.fields.deleteMode = none := by simpa using hmode
      obtain ⟨hfollows,-⟩ := cypherChange_follows hkey hkind hnone hchange
      refine h.apply (hkind ▸ hcontents) ?_ happly
      intro q hq
      have hboth:=hfollows.install hq
      refine ⟨?_,hboth.2⟩
      intro f hf
      rw [Option.some.inj (hf.symm.trans hlast)]
      exact hboth.1

def KeyState.provenance : KeyState → Option OperationProvenance
  | .neverUsed => none
  | .live current => some current.provenance
  | .deleted p => some p

def SameRequest (request : KeyRequest) (state : KeyState) (f : OperationFields) : Prop :=
  request.metadata.operation = f.operation ∧ request.metadata.expected = f.expected ∧
    request.metadata.deleteMode = f.deleteMode ∧ repeats state.contents request.contents = true

instance (request : KeyRequest) (state : KeyState) (f : OperationFields) :
    Decidable (SameRequest request state f) := inferInstanceAs (Decidable (_ ∧ _))

section Repeats
variable {key : ApplicationKey} {request : KeyRequest} {p : OperationProvenance}

theorem prepareUsed_repeat {shape : Option EntityShape} {deleted : Bool}
    {metadata : KeyRequestMetadata} (hvalid : validateProvenance (some key) p deleted = .ok ())
    (hshape : shape.all (fun shape => shape.kind = key.kind) = true)
    (hrevision : metadata.revision = p.fields.installedRevision)
    (hnames : metadata.expected.entity?.all (fun id => id = p.fields.incarnation) = true) :
    prepareUsed key p shape deleted metadata =
      if metadata.operation = p.fields.operation ∧ metadata.expected = p.fields.expected ∧
        metadata.deleteMode = p.fields.deleteMode then .ok (.compareReplay p)
      else .error .revisionConflict := by
  obtain ⟨-,-,hrequested,-,-⟩ := validateProvenance_eq_ok.mp hvalid
  have hkind : (shape.any fun shape => decide (shape.kind ≠ key.kind)) = false := by
    cases shape with
    | none => rfl
    | some shape => simpa using hshape
  have hsame : (metadata.expected.entity?.any fun id =>
      decide (id ≠ p.fields.incarnation)) = false := by
    cases hid : metadata.expected.entity? with
    | none => rfl
    | some id => simpa [hid] using hnames
  have hirrefl : ¬ p.fields.installedRevision.get < p.fields.installedRevision.get :=
    BitVec.lt_irrefl _
  unfold prepareUsed
  rw [hvalid,ok_bind,hkind,hsame,hrevision,hrequested]
  simp only [Bool.false_eq_true,if_false,if_neg hirrefl,if_true,ne_eq,not_true_eq_false,
    false_or]
  by_cases hexact : metadata.operation = p.fields.operation ∧
      metadata.expected = p.fields.expected ∧ metadata.deleteMode = p.fields.deleteMode
  · rw [if_pos hexact,if_neg (by simp [hexact.1,hexact.2.1,hexact.2.2])]
  · rw [if_neg hexact,if_pos (by tauto)]

variable {s : KeyHistory}

theorem KeyInv.repeat_current (h : KeyInv key s) (hcurrent : s.state.provenance = some p)
    (hcontents : request.contents.all (fun contents => contents.shape.kind = key.kind) = true)
    (hrevision : request.metadata.revision = p.fields.installedRevision)
    (hnames : request.metadata.expected.entity?.all (fun id => id = p.fields.incarnation) = true) :
    classifyKey key s.state request =
      if SameRequest request s.state p.fields then .ok (.replay p) else .error .revisionConflict := by
  have hprepare : prepareKey key s.state request.metadata =
      if request.metadata.operation = p.fields.operation ∧
        request.metadata.expected = p.fields.expected ∧
        request.metadata.deleteMode = p.fields.deleteMode then .ok (.compareReplay p)
      else .error .revisionConflict := by
    have hevidence:=h.evidence
    unfold Evidence at hevidence
    have hkind : ∀ deleted,validateProvenance (some key) p deleted = .ok () →
        (request.metadata.expected.entity?.any fun id => decide (id.kind ≠ key.kind)) = false := by
      intro deleted hvalid
      obtain ⟨-,hkey,-,-,-⟩ := validateProvenance_eq_ok.mp hvalid
      have hkinds:=p.kinds
      simp only [OperationFields.kindsAgree,hkey,Option.all_some,Bool.and_eq_true,
        decide_eq_true_eq] at hkinds
      cases hid : request.metadata.expected.entity? with
      | none => rfl
      | some id =>
        rw [hid,Option.all_some,decide_eq_true_eq] at hnames
        simp [hnames,hkinds.1]
    unfold prepareKey
    cases hstate : s.state with
    | neverUsed =>
      rw [hstate] at hcurrent
      cases hcurrent
    | live current =>
      rw [hstate] at hcurrent hevidence
      obtain rfl := Option.some.inj hcurrent
      obtain ⟨-,hvalid,hshape⟩ := hevidence
      rw [hkind false hvalid]
      exact prepareUsed_repeat hvalid (by simpa using hshape) hrevision hnames
    | deleted q =>
      rw [hstate] at hcurrent hevidence
      obtain rfl := Option.some.inj hcurrent
      rw [hkind true hevidence.2]
      exact prepareUsed_repeat hevidence.2 rfl hrevision hnames
  have hsome : (request.contents.any fun contents => decide (contents.shape.kind ≠ key.kind)) =
      false := by
    cases hid : request.contents with
    | none => rfl
    | some contents => simpa [hid] using hcontents
  unfold classifyKey
  rw [hsome,hprepare]
  simp only [Bool.false_eq_true,if_false]
  by_cases hexact : request.metadata.operation = p.fields.operation ∧
      request.metadata.expected = p.fields.expected ∧
      request.metadata.deleteMode = p.fields.deleteMode
  · rw [if_pos hexact,ok_bind,completeKey]
    by_cases hrepeats : repeats s.state.contents request.contents = true
    · rw [if_pos hrepeats,if_pos ⟨hexact.1,hexact.2.1,hexact.2.2,hrepeats⟩]
    · rw [if_neg hrepeats,if_neg fun hsame => hrepeats hsame.2.2.2]
  · rw [if_neg hexact,error_bind,if_neg fun hsame => hexact ⟨hsame.1,hsame.2.1,hsame.2.2.1⟩]

theorem classifyKey_replay {state : KeyState} (h : classifyKey key state request = .ok (.replay p)) :
    state.provenance = some p := by
  obtain ⟨-,prepared,hprepared,hcomplete⟩ := classifyKey_eq_ok h
  have hcompare : prepared = .compareReplay p := by
    cases prepared with
    | compareReplay q =>
      unfold completeKey at hcomplete
      simp only at hcomplete
      split at hcomplete
      · rw [KeyDecision.replay.inj (Except.ok.inj hcomplete)]
      · cases hcomplete
    | change c =>
      unfold completeKey at hcomplete
      simp only at hcomplete
      repeat' split at hcomplete
      all_goals cases hcomplete
  subst hcompare
  have hused : ∀ q shape deleted,prepareUsed key q shape deleted request.metadata =
      .ok (.compareReplay p) → q = p := by
    intro q shape deleted hused
    obtain ⟨⟨⟩,-,hused⟩ := bind_eq_ok hused
    repeat' split at hused
    all_goals first
      | exact KeyPreparation.compareReplay.inj (Except.ok.inj hused)
      | cases hused
      | (obtain ⟨⟨⟩,-,hused⟩ := bind_eq_ok hused; cases hused)
  unfold prepareKey at hprepared
  obtain ⟨-,hprepared⟩ := of_ite_error hprepared
  cases state with
  | neverUsed =>
    simp only at hprepared
    split at hprepared <;> cases hprepared
  | live current => rw [KeyState.provenance,hused _ _ _ hprepared]
  | deleted q => rw [KeyState.provenance,hused _ _ _ hprepared]

def Addresses (key : ApplicationKey) (request : KeyRequest) (f : OperationFields) : Prop :=
  request.contents.all (fun contents => contents.shape.kind = key.kind) = true ∧
    request.metadata.expected.entity?.all (fun id => id = f.incarnation) = true

instance (key : ApplicationKey) (request : KeyRequest) (f : OperationFields) :
    Decidable (Addresses key request f) := inferInstanceAs (Decidable (_ ∧ _))

theorem KeyInv.refuses_other (h : KeyInv key s)
    (hcurrent : s.state.provenance = some p) (hother : ¬ Addresses key request p.fields) :
    classifyKey key s.state request = .error .kindMismatch ∨
      classifyKey key s.state request = .error .incarnationConflict := by
  unfold classifyKey
  split
  · exact .inl rfl
  · rename_i hcontents
    have hnames : (request.metadata.expected.entity?.any fun id =>
        decide (id ≠ p.fields.incarnation)) = true := by
      by_contra hsame
      refine hother ⟨?_,?_⟩
      · cases hrequest : request.contents with
        | none => rfl
        | some contents => simpa [hrequest] using hcontents
      · cases hid : request.metadata.expected.entity? with
        | none => rfl
        | some id => simpa [hid] using hsame
    have hused : ∀ shape : Option EntityShape,∀ deleted,
        validateProvenance (some key) p deleted = .ok () →
        shape.all (fun shape => shape.kind = key.kind) = true →
        prepareUsed key p shape deleted request.metadata = .error .incarnationConflict := by
      intro shape deleted hvalid hshape
      have hkind : (shape.any fun shape => decide (shape.kind ≠ key.kind)) = false := by
        cases shape with
        | none => rfl
        | some shape => simpa using hshape
      unfold prepareUsed
      rw [hvalid,ok_bind,hkind,hnames]
      rfl
    have hevidence:=h.evidence
    unfold Evidence at hevidence
    unfold prepareKey
    split
    · exact .inl rfl
    · refine .inr ?_
      cases hstate : s.state with
      | neverUsed =>
        rw [hstate] at hcurrent
        cases hcurrent
      | live current =>
        rw [hstate] at hcurrent hevidence
        obtain rfl := Option.some.inj hcurrent
        simp only
        rw [hused _ _ hevidence.2.1 (by simpa using hevidence.2.2)]
        rfl
      | deleted q =>
        rw [hstate] at hcurrent hevidence
        obtain rfl := Option.some.inj hcurrent
        simp only
        rw [hused _ _ hevidence.2 rfl]
        rfl

theorem KeyInv.current_last (h : KeyInv key s) :
    s.state.provenance.map OperationProvenance.fields = s.installed.getLast? := by
  have hevidence:=h.evidence
  unfold Evidence at hevidence
  cases hstate : s.state with
  | neverUsed =>
    rw [hstate] at hevidence
    simp only at hevidence
    rw [hevidence]
    rfl
  | live current =>
    rw [hstate] at hevidence
    exact hevidence.1.symm
  | deleted q =>
    rw [hstate] at hevidence
    exact hevidence.1.symm

theorem KeyInv.reachable {events : List KeyEvent}
    (run : Run (keyStep key) anyEvent .fresh events s) : KeyInv key s :=
  run.invariant (KeyInv key) ⟨rfl,.nil⟩ fun _ _ _ hinv _ hstep => hinv.step hstep

end Repeats

/-- Every change that names no live identity brings in one that the key has not had. -/
def NewIdentities (installed : List OperationFields) : Prop :=
  installed.Pairwise fun f g => g.expected.entity? = none → g.incarnation ≠ f.incarnation

def NoReuse (installed : List OperationFields) : Prop :=
  installed.Pairwise fun f g => f.deleteMode.isSome = true → g.incarnation ≠ f.incarnation

instance (installed : List OperationFields) : Decidable (NewIdentities installed) :=
  inferInstanceAs (Decidable (List.Pairwise _ _))

instance (installed : List OperationFields) : Decidable (NoReuse installed) :=
  inferInstanceAs (Decidable (List.Pairwise _ _))

theorem retired_absent {f g : OperationFields} {rest : List OperationFields}
    (hchain : (g::rest).IsChain Succeeds) (hg : g.incarnation ≠ f.incarnation)
    (hnew : ∀ h ∈ rest,h.expected.entity? = none → h.incarnation ≠ f.incarnation) :
    ∀ h ∈ g::rest,h.incarnation ≠ f.incarnation := by
  induction rest generalizing g with
  | nil =>
    intro h hmem
    rw [mem_singleton.mp hmem]
    exact hg
  | cons next rest ih =>
    obtain ⟨hsucceeds,htail⟩ := isChain_cons_cons.mp hchain
    have hnext : next.incarnation ≠ f.incarnation := by
      rcases hsucceeds.incarnation with ⟨-,hsame⟩ | ⟨-,-,hexpected,-⟩
      · rw [hsame]
        exact hg
      · exact hnew next mem_cons_self (by rw [hexpected]; rfl)
    intro h hmem
    rcases mem_cons.mp hmem with rfl | hmem
    · exact hg
    · exact ih htail hnext (fun k hk => hnew k (mem_cons_of_mem _ hk)) h hmem

variable {installed : List OperationFields}

theorem NewIdentities.noReuse
    (hchain : installed.IsChain Succeeds) (hnew : NewIdentities installed) : NoReuse installed := by
  induction installed with
  | nil => exact .nil
  | cons f rest ih =>
    obtain ⟨hhead,htail⟩ := pairwise_cons.mp hnew
    refine pairwise_cons.mpr ⟨?_,ih hchain.tail htail⟩
    intro g hg hgone
    cases rest with
    | nil => cases hg
    | cons next rest =>
      obtain ⟨hsucceeds,hrest⟩ := isChain_cons_cons.mp hchain
      have hnext : next.incarnation ≠ f.incarnation := by
        rcases hsucceeds.incarnation with ⟨hlive,-⟩ | ⟨-,-,-,hne⟩
        · rw [hlive] at hgone
          cases hgone
        · exact hne
      exact retired_absent hrest hnext (fun k hk => hhead k (mem_cons_of_mem _ hk)) g hg

theorem revisions_increase (hchain : installed.IsChain Succeeds) :
    installed.Pairwise fun f g => f.installedRevision.get < g.installedRevision.get ∧
      f.originalGeneration < g.originalGeneration := by
  have htrans : IsTrans OperationFields fun f g =>
      f.installedRevision.get < g.installedRevision.get ∧
        f.originalGeneration < g.originalGeneration :=
    ⟨fun _ _ _ hfg hgh => ⟨BitVec.lt_trans hfg.1 hgh.1,BitVec.lt_trans hfg.2 hgh.2⟩⟩
  exact (hchain.imp fun _ _ h => ⟨h.revision,h.generation⟩).pairwise

theorem keyStep_replay {key : ApplicationKey} {s : KeyHistory} {request : KeyRequest}
    {p : OperationProvenance} (h : classifyKey key s.state request = .ok (.replay p))
    (incarnation : EntityId) (generation : GraphGeneration) :
    keyStep key s (.request request incarnation generation) = some s := by
  simp only [keyStep,h]
  rfl

/-- Every history of one key. -/
theorem key_history (key : ApplicationKey) {s : KeyHistory} {events : List KeyEvent}
    (run : Run (keyStep key) anyEvent .fresh events s) :
    (s.installed.Pairwise fun f g => f.installedRevision.get < g.installedRevision.get ∧
      f.originalGeneration < g.originalGeneration) ∧
    (s.installed.IsChain fun f g => f.deleteMode = none ∧ g.incarnation = f.incarnation ∨
      f.deleteMode.isSome = true ∧ g.operation = .structuredRecreate ∧
        g.expected = .deletion f.installedRevision ∧ g.incarnation ≠ f.incarnation) ∧
    (NewIdentities s.installed → NoReuse s.installed) ∧
    s.state.provenance.map OperationProvenance.fields = s.installed.getLast? ∧
    (∀ request p,classifyKey key s.state request = .ok (.replay p) →
      s.state.provenance = some p ∧ ∀ incarnation generation,
        keyStep key s (.request request incarnation generation) = some s) ∧
    ∀ request p,s.state.provenance = some p →
      request.metadata.revision = p.fields.installedRevision →
      (Addresses key request p.fields → classifyKey key s.state request =
        if SameRequest request s.state p.fields then .ok (.replay p)
        else .error .revisionConflict) ∧
      (¬ Addresses key request p.fields → classifyKey key s.state request = .error .kindMismatch ∨
        classifyKey key s.state request = .error .incarnationConflict) := by
  have hinv:=KeyInv.reachable run
  refine ⟨revisions_increase hinv.chain,hinv.chain.imp fun _ _ h => h.incarnation,
    fun hnew => hnew.noReuse hinv.chain,hinv.current_last,?_,?_⟩
  · intro request p hreplay
    exact ⟨classifyKey_replay hreplay,keyStep_replay hreplay⟩
  · intro request p hcurrent hrevision
    refine ⟨?_,hinv.refuses_other hcurrent⟩
    intro haddresses
    exact hinv.repeat_current hcurrent haddresses.1 hrevision haddresses.2

section Example

def exampleKey : ApplicationKey := ⟨.node,"people","ada"⟩

def exampleRevision (n : Fin 10) : GraphRevision :=
  ⟨BitVec.ofNat 64 (n.val+1),by revert n; decide⟩

def exampleContents : CanonicalRecord := ⟨.node,1,0,[0],rfl⟩

def recreateEvents (again : EntityId) : List KeyEvent :=
  [.request (.create (exampleRevision 0) exampleContents) (.node 7) 1,
    .cypher (.delete .detach) (.node 7) 2,
    .request (.recreate (exampleRevision 2) (exampleRevision 1) exampleContents) (.node 8) 3,
    .request (.delete (exampleRevision 3) (.node 8) .restrict) (.node 8) 4,
    .request (.recreate (exampleRevision 4) (exampleRevision 3) exampleContents) again 5]

theorem key_history_recreated : ∃ s,
    Run (keyStep exampleKey) anyEvent .fresh (recreateEvents (.node 9)) s ∧
      s.installed.length = 5 ∧ NewIdentities s.installed ∧ NoReuse s.installed := by
  have hsome : ((execute (keyStep exampleKey) anyEvent .fresh (recreateEvents (.node 9))).any
      fun s => s.installed.length = 5 ∧ NewIdentities s.installed) = true := by
    decide +kernel
  obtain ⟨s,hs,hnew⟩ := Option.any_eq_true _ _ |>.mp hsome
  simp only [decide_eq_true_eq] at hnew
  obtain ⟨-,-,hreuse,-⟩ := key_history exampleKey (Run.of_execute hs)
  exact ⟨s,Run.of_execute hs,hnew.1,hnew.2,hreuse hnew.2⟩

/-- The identity that the first deletion retired is accepted after the second one, and
a second request for the current revision that names another identity is told so. -/
theorem key_history_reused : (∃ s,
      Run (keyStep exampleKey) anyEvent .fresh (recreateEvents (.node 7)) s ∧
        ¬ NoReuse s.installed) ∧
    ∃ s p,Run (keyStep exampleKey) anyEvent .fresh
        [.request (.create (exampleRevision 0) exampleContents) (.node 7) 1] s ∧
      s.state.provenance = some p ∧ p.fields.installedRevision = exampleRevision 0 ∧
      classifyKey exampleKey s.state (.put (exampleRevision 0) (.node 8) exampleContents) =
        .error .incarnationConflict := by
  refine ⟨?_,?_⟩
  · have hsome : ((execute (keyStep exampleKey) anyEvent .fresh (recreateEvents (.node 7))).any
        fun s => ¬ NoReuse s.installed) = true := by
      decide +kernel
    obtain ⟨s,hs,hreuse⟩ := Option.any_eq_true _ _ |>.mp hsome
    exact ⟨s,Run.of_execute hs,by simpa using hreuse⟩
  · have hsome : ((execute (keyStep exampleKey) anyEvent .fresh
        [.request (.create (exampleRevision 0) exampleContents) (.node 7) 1]).any fun s =>
          s.state.provenance.any fun p => p.fields.installedRevision = exampleRevision 0 ∧
            classifyKey exampleKey s.state
              (.put (exampleRevision 0) (.node 8) exampleContents) =
                .error .incarnationConflict) = true := by
      decide +kernel
    obtain ⟨s,hs,hrest⟩ := Option.any_eq_true _ _ |>.mp hsome
    obtain ⟨p,hp,hrest⟩ := Option.any_eq_true _ _ |>.mp hrest
    simp only [decide_eq_true_eq] at hrest
    exact ⟨s,p,Run.of_execute hs,hp,hrest.1,hrest.2⟩

end Example

end Zeppelin.PropertyGraph
