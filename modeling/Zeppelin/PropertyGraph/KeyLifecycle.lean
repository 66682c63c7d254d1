import Zeppelin.Machine.Except
import Zeppelin.PropertyGraph.Identity

/-! property_graph/key_lifecycle.rs -/

namespace Zeppelin.PropertyGraph

/-- A validated image: the source has the length that its fingerprint says. -/
structure CanonicalRecord where
  shape : EntityShape
  bytes : ℕ
  hash : U64
  source : Bytes
  length : source.length = bytes
  deriving DecidableEq

structure CurrentEntity where
  provenance : OperationProvenance
  contents : CanonicalRecord
  deriving DecidableEq

inductive KeyState where
  | neverUsed
  | live (current : CurrentEntity)
  | deleted (provenance : OperationProvenance)
  deriving DecidableEq

inductive KeyRequest where
  | create (revision : GraphRevision) (contents : CanonicalRecord)
  | put (revision : GraphRevision) (expected : EntityId) (contents : CanonicalRecord)
  | delete (revision : GraphRevision) (expected : EntityId) (mode : GraphDeleteMode)
  | recreate (revision deletedRevision : GraphRevision) (contents : CanonicalRecord)
  deriving DecidableEq

inductive KeyLifecycleError where
  | provenanceKindMismatch
  | kindMismatch
  | invalidState
  | missingKey
  | stale (current : GraphRevision)
  | revisionConflict
  | alreadyExists
  | deletedKey
  | notDeleted
  | incarnationConflict
  | deletionRevisionConflict
  | relationshipIdentityChange
  | invalidInstalledIdentity
  | invalidGeneration
  | revisionOverflow
  deriving DecidableEq

structure PendingKeyChange where
  key : Option ApplicationKey
  kind : EntityKind
  operation : GraphOperation
  revision : GraphRevision
  expected : ExpectedGraphState
  deleteMode : Option GraphDeleteMode
  existing : Option EntityId
  retired : Option EntityId
  previousGeneration : GraphGeneration
  deriving DecidableEq

def PendingKeyChange.isDeletion (c : PendingKeyChange) : Bool := c.deleteMode.isSome

def OperationProvenance.fromFields (fields : OperationFields) :
    Except KeyLifecycleError OperationProvenance :=
  if h : fields.kindsAgree = true then .ok ⟨fields,h⟩ else .error .provenanceKindMismatch

def PendingKeyChange.fields (c : PendingKeyChange) (incarnation : EntityId)
    (generation : GraphGeneration) : OperationFields where
  operation := c.operation
  key := c.key
  requestedRevision := c.revision
  installedRevision := c.revision
  expected := c.expected
  incarnation := incarnation
  deleteMode := c.deleteMode
  originalGeneration := generation

def PendingKeyChange.install (c : PendingKeyChange) (incarnation : EntityId)
    (generation : GraphGeneration) : Except KeyLifecycleError OperationProvenance :=
  if incarnation.kind ≠ c.kind then .error .kindMismatch
  else if (c.existing.any fun id => id ≠ incarnation) || c.retired = some incarnation then
    .error .invalidInstalledIdentity
  else if generation ≤ c.previousGeneration then .error .invalidGeneration
  else OperationProvenance.fromFields (c.fields incarnation generation)

inductive KeyDecision where
  | noOp
  | change (change : PendingKeyChange)
  | replay (provenance : OperationProvenance)
  deriving DecidableEq

def contentsEqual (left right : CanonicalRecord) : Bool :=
  left.shape = right.shape && left.bytes = right.bytes && left.hash = right.hash &&
    left.source = right.source

def validOrigin (f : OperationFields) (deleted : Bool) : Bool :=
  match f.operation with
  | .structuredCreate => !deleted && f.key.isSome && f.expected = .absent
  | .structuredPut => !deleted && f.key.isSome && f.expected = .entity f.incarnation
  | .structuredDelete => deleted && f.key.isSome && f.expected = .entity f.incarnation
  | .structuredRecreate => !deleted && f.key.isSome &&
      match f.expected with
      | .deletion revision => revision.get < f.installedRevision.get
      | _ => false
  | .cypherEdit => f.expected = .entity f.incarnation || !deleted && f.expected = .absent

def validateProvenance (key : Option ApplicationKey) (p : OperationProvenance) (deleted : Bool) :
    Except KeyLifecycleError Unit :=
  if !validOrigin p.fields deleted || p.fields.key ≠ key ||
      p.fields.requestedRevision ≠ p.fields.installedRevision ||
      p.fields.originalGeneration = 0 || p.fields.deleteMode.isSome != deleted then
    .error .invalidState
  else .ok ()

structure KeyRequestMetadata where
  operation : GraphOperation
  revision : GraphRevision
  expected : ExpectedGraphState
  deleteMode : Option GraphDeleteMode
  deriving DecidableEq

def KeyRequest.metadata : KeyRequest → KeyRequestMetadata
  | .create revision _ => ⟨.structuredCreate,revision,.absent,none⟩
  | .put revision expected _ => ⟨.structuredPut,revision,.entity expected,none⟩
  | .delete revision expected mode => ⟨.structuredDelete,revision,.entity expected,some mode⟩
  | .recreate revision deletedRevision _ =>
    ⟨.structuredRecreate,revision,.deletion deletedRevision,none⟩

def KeyRequest.contents : KeyRequest → Option CanonicalRecord
  | .create _ contents | .put _ _ contents | .recreate _ _ contents => some contents
  | .delete .. => none

inductive KeyPreparation where
  | change (change : PendingKeyChange)
  | compareReplay (provenance : OperationProvenance)
  deriving DecidableEq

def pending (key : ApplicationKey) (request : KeyRequestMetadata)
    (previous : Option OperationFields) (deleted : Bool) : PendingKeyChange where
  key := some key
  kind := key.kind
  operation := request.operation
  revision := request.revision
  expected := request.expected
  deleteMode := request.deleteMode
  existing := (previous.filter fun _ => !deleted).map OperationFields.incarnation
  retired := (previous.filter fun _ => deleted).map OperationFields.incarnation
  previousGeneration := previous.elim 0 OperationFields.originalGeneration

def admitOperation (deleted : Bool) (request : KeyRequestMetadata) (f : OperationFields) :
    Except KeyLifecycleError Unit :=
  match deleted,request.operation with
  | false,.structuredPut | false,.structuredDelete => .ok ()
  | false,.structuredCreate => .error .alreadyExists
  | false,_ => .error .notDeleted
  | true,.structuredRecreate =>
    if request.expected = .deletion f.installedRevision then .ok ()
    else .error .deletionRevisionConflict
  | true,_ => .error .deletedKey

def prepareUsed (key : ApplicationKey) (p : OperationProvenance) (shape : Option EntityShape)
    (deleted : Bool) (request : KeyRequestMetadata) : Except KeyLifecycleError KeyPreparation := do
  validateProvenance (some key) p deleted
  if shape.any fun shape => shape.kind ≠ key.kind then .error .invalidState
  else if request.expected.entity?.any fun id => id ≠ p.fields.incarnation then
    .error .incarnationConflict
  else if request.revision.get < p.fields.installedRevision.get then
    .error (.stale p.fields.installedRevision)
  else if request.revision = p.fields.installedRevision then
    if request.operation ≠ p.fields.operation ∨ request.revision ≠ p.fields.requestedRevision ∨
        request.expected ≠ p.fields.expected ∨ request.deleteMode ≠ p.fields.deleteMode then
      .error .revisionConflict
    else .ok (.compareReplay p)
  else do
    admitOperation deleted request p.fields
    return .change (pending key request (some p.fields) deleted)

def prepareKey (key : ApplicationKey) (state : KeyState) (request : KeyRequestMetadata) :
    Except KeyLifecycleError KeyPreparation :=
  if request.expected.entity?.any fun id => id.kind ≠ key.kind then .error .kindMismatch
  else match state with
    | .neverUsed =>
      if request.operation = .structuredCreate then .ok (.change (pending key request none false))
      else .error .missingKey
    | .live current =>
      prepareUsed key current.provenance (some current.contents.shape) false request
    | .deleted p => prepareUsed key p none true request

/-- A repeat has the contents that are there, or is a repeated deletion. -/
def repeats : Option CanonicalRecord → Option CanonicalRecord → Bool
  | some current,some requested => contentsEqual current requested
  | none,none => true
  | _,_ => false

def completeKey (prepared : KeyPreparation) (current requested : Option CanonicalRecord) :
    Except KeyLifecycleError KeyDecision :=
  match prepared with
  | .compareReplay p =>
    if repeats current requested then .ok (.replay p) else .error .revisionConflict
  | .change c =>
    if c.isDeletion != requested.isNone then .error .invalidState
    else if requested.any fun contents => contents.shape.kind ≠ c.kind then .error .kindMismatch
    else if c.operation = .structuredPut then
      match current,requested with
      | some current,some requested =>
        if current.shape ≠ requested.shape then .error .relationshipIdentityChange
        else .ok (.change c)
      | _,_ => .error .invalidState
    else .ok (.change c)

def KeyState.contents : KeyState → Option CanonicalRecord
  | .live current => some current.contents
  | _ => none

def classifyKey (key : ApplicationKey) (state : KeyState) (request : KeyRequest) :
    Except KeyLifecycleError KeyDecision :=
  if request.contents.any fun contents => contents.shape.kind ≠ key.kind then .error .kindMismatch
  else do
    let prepared ← prepareKey key state request.metadata
    completeKey prepared state.contents request.contents

inductive CypherEdit where
  | put (contents : CanonicalRecord)
  | delete (mode : GraphDeleteMode)
  deriving DecidableEq

def cypherChange (f : OperationFields) (deleteMode : Option GraphDeleteMode) :
    Except KeyLifecycleError KeyDecision :=
  match f.installedRevision.checkedNext with
  | none => .error .revisionOverflow
  | some revision => .ok (.change {
      key := f.key
      kind := f.incarnation.kind
      operation := .cypherEdit
      revision := revision
      expected := .entity f.incarnation
      deleteMode := deleteMode
      existing := some f.incarnation
      retired := none
      previousGeneration := f.originalGeneration })

def classifyCypher (current : Option CurrentEntity) (edit : CypherEdit) :
    Except KeyLifecycleError KeyDecision :=
  match current with
  | none => .ok .noOp
  | some current => do
    validateProvenance current.provenance.fields.key current.provenance false
    if current.contents.shape.kind ≠ current.provenance.fields.incarnation.kind then
      .error .invalidState
    else match edit with
      | .put final =>
        if final.shape.kind ≠ current.provenance.fields.incarnation.kind then .error .kindMismatch
        else if final.shape ≠ current.contents.shape then .error .relationshipIdentityChange
        else if contentsEqual current.contents final then .ok .noOp
        else cypherChange current.provenance.fields none
      | .delete mode => cypherChange current.provenance.fields (some mode)

end Zeppelin.PropertyGraph
