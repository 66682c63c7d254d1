import Zeppelin.Bytes.Text

/-! property_graph/identity.rs, provenance.rs -/

namespace Zeppelin.PropertyGraph

abbrev NodeId := U128
abbrev RelId := U128
abbrev GraphGeneration := U64

inductive EntityKind where
  | node
  | relationship
  deriving DecidableEq

inductive EntityId where
  | node (id : NodeId)
  | relationship (id : RelId)
  deriving DecidableEq

def EntityId.kind : EntityId → EntityKind
  | .node _ => .node
  | .relationship _ => .relationship

@[ext] structure GraphRevision where
  get : U64
  pos : get ≠ 0
  deriving DecidableEq

theorem one_revision : (1 : U64) ≠ 0 := by decide

def GraphRevision.checkedNext (r : GraphRevision) : Option GraphRevision :=
  if h : r.get.toNat+1 < 2^64 then
    some ⟨r.get+1,by
      intro hzero
      have hnat:=congrArg BitVec.toNat hzero
      rw [BitVec.toNat_add_of_lt h] at hnat
      simp at hnat⟩
  else none

theorem GraphRevision.checkedNext_toNat {r next : GraphRevision} (h : r.checkedNext = some next) :
    next.get.toNat = r.get.toNat+1 := by
  unfold GraphRevision.checkedNext at h
  split at h
  · rename_i hlt
    obtain rfl := Option.some.inj h
    exact BitVec.toNat_add_of_lt hlt
  · cases h

structure ApplicationKey where
  kind : EntityKind
  keySpace : String
  key : String
  deriving DecidableEq

inductive GraphOperation where
  | structuredCreate
  | structuredPut
  | structuredDelete
  | structuredRecreate
  | cypherEdit
  deriving DecidableEq

inductive ExpectedGraphState where
  | absent
  | entity (id : EntityId)
  | deletion (revision : GraphRevision)
  deriving DecidableEq

inductive GraphDeleteMode where
  | restrict
  | detach
  deriving DecidableEq

structure OperationFields where
  operation : GraphOperation
  key : Option ApplicationKey
  requestedRevision : GraphRevision
  installedRevision : GraphRevision
  expected : ExpectedGraphState
  incarnation : EntityId
  deleteMode : Option GraphDeleteMode
  originalGeneration : GraphGeneration
  deriving DecidableEq

def ExpectedGraphState.entity? : ExpectedGraphState → Option EntityId
  | .entity id => some id
  | _ => none

def OperationFields.kindsAgree (f : OperationFields) : Bool :=
  (f.key.all fun key => key.kind = f.incarnation.kind) &&
    f.expected.entity?.all fun id => id.kind = f.incarnation.kind

structure OperationProvenance where
  fields : OperationFields
  kinds : fields.kindsAgree = true
  deriving DecidableEq

inductive EntityShape where
  | node
  | relationship (source target : NodeId) (relationshipType : String)
  deriving DecidableEq

def EntityShape.kind : EntityShape → EntityKind
  | .node => .node
  | .relationship .. => .relationship

end Zeppelin.PropertyGraph
