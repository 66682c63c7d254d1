import Zeppelin.GraphWal.Change

namespace Zeppelin.GraphWal
open PropertyGraph List

/-- The same position with marks that are not lower. -/
structure CommitState.Within (state looser : CommitState) : Prop where
  store : looser.store = state.store
  generation : looser.generation = state.generation
  sequence : looser.sequence = state.sequence
  node : state.highWaters.node ≤ looser.highWaters.node
  relationship : state.highWaters.relationship ≤ looser.highWaters.relationship
  serial : state.highWaters.creationSerial ≤ looser.highWaters.creationSerial

theorem CommitState.Within.refl (state : CommitState) : state.Within state :=
  ⟨rfl,rfl,rfl,BitVec.le_refl _,BitVec.le_refl _,BitVec.le_refl _⟩

section Within
variable {state looser : CommitState}

theorem object_within (hstate : state.Within looser) {v : ArtifactDescriptor}
    (h : object v state = .ok ()) : object v looser = .ok () := by
  obtain ⟨⟨⟩,hvalid,h⟩ := bind_eq_ok h
  rw [object,hvalid,ok_bind,hstate.store,hstate.generation]
  have hserial:=BitVec.le_def.mp hstate.serial
  split_ifs at h with hstore hmark
  rw [if_neg hstore,if_neg]
  simp only [BitVec.lt_def,not_or] at hmark ⊢
  omega

variable {v : RequiredRef} {kind : BlockKind} {fence fence' : U64}

theorem validateRef_within (hstate : state.Within looser)
    (h : validateRef v state kind = .ok ()) : validateRef v looser kind = .ok () := by
  obtain ⟨⟨⟩,hvalid,h⟩ := bind_eq_ok h
  rw [validateRef,hvalid,ok_bind,hstate.store,hstate.generation]
  have hserial:=BitVec.le_def.mp hstate.serial
  split_ifs at h with hstore hmark hkind
  rw [if_neg hstore,if_neg,if_neg hkind]
  simp only [BitVec.lt_def,not_or] at hmark ⊢
  omega

theorem validateRef_kind (h : validateRef v state kind = .ok ()) : v.block.kind = kind := by
  obtain ⟨⟨⟩,-,h⟩ := bind_eq_ok h
  split_ifs at h with hstore hmark hkind
  rw [not_or,not_not] at hkind
  exact hkind.1

theorem candidatesFrom_within (hstate : state.Within looser)
    (hfence : fence ≤ fence') {previous : Option ArtifactId} {v : List ArtifactDescriptor}
    (h : candidatesFrom state fence previous v = .ok ()) :
    candidatesFrom looser fence' previous v = .ok () := by
  induction v generalizing previous with
  | nil => rfl
  | cons a v ih =>
    obtain ⟨⟨⟩,hobject,h⟩ := bind_eq_ok h
    rw [candidatesFrom,object_within hstate hobject,ok_bind]
    rw [BitVec.le_def] at hfence
    split_ifs at h with habove hprevious
    rw [if_neg,if_neg hprevious]
    · exact ih h
    · rw [BitVec.lt_def] at habove ⊢
      omega

theorem candidates_within (hstate : state.Within looser)
    (hfence : fence ≤ fence') {v : List ArtifactDescriptor}
    (h : candidates v state fence = .ok ()) : candidates v looser fence' = .ok () := by
  unfold candidates at h ⊢
  obtain ⟨hcount,h⟩ := of_ite_error h
  rw [if_neg hcount]
  exact candidatesFrom_within hstate hfence h

theorem validateIntent_within (hstate : state.Within looser) {v : ReclaimIntent}
    (h : validateIntent v state = .ok ()) : validateIntent v looser = .ok () := by
  unfold validateIntent at h ⊢
  obtain ⟨hcapture,h⟩ := of_ite_error h
  obtain ⟨⟨⟩,hroots,h⟩ := bind_eq_ok h
  obtain ⟨⟨⟩,hmark,h⟩ := bind_eq_ok h
  rw [if_neg,validateRef_within hstate hroots,ok_bind,validateRef_within hstate hmark,ok_bind]
  · exact candidates_within hstate (BitVec.le_refl _) h
  · have hserial:=BitVec.le_def.mp hstate.serial
    rw [hstate.generation,hstate.sequence]
    simp only [BitVec.lt_def,BitVec.le_def,not_or] at hcapture ⊢
    omega

theorem validateComplete_within (hstate : state.Within looser) {v : ReclaimComplete}
    (h : validateComplete v state = .ok ()) : validateComplete v looser = .ok () := by
  obtain ⟨⟨⟩,hintent,h⟩ := bind_eq_ok h
  obtain ⟨⟨⟩,hcompleted,h⟩ := bind_eq_ok h
  obtain ⟨⟨⟩,hremaining,h⟩ := bind_eq_ok h
  rw [validateComplete,validateRef_within hstate hintent,ok_bind,
    candidates_within hstate hstate.serial hcompleted,ok_bind,
    candidates_within hstate hstate.serial hremaining,ok_bind]
  exact h

theorem highWaterOf_within (hstate : state.Within looser) (kind : EntityKind) :
    highWaterOf state kind ≤ highWaterOf looser kind := by
  cases kind with
  | node => exact hstate.node
  | relationship => exact hstate.relationship

theorem validateCanonical_within (hstate : state.Within looser) {v : Mutation}
    (h : validateCanonical v state = .ok ()) : validateCanonical v looser = .ok () := by
  unfold validateCanonical at h ⊢
  split
  · rfl
  · rename_i r hr
    rw [hr] at h
    simp only at h
    obtain ⟨hkind,h⟩ := of_ite_error h
    rw [if_neg hkind]
    exact validateRef_within hstate h

theorem validateMutation_within (hstate : state.Within looser) {v : Mutation}
    (h : validateMutation v state = .ok ()) : validateMutation v looser = .ok () := by
  unfold validateMutation at h ⊢
  rw [hstate.generation]
  split_ifs at h with h₁ h₂ h₃ h₄ h₅ h₆
  rw [if_neg h₁,if_neg h₂,if_neg h₃,if_neg,if_neg h₅,if_neg h₆]
  · exact validateCanonical_within hstate h
  · have hmark:=BitVec.le_def.mp (highWaterOf_within hstate v.provenance.incarnation.kind)
    rintro ⟨hversion,hid | hid⟩
    · exact h₄ ⟨hversion,.inl hid⟩
    · rw [BitVec.lt_def] at hid
      exact h₄ ⟨hversion,.inr (BitVec.lt_def.mpr (by omega))⟩

end Within

@[simp] theorem readKind_tag (kind : EntityKind) : readKind (kindTag kind) = .ok kind := by
  cases kind <;> rfl

theorem readEntity_bytes {v : EntityId} (h : v.kind = .relationship → entityWord v ≠ 0)
    (rest : Bytes) : readEntity (entityBytes v++rest) = .ok (v,rest) := by
  simp only [readEntity,entityBytes,append_assoc,u8_append,ok_bind,readKind_tag,
    u128_append]
  cases v with
  | node id => rfl
  | relationship id =>
    have hid : entityWord (.relationship id) ≠ 0 := h rfl
    simp only [EntityId.kind]
    rw [if_neg hid]
    rfl

@[simp] theorem readRevision_bytes (v : GraphRevision) (rest : Bytes) :
    readRevision (toLe 8 v.get++rest) = .ok (v,rest) := by
  simp only [readRevision,u64_append,ok_bind,dif_neg v.pos]
  rfl

theorem text_blob {s : String} (h : s.utf8ByteSize ≤ maxGraphInputBytes) (rest : Bytes) :
    text (blob (utf8Bytes s)++rest) = .ok (s,rest) := by
  have hlen : (BitVec.ofNat 64 (utf8Bytes s).length).toNat = s.utf8ByteSize := by
    rw [utf8Bytes_length,BitVec.toNat_ofNat,Nat.mod_eq_of_lt]
    simp only [maxGraphInputBytes] at h
    omega
  simp only [text,blob,append_assoc,u64_append,ok_bind,hlen]
  rw [if_neg (by omega),take_append _ _ _ (utf8Bytes_length s),ok_bind]
  simp only [fromUtf8_utf8Bytes]
  rfl

theorem readKey_bytes {key : Option ApplicationKey}
    (h : ∀ k ∈ key,k.keySpace.utf8ByteSize+k.key.utf8ByteSize ≤ maxGraphInputBytes)
    (rest : Bytes) : readKey (keyBytes key++rest) = .ok (key,rest) := by
  cases key with
  | none =>
    simp only [readKey,keyBytes,u8_append,ok_bind]
    rfl
  | some k =>
    have hsize:=h k rfl
    simp only [readKey,keyBytes,append_assoc,u8_append,ok_bind,readKind_tag]
    rw [if_neg (by decide),if_pos trivial,text_blob (by omega),ok_bind]
    simp only
    rw [text_blob (by omega),ok_bind]
    simp only [applicationKey]
    rw [if_neg (by omega)]
    rfl

theorem readExpected_bytes {v : ExpectedGraphState}
    (h : ∀ id,v = .entity id → id.kind = .relationship → entityWord id ≠ 0) (rest : Bytes) :
    readExpected (expectedBytes v++rest) = .ok (v,rest) := by
  cases v with
  | absent =>
    simp only [readExpected,expectedBytes,u8_append,ok_bind]
    rfl
  | entity id =>
    simp only [readExpected,expectedBytes,append_assoc,u8_append,ok_bind]
    rw [if_neg (by decide),if_pos trivial,readEntity_bytes (h id rfl),ok_bind]
    rfl
  | deletion revision =>
    simp only [readExpected,expectedBytes,append_assoc,u8_append,ok_bind]
    rw [if_neg (by decide),if_neg (by decide),if_pos trivial,readRevision_bytes,ok_bind]
    rfl

@[simp] theorem readOperation_tag (v : GraphOperation) : readOperation (operationTag v) = .ok v := by
  cases v <;> rfl

@[simp] theorem readDeleteMode_tag (v : Option GraphDeleteMode) :
    readDeleteMode (deleteModeTag v) = .ok v := by
  rcases v with-| mode
  · rfl
  · cases mode <;> rfl

theorem keySize_le (v : Mutation) : ∀ k ∈ v.provenance.key,
    k.keySpace.utf8ByteSize+k.key.utf8ByteSize ≤ (provenanceBytes v).length := by
  intro k hk
  rw [Option.mem_def] at hk
  simp only [provenanceBytes,hk,keyBytes,blob,length_append,toLe_length,utf8Bytes_length]
  omega

theorem readProvenance_bytes {v : Mutation} (hlen : (provenanceBytes v).length ≤ maxGraphInputBytes)
    (hversion : ¬ (v.provenanceVersion ≠ 1 ∧ v.provenanceVersion ≠ 2))
    (hid : v.provenance.incarnation.kind = .relationship →
      entityWord v.provenance.incarnation ≠ 0)
    (hexpected : ∀ id,v.provenance.expected = .entity id → id = v.provenance.incarnation)
    (rest : Bytes) : readProvenance (provenanceBytes v++rest) =
      .ok ((v.provenanceVersion,v.provenance),rest) := by
  simp only [readProvenance,provenanceBytes,append_assoc]
  rw [take_append _ _ 4 rfl,ok_bind]
  simp only [ne_eq,not_true_eq_false,if_false,u16_append,ok_bind]
  rw [if_neg hversion,u8_append,ok_bind]
  simp only [readOperation_tag,ok_bind]
  rw [readKey_bytes fun k hk => (keySize_le v k hk).trans hlen,ok_bind]
  simp only [readRevision_bytes,ok_bind]
  rw [readExpected_bytes fun id heq hkind => ?_,ok_bind]
  · simp only
    rw [readEntity_bytes hid,ok_bind]
    simp only [u8_append,ok_bind,readDeleteMode_tag,u64_append]
    rfl
  · rw [hexpected id heq] at hkind ⊢
    exact hid hkind

@[simp] theorem readMembership_flags (m : Membership) :
    readMembership (membershipFlags m) = m ∧ (membershipFlags m).toNat < 16 := by
  obtain ⟨a,b,c,d⟩ := m
  cases a <;> cases b <;> cases c <;> cases d <;> exact ⟨by decide,by decide⟩

theorem readLive_tag (live : Bool) : readLive (if live then 1 else 0) = .ok live := by
  cases live <;> rfl

theorem validateMutation_spec {v : Mutation} {state : CommitState}
    (h : validateMutation v state = .ok ()) :
    ¬ (v.provenanceVersion ≠ 1 ∧ v.provenanceVersion ≠ 2) ∧
      (v.provenance.incarnation.kind = .relationship →
        entityWord v.provenance.incarnation ≠ 0) ∧
      (∀ id,v.provenance.expected = .entity id → id = v.provenance.incarnation) ∧
      ∀ r ∈ v.canonical,r.block.kind = .canonicalImage ∨ r.block.kind = .extentList := by
  unfold validateMutation at h
  split_ifs at h with hversion hprovenance hnode hmark hlive hadmissible
  refine ⟨hversion,fun hkind hzero => ?_,fun id hid => ?_,fun r hr => ?_⟩
  · by_cases htwo : v.provenanceVersion = 2
    · exact hnode ⟨htwo,by rw [hkind]; decide⟩
    · have hone : v.provenanceVersion = 1 := by
        by_contra hne
        exact hversion ⟨hne,htwo⟩
      exact hmark ⟨hone,.inl hzero⟩
  · by_contra hne
    refine hprovenance (.inr (.inr (.inr ?_)))
    rw [hid]
    simpa [ExpectedGraphState.entity?] using hne
  · unfold validateCanonical at h
    rw [Option.mem_def.mp hr] at h
    simp only at h
    obtain ⟨hkind,h⟩ := of_ite_error h
    rw [not_and_or,not_not,not_not] at hkind
    exact hkind

theorem getMutation_put {v : Mutation} {state looser : CommitState} (hstate : state.Within looser)
    {bytes : Bytes} (h : putMutation v state = .ok bytes) (rest : Bytes) :
    getMutation looser (bytes++rest) = .ok (v,rest) := by
  obtain ⟨⟨⟩,hvalid,h⟩ := bind_eq_ok h
  obtain ⟨hlen,h⟩ := of_ite_error h
  obtain ⟨canonical,hcanonical,rfl⟩ := bind_pure_eq_ok h
  obtain ⟨hversion,hid,hexpected,hkind⟩ := validateMutation_spec hvalid
  have hmax : (provenanceBytes v).length ≤ maxGraphInputBytes := not_lt.mp hlen
  have hword : (BitVec.ofNat 64 (provenanceBytes v).length).toNat = (provenanceBytes v).length := by
    rw [BitVec.toNat_ofNat,Nat.mod_eq_of_lt]
    simp only [maxGraphInputBytes] at hmax
    omega
  have hprovenance:=readProvenance_bytes hmax hversion hid hexpected []
  rw [append_nil] at hprovenance
  have hoptional:=getOptional_put (v := v.canonical) (fun r hr => by
    rcases hkind r hr with h | h <;> rw [h] <;> rfl) canonical hcanonical rest
  have hflags:=readMembership_flags v.membership
  simp only [getMutation,append_assoc,u8_append,ok_bind,readLive_tag]
  rw [if_neg (by omega),zero_append,ok_bind,u64_append,ok_bind]
  simp only [hword]
  rw [if_neg hlen,take_append _ _ _ rfl,ok_bind]
  simp only [hprovenance,ok_bind,finish_nil,hoptional,hflags.1]
  rw [validateMutation_within hstate hvalid,ok_bind]
  rfl

theorem getCandidates_put (v : List ArtifactDescriptor) :
    RoundTrip putCandidates getCandidates v := by
  intro bytes h rest
  unfold putCandidates at h
  obtain ⟨hcount,h⟩ := of_ite_error h
  obtain ⟨rows,hrows,rfl⟩ := bind_pure_eq_ok h
  have hword : (BitVec.ofNat 32 v.length).toNat = v.length := by
    rw [BitVec.toNat_ofNat,Nat.mod_eq_of_lt (by omega)]
  simp only [getCandidates,append_assoc,u32_append,ok_bind,zero_append,hword]
  exact readRows_putMany putDescriptor_length (fun x _ => getDescriptor_put x) rows hrows rest

@[simp] theorem readInventoryState_tag (v : InventoryState) :
    readInventoryState (inventoryTag v).1 (inventoryTag v).2 = .ok v := by
  cases v with
  | prepared => rfl
  | retained => rfl
  | reclaimPending id =>
    simp only [readInventoryState,inventoryTag]
    rw [if_neg fun h => absurd h.1 (by decide),if_neg fun h => absurd h.1 (by decide),
      if_pos trivial,NonzeroId.new_get,ok_bind]
    rfl
  | reclaimed id =>
    simp only [readInventoryState,inventoryTag]
    rw [if_neg fun h => absurd h.1 (by decide),if_neg fun h => absurd h.1 (by decide),
      if_neg (by decide),if_pos trivial,NonzeroId.new_get,ok_bind]
    rfl

section Maintenance
variable {state looser : CommitState} {bytes : Bytes}

theorem getInventory_put {v : InventoryChange} (hstate : state.Within looser)
    (h : putInventory v state = .ok bytes) (rest : Bytes) :
    getInventory looser (bytes++rest) = .ok (v,rest) := by
  obtain ⟨⟨⟩,hvalid,h⟩ := bind_eq_ok h
  obtain ⟨artifact,hartifact,rfl⟩ := bind_pure_eq_ok h
  simp only [getInventory,append_assoc,getDescriptor_put v.object artifact hartifact,ok_bind,
    u8_append,zero_append,u128_append,readInventoryState_tag,object_within hstate hvalid]
  rfl

theorem getRef_of_validateRef {v : RequiredRef} {kind : BlockKind}
    (hkind : blockKind kind.id = .ok kind) (h : validateRef v state kind = .ok ()) :
    RoundTrip putRef getRef v := by
  refine getRef_put ?_
  rw [validateRef_kind h]
  exact hkind

theorem getIntent_put {v : ReclaimIntent} (hstate : state.Within looser)
    (h : putIntent v state = .ok bytes) (rest : Bytes) :
    getIntent looser (bytes++rest) = .ok (v,rest) := by
  obtain ⟨⟨⟩,hvalid,h⟩ := bind_eq_ok h
  obtain ⟨roots,hroots,h⟩ := bind_eq_ok h
  obtain ⟨mark,hmark,h⟩ := bind_eq_ok h
  obtain ⟨rows,hrows,rfl⟩ := bind_pure_eq_ok h
  have hrefs : validateRef v.protectedRoots state .commitParticipant = .ok () ∧
      validateRef v.completedMark state .commitParticipant = .ok () := by
    unfold validateIntent at hvalid
    obtain ⟨-,hvalid⟩ := of_ite_error hvalid
    obtain ⟨⟨⟩,hfirst,hvalid⟩ := bind_eq_ok hvalid
    obtain ⟨⟨⟩,hsecond,-⟩ := bind_eq_ok hvalid
    exact ⟨hfirst,hsecond⟩
  simp only [getIntent,append_assoc,u128_append,ok_bind,NonzeroId.new_get,u64_append,
    u8_append]
  rw [if_neg (by decide),zero_append,ok_bind,
    getRef_of_validateRef rfl hrefs.1 roots hroots,ok_bind]
  simp only [u64_append,ok_bind,getRef_of_validateRef rfl hrefs.2 mark hmark,
    getCandidates_put v.candidates rows hrows,validateIntent_within hstate hvalid]
  rfl

theorem getComplete_put {v : ReclaimComplete} (hstate : state.Within looser)
    (h : putComplete v state = .ok bytes) (rest : Bytes) :
    getComplete looser (bytes++rest) = .ok (v,rest) := by
  obtain ⟨⟨⟩,hvalid,h⟩ := bind_eq_ok h
  obtain ⟨intent,hintent,h⟩ := bind_eq_ok h
  obtain ⟨completed,hcompleted,h⟩ := bind_eq_ok h
  obtain ⟨remaining,hremaining,rfl⟩ := bind_pure_eq_ok h
  obtain ⟨⟨⟩,href,-⟩ := bind_eq_ok hvalid
  simp only [getComplete,append_assoc,u128_append,ok_bind,NonzeroId.new_get,
    getRef_of_validateRef rfl href intent hintent,u8_append]
  rw [if_neg (by decide),zero_append,ok_bind,
    getCandidates_put v.completed completed hcompleted,ok_bind]
  simp only [getCandidates_put v.remaining remaining hremaining,ok_bind,
    validateComplete_within hstate hvalid]
  rfl

theorem Change.read_write {c : Change} (hstate : state.Within looser)
    (h : c.write state = .ok bytes) : Change.read c.tag bytes looser = .ok c := by
  have hparse : Change.parse c.tag looser (bytes++[]) = .ok (c,[]) := by
    cases c with
    | mutation v =>
      rw [Change.tag,Change.parse,if_pos rfl,getMutation_put hstate h,ok_bind]
      rfl
    | inventory v =>
      rw [Change.tag,Change.parse,if_neg (by decide),if_pos rfl,getInventory_put hstate h,
        ok_bind]
      rfl
    | reclaimIntent v =>
      rw [Change.tag,Change.parse,if_neg (by decide),if_neg (by decide),if_pos rfl,
        getIntent_put hstate h,ok_bind]
      rfl
    | reclaimComplete v =>
      rw [Change.tag,Change.parse,if_neg (by decide),if_neg (by decide),if_neg (by decide),
        if_pos rfl,getComplete_put hstate h,ok_bind]
      rfl
  rw [append_nil] at hparse
  rw [Change.read,hparse,ok_bind]
  rfl

end Maintenance

end Zeppelin.GraphWal
