import Zeppelin.Manifest.Codec

namespace Zeppelin.Manifest
open Format Meta Planner List
open Reader (Reads ensure lift repeated putMany)

variable {bytes input rest : Bytes}

variable {n : ℕ} {id : U16} {segment : SegmentMeta}

theorem reads_take (h : bytes.length = n) : Reads (take n) bytes bytes := Reads.take _ h

theorem reads_u8 (v : U8) : Reads u8 (toLe 1 v) v := Reads.word _ 1 rfl v
theorem reads_u16 (v : U16) : Reads u16 (toLe 2 v) v := Reads.word _ 2 rfl v
theorem reads_u32 (v : U32) : Reads u32 (toLe 4 v) v := Reads.word _ 4 rfl v
theorem reads_u64 (v : U64) : Reads u64 (toLe 8 v) v := Reads.word _ 8 rfl v
theorem reads_u128 (v : U128) : Reads u128 (toLe 16 v) v := Reads.word _ 16 rfl v

theorem u8_ok {v : U8} (h : u8 input = .ok (v,rest)) : input = toLe 1 v++rest :=
  Reader.word_ok rfl h

theorem u16_ok {v : U16} (h : u16 input = .ok (v,rest)) : input = toLe 2 v++rest :=
  Reader.word_ok rfl h

theorem u32_ok {v : U32} (h : u32 input = .ok (v,rest)) : input = toLe 4 v++rest :=
  Reader.word_ok rfl h

theorem u64_ok {v : U64} (h : u64 input = .ok (v,rest)) : input = toLe 8 v++rest :=
  Reader.word_ok rfl h

theorem u128_ok {v : U128} (h : u128 input = .ok (v,rest)) : input = toLe 16 v++rest :=
  Reader.word_ok rfl h

theorem reads_reservedZeros (n : ℕ) (detail : Detail) :
    Reads (reservedZeros n detail) (zeros n) () :=
  (Reads.take _ (zeros_length n)).quiet (Reads.ensure _ (allZero_zeros n))

theorem reservedZeros_ok {detail : Detail} {u : Unit}
    (h : reservedZeros n detail input = .ok (u,rest)) : input = zeros n++rest := by
  obtain ⟨field,mid,hfield,h⟩ := Reader.bind_ok h
  obtain ⟨hinput,hlength⟩ := Reader.take_ok hfield
  obtain ⟨hzero,rfl⟩ := Reader.ensure_ok h
  rw [hinput,eq_zeros_of_allZero hzero,hlength]

theorem appendU32Len_ok (h : appendU32Len n = .ok bytes) :
    n < 2^32 ∧ bytes = toLe 4 (BitVec.ofNat 32 n) := by
  unfold appendU32Len at h
  split_ifs at h with hlt
  exact ⟨hlt,(Except.ok.inj h).symm⟩

theorem appendU32Len_toNat {word : U32} (h : n = word.toNat) :
    appendU32Len n = .ok (toLe 4 word) := by
  rw [appendU32Len,h,if_pos word.isLt,BitVec.ofNat_toNat,BitVec.setWidth_eq]

theorem toNat_length (h : n < 2^32) : (BitVec.ofNat 32 n).toNat = n := by
  rw [BitVec.toNat_ofNat,Nat.mod_eq_of_lt h]

variable {value : Bytes} {build : Option String} {tower : EmbeddingTower} {epoch : EpochMeta}
  {definition : ColumnDefinition}

theorem reads_bytesField (h : appendBytes value = .ok bytes) : Reads bytesField bytes value := by
  obtain ⟨length,hlength,rfl⟩ := bind_pure_eq_ok h
  obtain ⟨hlt,rfl⟩ := appendU32Len_ok hlength
  exact (reads_u32 _).bind (Reads.take _ (toNat_length hlt).symm)

theorem bytesField_ok (h : bytesField input = .ok (value,rest)) :
    ∃ bytes,appendBytes value = .ok bytes ∧ input = bytes++rest := by
  obtain ⟨length,mid,hlength,h⟩ := Reader.bind_ok h
  obtain ⟨rfl,hvalue⟩ := Reader.take_ok h
  refine ⟨toLe 4 length++value,?_,?_⟩
  · rw [appendBytes,appendU32Len_toNat hvalue,ok_bind]
    rfl
  · rw [u32_ok hlength,append_assoc]

theorem reads_string {value : String} (h : appendString value = .ok bytes) :
    Reads string bytes value := by
  have htext : utf8 (utf8Bytes value) = .ok value := by rw [utf8,fromUtf8_utf8Bytes]
  exact (reads_bytesField h).quiet (Reads.lift htext)

theorem string_ok {value : String} (h : string input = .ok (value,rest)) :
    ∃ bytes,appendString value = .ok bytes ∧ input = bytes++rest := by
  obtain ⟨field,mid,hfield,h⟩ := Reader.bind_ok h
  obtain ⟨htext,rfl⟩ := Reader.lift_ok h
  unfold utf8 at htext
  split at htext
  · rename_i text hutf8
    obtain rfl := Except.ok.inj htext
    rw [appendString,utf8Bytes_of_fromUtf8 hutf8]
    exact bytesField_ok hfield
  · cases htext

theorem reads_optionalIdentity (identity : Option EpochIdentity) :
    Reads optionalIdentity (appendOptionalIdentity identity) identity := by
  cases identity with
  | none =>
    exact (reads_u8 0).bind ((reads_reservedZeros 7 _).bind ((reads_u64 0).bind
      ((reads_u64 0).quiet (Reads.lift rfl))))
  | some identity =>
    exact (reads_u8 1).bind ((reads_reservedZeros 7 _).bind ((reads_u64 _).bind
      ((reads_u64 _).quiet (Reads.lift rfl))))

theorem optionalIdentity_ok {identity : Option EpochIdentity}
    (h : optionalIdentity input = .ok (identity,rest)) :
    input = appendOptionalIdentity identity++rest := by
  obtain ⟨tag,b1,htag,h⟩ := Reader.bind_ok h
  obtain ⟨⟨⟩,b2,hzeros,h⟩ := Reader.bind_ok h
  obtain ⟨embedding,b3,hembedding,h⟩ := Reader.bind_ok h
  obtain ⟨tokenizer,b4,htokenizer,h⟩ := Reader.bind_ok h
  obtain ⟨hvalue,rfl⟩ := Reader.lift_ok h
  rw [u8_ok htag,reservedZeros_ok hzeros,u64_ok hembedding,u64_ok htokenizer]
  unfold identityOf at hvalue
  split_ifs at hvalue with h0 hboth h1
  · obtain rfl := Except.ok.inj hvalue
    rw [h0,hboth.1,hboth.2]
    simp only [appendOptionalIdentity,append_assoc]
  · obtain rfl := Except.ok.inj hvalue
    rw [h1]
    simp only [appendOptionalIdentity,append_assoc]

theorem reads_optionalEpochId (epoch : Option EpochId) :
    Reads optionalEpochId (appendOptionalEpochId epoch) epoch := by
  cases epoch with
  | none =>
    exact (reads_u8 0).bind ((reads_reservedZeros 7 _).bind ((reads_u64 0).quiet (Reads.lift rfl)))
  | some epoch =>
    exact (reads_u8 1).bind ((reads_reservedZeros 7 _).bind ((reads_u64 _).quiet (Reads.lift rfl)))

theorem optionalEpochId_ok {epoch : Option EpochId}
    (h : optionalEpochId input = .ok (epoch,rest)) :
    input = appendOptionalEpochId epoch++rest := by
  obtain ⟨tag,b1,htag,h⟩ := Reader.bind_ok h
  obtain ⟨⟨⟩,b2,hzeros,h⟩ := Reader.bind_ok h
  obtain ⟨word,b3,hword,h⟩ := Reader.bind_ok h
  obtain ⟨hvalue,rfl⟩ := Reader.lift_ok h
  rw [u8_ok htag,reservedZeros_ok hzeros,u64_ok hword]
  unfold epochIdOf at hvalue
  split_ifs at hvalue with h0 hzero h1
  · obtain rfl := Except.ok.inj hvalue
    rw [h0,hzero]
    simp only [appendOptionalEpochId,append_assoc]
  · obtain rfl := Except.ok.inj hvalue
    rw [h1]
    simp only [appendOptionalEpochId,append_assoc]

theorem normalizationOf_id (v : Normalization) : normalizationOf v.id = .ok v := by
  cases v <;> rfl

theorem runtimeOf_id (v : EmbeddingRuntime) : runtimeOf v.id = .ok v := by
  cases v <;> rfl

theorem computeUnitsOf_id (v : ComputeUnits) : computeUnitsOf v.id = .ok v := by
  cases v <;> rfl

theorem id_of_normalizationOf {v : Normalization} (h : normalizationOf id = .ok v) : id = v.id := by
  unfold normalizationOf at h
  split_ifs at h with h0 h1 <;> obtain rfl := Except.ok.inj h <;> assumption

theorem id_of_runtimeOf {v : EmbeddingRuntime} (h : runtimeOf id = .ok v) : id = v.id := by
  unfold runtimeOf at h
  split_ifs at h with h1 h2 h3 <;> obtain rfl := Except.ok.inj h <;> assumption

theorem id_of_computeUnitsOf {v : ComputeUnits} (h : computeUnitsOf id = .ok v) : id = v.id := by
  unfold computeUnitsOf at h
  split_ifs at h with h1 h2 h3 h4 <;> obtain rfl := Except.ok.inj h <;> assumption

def osBuildField : Cursor (Option String) := do
  let tag ← u8
  reservedZeros 3 .osReserved
  osBuildOf tag

theorem reads_osBuildField (h : appendOsBuild build = .ok bytes) :
    Reads osBuildField bytes build := by
  cases build with
  | none =>
    obtain rfl := Except.ok.inj h
    exact (reads_u8 0).bind ((reads_reservedZeros 3 _).quiet (Reads.pure none))
  | some build =>
    obtain ⟨text,htext,rfl⟩ := bind_pure_eq_ok h
    exact (reads_u8 1).bind ((reads_reservedZeros 3 _).bind ((reads_string htext).last rfl))

theorem osBuildField_ok (h : osBuildField input = .ok (build,rest)) :
    ∃ bytes,appendOsBuild build = .ok bytes ∧ input = bytes++rest := by
  obtain ⟨tag,b1,htag,h⟩ := Reader.bind_ok h
  obtain ⟨⟨⟩,b2,hzeros,h⟩ := Reader.bind_ok h
  rw [u8_ok htag,reservedZeros_ok hzeros]
  unfold osBuildOf at h
  by_cases h0 : tag = 0
  · rw [if_pos h0] at h
    obtain ⟨rfl,rfl⟩ := Reader.pure_ok h
    exact ⟨_,rfl,by rw [h0,append_assoc]⟩
  · rw [if_neg h0] at h
    by_cases h1 : tag = 1
    · rw [if_pos h1] at h
      obtain ⟨text,b3,htext,h⟩ := Reader.bind_ok h
      obtain ⟨rfl,rfl⟩ := Reader.pure_ok h
      obtain ⟨textBytes,htextBytes,rfl⟩ := string_ok htext
      refine ⟨toLe 1 (1 : U8)++(zeros 3++textBytes),?_,?_⟩
      · rw [appendOsBuild,htextBytes,ok_bind]
        rfl
      · rw [h1,append_assoc,append_assoc]
    · rw [if_neg h1] at h
      obtain ⟨hfail,-⟩ := Reader.lift_ok h
      cases hfail

theorem embeddingTower_eq : embeddingTower = (do
    let modelId ← string
    let modelVersion ← string
    let weights ← bytesField
    let dims ← u32
    let normalization ← u16
    let normalization ← lift (normalizationOf normalization)
    let prompt ← string
    let maxTokens ← u32
    let runtime ← u16
    let runtime ← lift (runtimeOf runtime)
    let units ← u16
    let units ← lift (computeUnitsOf units)
    let osBuild ← osBuildField
    return ⟨modelId,modelVersion,weights,dims,normalization,prompt,maxTokens,runtime,units,
      osBuild⟩) := by
  simp only [embeddingTower,osBuildField,bind_assoc]

theorem reads_embeddingTower
    (h : appendEmbeddingTower tower = .ok bytes) : Reads embeddingTower bytes tower := by
  obtain ⟨modelId,hmodelId,h⟩ := bind_eq_ok h
  obtain ⟨modelVersion,hmodelVersion,h⟩ := bind_eq_ok h
  obtain ⟨weights,hweights,h⟩ := bind_eq_ok h
  obtain ⟨prompt,hprompt,h⟩ := bind_eq_ok h
  obtain ⟨osBuild,hosBuild,rfl⟩ := bind_pure_eq_ok h
  rw [embeddingTower_eq]
  refine (reads_string hmodelId).bind ((reads_string hmodelVersion).bind
    ((reads_bytesField hweights).bind ((reads_u32 _).bind ((reads_u16 _).bind
      (Reads.silent (Reads.lift (normalizationOf_id _)) ((reads_string hprompt).bind ?_))))))
  exact (reads_u32 _).bind ((reads_u16 _).bind (Reads.silent (Reads.lift (runtimeOf_id _))
    ((reads_u16 _).bind (Reads.silent (Reads.lift (computeUnitsOf_id _))
      ((reads_osBuildField hosBuild).last rfl)))))

theorem embeddingTower_ok (h : embeddingTower input = .ok (tower,rest)) :
    ∃ bytes,appendEmbeddingTower tower = .ok bytes ∧ input = bytes++rest := by
  rw [embeddingTower_eq] at h
  obtain ⟨modelId,b1,hmodelId,h⟩ := Reader.bind_ok h
  obtain ⟨modelVersion,b2,hmodelVersion,h⟩ := Reader.bind_ok h
  obtain ⟨weights,b3,hweights,h⟩ := Reader.bind_ok h
  obtain ⟨dims,b4,hdims,h⟩ := Reader.bind_ok h
  obtain ⟨normalizationId,b5,hnormalizationId,h⟩ := Reader.bind_ok h
  obtain ⟨normalization,b6,hnormalization,h⟩ := Reader.bind_ok h
  obtain ⟨prompt,b7,hprompt,h⟩ := Reader.bind_ok h
  obtain ⟨maxTokens,b8,hmaxTokens,h⟩ := Reader.bind_ok h
  obtain ⟨runtimeId,b9,hruntimeId,h⟩ := Reader.bind_ok h
  obtain ⟨runtime,b10,hruntime,h⟩ := Reader.bind_ok h
  obtain ⟨unitsId,b11,hunitsId,h⟩ := Reader.bind_ok h
  obtain ⟨units,b12,hunits,h⟩ := Reader.bind_ok h
  obtain ⟨osBuild,b13,hosBuild,h⟩ := Reader.bind_ok h
  obtain ⟨rfl,rfl⟩ := Reader.pure_ok h
  obtain ⟨hnormalizationOf,rfl⟩ := Reader.lift_ok hnormalization
  obtain ⟨hruntimeOf,rfl⟩ := Reader.lift_ok hruntime
  obtain ⟨hunitsOf,rfl⟩ := Reader.lift_ok hunits
  obtain ⟨w1,hw1,hb1⟩ := string_ok hmodelId
  obtain ⟨w2,hw2,hb2⟩ := string_ok hmodelVersion
  obtain ⟨w3,hw3,hb3⟩ := bytesField_ok hweights
  obtain ⟨w4,hw4,hb4⟩ := string_ok hprompt
  obtain ⟨w5,hw5,hb5⟩ := osBuildField_ok hosBuild
  refine ⟨w1++(w2++(w3++(toLe 4 dims++(toLe 2 normalization.id++(w4++(toLe 4 maxTokens++
    (toLe 2 runtime.id++(toLe 2 units.id++w5)))))))),?_,?_⟩
  · simp only [appendEmbeddingTower,hw1,hw2,hw3,hw4,hw5,ok_bind]
    rfl
  · rw [hb1,hb2,hb3,u32_ok hdims,u16_ok hnormalizationId,id_of_normalizationOf hnormalizationOf,
      hb4,u32_ok hmaxTokens,u16_ok hruntimeId,id_of_runtimeOf hruntimeOf,u16_ok hunitsId,
      id_of_computeUnitsOf hunitsOf,hb5]
    simp only [append_assoc]

theorem reads_epochMeta (h : appendEpoch epoch = .ok bytes) : Reads epochMeta bytes epoch := by
  obtain ⟨embedding,hembedding,rfl⟩ := bind_pure_eq_ok h
  obtain ⟨document,hdocument,h⟩ := bind_eq_ok hembedding
  obtain ⟨query,hquery,h⟩ := bind_eq_ok h
  obtain ⟨alignment,halignment,rfl⟩ := bind_pure_eq_ok h
  have hread : Reads embeddingEpoch (document++(query++alignment)) epoch.embedding :=
    (reads_embeddingTower hdocument).bind ((reads_embeddingTower hquery).bind
      ((reads_bytesField halignment).last rfl))
  exact (reads_u64 _).bind ((reads_u64 _).bind (hread.last rfl))

theorem epochMeta_ok (h : epochMeta input = .ok (epoch,rest)) :
    ∃ bytes,appendEpoch epoch = .ok bytes ∧ input = bytes++rest := by
  obtain ⟨id,b1,hid,h⟩ := Reader.bind_ok h
  obtain ⟨tokenizer,b2,htokenizer,h⟩ := Reader.bind_ok h
  obtain ⟨embedding,b3,hembedding,h⟩ := Reader.bind_ok h
  obtain ⟨rfl,rfl⟩ := Reader.pure_ok h
  obtain ⟨document,b4,hdocument,h⟩ := Reader.bind_ok hembedding
  obtain ⟨query,b5,hquery,h⟩ := Reader.bind_ok h
  obtain ⟨alignment,b6,halignment,h⟩ := Reader.bind_ok h
  obtain ⟨rfl,rfl⟩ := Reader.pure_ok h
  obtain ⟨w1,hw1,hb1⟩ := embeddingTower_ok hdocument
  obtain ⟨w2,hw2,hb2⟩ := embeddingTower_ok hquery
  obtain ⟨w3,hw3,hb3⟩ := bytesField_ok halignment
  refine ⟨toLe 8 id++(toLe 8 tokenizer++(w1++(w2++w3))),?_,?_⟩
  · simp only [appendEpoch,appendEmbeddingEpoch,hw1,hw2,hw3,ok_bind]
    rfl
  · rw [u64_ok hid,u64_ok htokenizer,hb1,hb2,hb3]
    simp only [append_assoc]

theorem reads_segmentId (id : SegmentId) : Reads segmentId id.bytes id := by
  intro rest
  have hle : 16 ≤ (id.bytes++rest).length := by
    rw [length_append,id.sixteen]
    omega
  unfold segmentId
  rw [dif_pos hle]
  simp only [take_left' id.sixteen,drop_left' id.sixteen]

theorem segmentId_ok {id : SegmentId} (h : segmentId input = .ok (id,rest)) :
    input = id.bytes++rest := by
  unfold segmentId at h
  split_ifs at h with hle
  obtain ⟨rfl,rfl⟩ := Prod.mk.inj (Except.ok.inj h)
  exact (take_append_drop 16 input).symm

def SegmentMeta.Registered (segment : SegmentMeta) : Prop :=
  segment.scheme = 0 ∨ segment.scheme = 1 ∨ segment.scheme = 2 ∨ segment.scheme = 4

instance (segment : SegmentMeta) : Decidable segment.Registered :=
  inferInstanceAs (Decidable (_ ∨ _))

theorem requireScheme_ok_iff : requireScheme segment.scheme = .ok () ↔ segment.Registered := by
  unfold requireScheme SegmentMeta.Registered
  split_ifs <;> simp_all

def SegmentMeta.unstamped (segment : SegmentMeta) : SegmentMeta :=
  { segment with clusteringKeyRange := .unstamped }

theorem reads_segment (hscheme : segment.Registered) (h : appendSegment segment = .ok bytes) :
    Reads Manifest.segment bytes segment.unstamped := by
  obtain rfl := Except.ok.inj h
  exact (reads_segmentId _).bind ((reads_u32 _).bind ((reads_u16 _).bind
    (Reads.silent (Reads.lift (requireScheme_ok_iff.mpr hscheme)) ((reads_u16 0).bind
      (Reads.silent (Reads.ensure _ rfl) ((reads_u32 _).bind ((reads_u64 _).bind
        ((reads_optionalEpochId _).last rfl))))))))

theorem segment_ok (h : Manifest.segment input = .ok (segment,rest)) :
    segment.Registered ∧ segment.clusteringKeyRange = .unstamped ∧
      ∃ bytes,appendSegment segment = .ok bytes ∧ input = bytes++rest := by
  obtain ⟨id,b1,hid,h⟩ := Reader.bind_ok h
  obtain ⟨rowCount,b2,hrowCount,h⟩ := Reader.bind_ok h
  obtain ⟨scheme,b3,hscheme,h⟩ := Reader.bind_ok h
  obtain ⟨⟨⟩,b4,hregistered,h⟩ := Reader.bind_ok h
  obtain ⟨reserved,b5,hreserved,h⟩ := Reader.bind_ok h
  obtain ⟨⟨⟩,b6,hzero,h⟩ := Reader.bind_ok h
  obtain ⟨dims,b7,hdims,h⟩ := Reader.bind_ok h
  obtain ⟨fileSize,b8,hfileSize,h⟩ := Reader.bind_ok h
  obtain ⟨epochId,b9,hepochId,h⟩ := Reader.bind_ok h
  obtain ⟨rfl,rfl⟩ := Reader.pure_ok h
  obtain ⟨hregisteredOf,rfl⟩ := Reader.lift_ok hregistered
  obtain ⟨hreservedZero,rfl⟩ := Reader.ensure_ok hzero
  refine ⟨requireScheme_ok_iff.mp hregisteredOf,rfl,_,rfl,?_⟩
  rw [segmentId_ok hid,u32_ok hrowCount,u16_ok hscheme,u16_ok hreserved,
    of_decide_eq_true hreservedZero,u32_ok hdims,u64_ok hfileSize,optionalEpochId_ok hepochId]
  simp only [append_assoc]

theorem columnTypeFromId_id (v : ColumnType) : columnTypeFromId (columnTypeId v) = .ok v := by
  cases v <;> rfl

theorem id_of_columnTypeFromId {v : ColumnType} (h : columnTypeFromId id = .ok v) :
    id = columnTypeId v := by
  unfold columnTypeFromId at h
  split_ifs at h <;> obtain rfl := Except.ok.inj h <;> assumption

theorem nullableOf_word (v : Bool) : nullableOf (nullableWord v) = .ok v := by
  cases v <;> rfl

theorem word_of_nullableOf {word : U16} {v : Bool} (h : nullableOf word = .ok v) :
    word = nullableWord v := by
  unfold nullableOf at h
  split_ifs at h <;> obtain rfl := Except.ok.inj h <;> assumption

theorem reads_columnDefinition
    (h : appendColumn definition = .ok bytes) : Reads columnDefinition bytes definition := by
  obtain ⟨name,hname,rfl⟩ := bind_pure_eq_ok h
  exact (reads_u32 _).bind ((reads_u16 _).bind (Reads.silent
    (Reads.lift (columnTypeFromId_id _)) ((reads_u16 _).bind (Reads.silent
      (Reads.lift (nullableOf_word _)) ((reads_string hname).last rfl)))))

theorem columnDefinition_ok (h : columnDefinition input = .ok (definition,rest)) :
    ∃ bytes,appendColumn definition = .ok bytes ∧ input = bytes++rest := by
  obtain ⟨id,b1,hid,h⟩ := Reader.bind_ok h
  obtain ⟨typeId,b2,htypeId,h⟩ := Reader.bind_ok h
  obtain ⟨columnType,b3,hcolumnType,h⟩ := Reader.bind_ok h
  obtain ⟨word,b4,hword,h⟩ := Reader.bind_ok h
  obtain ⟨nullable,b5,hnullable,h⟩ := Reader.bind_ok h
  obtain ⟨name,b6,hname,h⟩ := Reader.bind_ok h
  obtain ⟨rfl,rfl⟩ := Reader.pure_ok h
  obtain ⟨hcolumnTypeOf,rfl⟩ := Reader.lift_ok hcolumnType
  obtain ⟨hnullableOf,rfl⟩ := Reader.lift_ok hnullable
  obtain ⟨w,hw,hb⟩ := string_ok hname
  refine ⟨toLe 4 id++(toLe 2 (columnTypeId columnType)++(toLe 2 (nullableWord nullable)++w)),
    ?_,?_⟩
  · simp only [appendColumn,hw,ok_bind]
    rfl
  · rw [u32_ok hid,u16_ok htypeId,id_of_columnTypeFromId hcolumnTypeOf,u16_ok hword,
      word_of_nullableOf hnullableOf,hb]
    simp only [append_assoc]

end Zeppelin.Manifest
