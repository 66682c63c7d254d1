import Zeppelin.GraphStore.Artifact

namespace Zeppelin.GraphStore
open Format List
open GraphWal (ArtifactId BlockKind PhysicalRef StoreInstanceId)

variable {xxh3 : Bytes → U64}

@[simp] theorem blockBytes_length (block : Block) :
    (blockBytes xxh3 block).length = blockLen block := by
  simp [blockBytes,blockLen]
  omega

@[simp] theorem flatMap_blockBytes_length (blocks : List Block) :
    (blocks.flatMap (blockBytes xxh3)).length = (blocks.map blockLen).sum := by
  rw [length_flatMap]
  simp only [blockBytes_length]

@[simp] theorem directoryTable_length (offset : ℕ) (blocks : List Block) :
    (directoryTable xxh3 offset blocks).length = blocks.length*24 := by
  induction blocks generalizing offset with
  | nil => rfl
  | cons block rest ih =>
    simp only [directoryTable,length_append,toLe_length,ih,length_cons]
    omega

@[simp] theorem encodeArtifactHeader_length (kind : ContainerKind) (identity : ArtifactIdentity)
    (length body count : ℕ) :
    (encodeArtifactHeader kind identity length body count).length = headerBytes := by
  have hfixed:=encodeHeader_length ⟨fileMagic,kind.family.id,1,0,BitVec.ofNat 64 headerBytes,
    BitVec.ofNat 64 length⟩ fileMagic_length
  simp only [encodeArtifactHeader,length_append,toLe_length,hfixed]
  rfl

theorem word32_toNat {n : ℕ} (h : n ≤ maxArtifactBytes) : (BitVec.ofNat 32 n).toNat = n := by
  rw [BitVec.toNat_ofNat,Nat.mod_eq_of_lt]
  simp only [maxArtifactBytes] at h
  omega

theorem word64_toNat {n : ℕ} (h : n ≤ maxArtifactBytes) : (BitVec.ofNat 64 n).toNat = n := by
  rw [BitVec.toNat_ofNat,Nat.mod_eq_of_lt]
  simp only [maxArtifactBytes] at h
  omega

theorem eq_word {w : ℕ} {v : BitVec w} {n : ℕ} (h : v.toNat = n) : BitVec.ofNat w n = v := by
  rw [← h,BitVec.ofNat_toNat,BitVec.setWidth_eq]

def blockRef (artifact : ArtifactId) (offset : ℕ) (block : Block) : PhysicalRef :=
  ⟨artifact,BitVec.ofNat 64 offset,BitVec.ofNat 32 (blockLen block),block.kind,1⟩

structure BlocksAt (xxh3 : Bytes → U64) (frame : ArtifactFrame) (index next : ℕ)
    (blocks : List Block) : Prop where
  table : ∃ y,frame.bytes.drop (frame.directory+index*24) = directoryTable xxh3 next blocks++y
  body : ∃ y,frame.bytes.drop next = blocks.flatMap (blockBytes xxh3)++y
  start : headerBytes ≤ next
  fits : next+(blocks.map blockLen).sum ≤ frame.directory
  small : frame.directory ≤ maxArtifactBytes
  counted : index+blocks.length = frame.count

section Blocks
variable {frame : ArtifactFrame} {index next : ℕ} {block : Block} {blocks : List Block}

theorem BlocksAt.tail (h : BlocksAt xxh3 frame index next (block::blocks)) :
    BlocksAt xxh3 frame (index+1) (next+blockLen block) blocks := by
  obtain ⟨⟨y,htable⟩,⟨z,hbody⟩,hstart,hfits,hsmall,hcounted⟩ := h
  rw [map_cons,sum_cons] at hfits
  rw [flatMap_cons,append_assoc] at hbody
  rw [length_cons] at hcounted
  simp only [directoryTable,append_assoc] at htable
  have hnext:=drop_behind (drop_behind (drop_behind (drop_behind (drop_behind htable
    (toLe_length 8 _)) (toLe_length 4 _)) (toLe_length 2 _)) (toLe_length 2 _)) (toLe_length 8 _)
  refine ⟨⟨y,?_⟩,⟨z,drop_behind hbody (blockBytes_length block)⟩,by omega,by omega,hsmall,
    by omega⟩
  rw [show frame.directory+(index+1)*24 = frame.directory+index*24+8+4+2+2+8 by
    omega]
  exact hnext

theorem BlocksAt.bounds (h : BlocksAt xxh3 frame index next (block::blocks)) :
    index < frame.count ∧ next+blockLen block ≤ frame.directory ∧
      next+blockLen block ≤ maxArtifactBytes := by
  have hfits:=h.fits
  have hsmall:=h.small
  have hcounted:=h.counted
  rw [map_cons,sum_cons] at hfits
  rw [length_cons] at hcounted
  omega

theorem BlocksAt.reference (h : BlocksAt xxh3 frame index next (block::blocks)) :
    frame.reference index = .ok (blockRef frame.identity.artifact next block) ∧
      readU64 frame.bytes (frame.directory+index*24+16) = .ok (xxh3 block.payload) := by
  obtain ⟨y,htable⟩ := h.table
  obtain ⟨hindex,-,-⟩ := h.bounds
  simp only [directoryTable,append_assoc] at htable
  have h8:=drop_behind htable (toLe_length 8 _)
  have h12:=drop_behind h8 (toLe_length 4 _)
  have h14:=drop_behind h12 (toLe_length 2 _)
  have h16:=drop_behind h14 (toLe_length 2 _)
  constructor
  · rw [ArtifactFrame.reference,if_neg (not_le.mpr hindex),readU64_of_drop htable,ok_bind,
      readU32_of_drop h8,ok_bind,readU16_of_drop h12,ok_bind,blockKind_id,ok_bind,
      readU16_of_drop h14,ok_bind]
    rfl
  · exact readU64_of_drop h16

theorem blockRef_toNat (artifact : ArtifactId) (h : next+blockLen block ≤ maxArtifactBytes) :
    (blockRef artifact next block).offset.toNat = next ∧
      (blockRef artifact next block).length.toNat = blockLen block :=
  ⟨word64_toNat (by omega),word32_toNat (by omega)⟩

theorem validateReference_blockRef {artifact : ArtifactId} (hstart : headerBytes ≤ next)
    (h : next+blockLen block ≤ maxArtifactBytes) :
    validateReference (blockRef artifact next block) = .ok () := by
  obtain ⟨hoffset,hlength⟩ := blockRef_toNat artifact h
  have hlong : 24 ≤ blockLen block := Nat.le_add_right _ _
  rw [validateReference,if_neg (by simp [blockRef]),if_neg]
  rw [hoffset,hlength]
  omega

theorem BlocksAt.slice (h : BlocksAt xxh3 frame index next (block::blocks)) :
    slice? frame.bytes (next+24) (next+blockLen block) = some block.payload := by
  obtain ⟨z,hbody⟩ := h.body
  simp only [flatMap_cons,blockBytes,append_assoc] at hbody
  have h24:=drop_behind (drop_behind (drop_behind (drop_behind (drop_behind hbody
    (toLe_length 2 _)) (toLe_length 2 _)) (toLe_length 4 _)) (toLe_length 8 _)) (toLe_length 8 _)
  have hlength:=length_of_drop hbody (by simp)
  simp only [length_append,toLe_length] at hlength
  have hlong : blockLen block = 24+block.payload.length := rfl
  rw [slice?_eq_some (by omega) (by omega),show next+24 = next+2+2+4+8+8 by omega,h24,
    show next+blockLen block-(next+2+2+4+8+8) = block.payload.length by omega,
    take_left]

theorem BlocksAt.validateBlock (h : BlocksAt xxh3 frame index next (block::blocks)) :
    GraphStore.validateBlock xxh3 frame.bytes (blockRef frame.identity.artifact next block)
      (xxh3 block.payload) = .ok block.payload := by
  obtain ⟨-,-,hsmall⟩ := h.bounds
  obtain ⟨hoffset,hlength⟩ := blockRef_toNat frame.identity.artifact hsmall
  have hslice:=h.slice
  obtain ⟨z,hbody⟩ := h.body
  simp only [flatMap_cons,blockBytes,append_assoc] at hbody
  have h2:=drop_behind hbody (toLe_length 2 _)
  have h4:=drop_behind h2 (toLe_length 2 _)
  have h8:=drop_behind h4 (toLe_length 4 _)
  have h16:=drop_behind h8 (toLe_length 8 _)
  have hlong : blockLen block = 24+block.payload.length := rfl
  have hword : (BitVec.ofNat 64 block.payload.length).toNat = block.payload.length :=
    word64_toNat (by omega)
  rw [GraphStore.validateBlock,validateReference_blockRef h.start hsmall,ok_bind,hoffset,
    readU16_of_drop hbody,ok_bind,readU16_of_drop h2,ok_bind,if_neg (by simp [blockRef]),
    readU32_of_drop h4,ok_bind,readU64_of_drop h8,ok_bind,hlength,hword,if_neg (by simp [hlong]),
    hslice]
  simp only
  rw [readU64_of_drop h16,ok_bind]
  simp only [checksum,if_true,ok_bind]
  rfl

def Admitted (kind : ContainerKind) (count : ℕ) (blocks : List Block) : Prop :=
  (kind = .rootEnvelope → count = 1) ∧ ∀ block ∈ blocks,admitsBlock kind block = .ok ()

theorem admitsBlock_iff {kind : ContainerKind} :
    admitsBlock kind block = .ok () ↔
      ¬ (kind = .rootEnvelope ∧ (block.kind ≠ .checkpointPayload ∨ block.payload = [])) ∧
        ¬ (kind = .object ∧ block.kind = .checkpointPayload) := by
  unfold admitsBlock
  split_ifs with hroot hobject
  · exact ⟨(fun h => nomatch h),fun h => absurd hroot h.1⟩
  · exact ⟨(fun h => nomatch h),fun h => absurd hobject h.2⟩
  · exact ⟨fun _ => ⟨hroot,hobject⟩,fun _ => rfl⟩

theorem BlocksAt.checkBlocks (h : BlocksAt xxh3 frame index next blocks)
    (hadmitted : Admitted frame.kind frame.count blocks) :
    GraphStore.checkBlocks xxh3 frame blocks.length index next =
      .ok (next+(blocks.map blockLen).sum) := by
  induction blocks generalizing index next with
  | nil => rfl
  | cons block blocks ih =>
    obtain ⟨hindex,hdirectory,hsmall⟩ := h.bounds
    obtain ⟨hreference,hentry⟩ := h.reference
    obtain ⟨hoffset,hlength⟩ := blockRef_toNat frame.identity.artifact hsmall
    obtain ⟨hone,hall⟩ := hadmitted
    have hblock:=admitsBlock_iff.mp (hall block mem_cons_self)
    have hrest:=ih h.tail ⟨hone,fun b hb => hall b (mem_cons_of_mem _ hb)⟩
    rw [length_cons,GraphStore.checkBlocks,hreference,ok_bind,
      validateReference_blockRef h.start hsmall,ok_bind,hoffset,hlength,if_neg (by omega),hentry,
      ok_bind,h.validateBlock,ok_bind,if_neg,hrest,map_cons,sum_cons,Nat.add_assoc]
    rintro (⟨hroot,hcount | hbad⟩ | hobject)
    · exact hcount (hone hroot)
    · exact hblock.1 ⟨hroot,hbad⟩
    · exact hblock.2 hobject

theorem BlocksAt.skip (h : BlocksAt xxh3 frame index next blocks) (i : ℕ) (hi : i ≤ blocks.length) :
    BlocksAt xxh3 frame (index+i) (next+((blocks.take i).map blockLen).sum) (blocks.drop i) := by
  induction i generalizing index next blocks with
  | zero => exact h
  | succ i ih =>
    cases blocks with
    | nil => cases hi
    | cons block blocks =>
      have htail:=ih h.tail (Nat.le_of_succ_le_succ hi)
      rw [take_succ_cons,map_cons,sum_cons,drop_succ_cons,
        show index+(i+1) = index+1+i by omega,← Nat.add_assoc]
      exact htail

theorem BlocksAt.get (h : BlocksAt xxh3 frame index next blocks) {i : ℕ} (hi : i < blocks.length) :
    BlocksAt xxh3 frame (index+i) (next+((blocks.take i).map blockLen).sum)
      (blocks[i]::blocks.drop (i+1)) := by
  have hskip:=h.skip i hi.le
  rw [drop_eq_getElem_cons hi] at hskip
  exact hskip

theorem sum_take_lt (blocks : List Block) {i j : ℕ} (hij : i < j) (hj : j ≤ blocks.length) :
    ((blocks.take i).map blockLen).sum < ((blocks.take j).map blockLen).sum := by
  induction blocks generalizing i j with
  | nil =>
    simp only [length_nil] at hj
    omega
  | cons block blocks ih =>
    obtain ⟨j,rfl⟩ : ∃ k,j = k+1 := ⟨j-1,by omega⟩
    have hlong : 24 ≤ blockLen block := Nat.le_add_right _ _
    cases i with
    | zero =>
      rw [take_zero,map_nil,sum_nil,take_succ_cons,map_cons,
        sum_cons]
      omega
    | succ i =>
      have hrest:=ih (i := i) (j := j) (by omega) (Nat.le_of_succ_le_succ hj)
      simp only [take_succ_cons,map_cons,sum_cons]
      omega

end Blocks

section Search
variable {frame : ArtifactFrame} {i low high : ℕ} {v : PhysicalRef} {payload : Bytes}

theorem search_found {refs : ℕ → PhysicalRef}
    (hrefs : ∀ i < frame.count,frame.reference i = .ok (refs i))
    (hmono : ∀ i j,i < j → j < frame.count → (refs i).offset < (refs j).offset)
    (hlow : low ≤ i) (hhigh : i < high) (hcount : high ≤ frame.count) :
    frame.search (refs i) low high = frame.payloadAt (refs i) := by
  induction hsize : high-low using Nat.strong_induction_on generalizing low high with
  | _ size ih =>
    subst hsize
    have hmiddle : low+(high-low) / 2 < high := by omega
    rw [ArtifactFrame.search,if_pos (by omega),hrefs _ (by omega),ok_bind]
    rcases lt_trichotomy i (low+(high-low) / 2) with hlt | heq | hgt
    · have hafter:=hmono _ _ hlt (by omega)
      rw [if_neg (by rw [BitVec.not_lt]; exact BitVec.le_of_lt hafter),if_pos hafter]
      exact ih _ (by omega) hlow hlt (by omega) rfl
    · rw [← heq,if_neg (BitVec.lt_irrefl _),if_neg (BitVec.lt_irrefl _),if_pos rfl]
    · rw [if_pos (hmono _ _ hgt (by omega))]
      exact ih _ (by omega) hgt hhigh hcount rfl

theorem reference_of_search (h : frame.search v low high = .ok payload) :
    ∃ i,frame.reference i = .ok v ∧ frame.payloadAt v = .ok payload := by
  induction hsize : high-low using Nat.strong_induction_on generalizing low high with
  | _ size ih =>
    subst hsize
    rw [ArtifactFrame.search] at h
    split_ifs at h with hrange
    obtain ⟨candidate,hcandidate,h⟩ := bind_eq_ok h
    split_ifs at h with hless hgreater hsame
    · exact ih _ (by omega) h rfl
    · exact ih _ (by omega) h rfl
    · subst hsame
      exact ⟨_,hcandidate,h⟩

theorem reference_lt (h : frame.reference i = .ok v) : i < frame.count := by
  unfold ArtifactFrame.reference at h
  split_ifs at h with hindex
  exact not_le.mp hindex

theorem resolveFramedBlock_ok (h : frame.resolveFramedBlock v = .ok payload) :
    ∃ i < frame.count,frame.reference i = .ok v := by
  unfold ArtifactFrame.resolveFramedBlock at h
  obtain ⟨⟨⟩,-,h⟩ := bind_eq_ok h
  split_ifs at h
  obtain ⟨i,hreference,-⟩ := reference_of_search h
  exact ⟨i,reference_lt hreference,hreference⟩

theorem BlocksAt.block {blocks : List Block} (h : BlocksAt xxh3 frame 0 headerBytes blocks)
    (hi : i < blocks.length) : frame.block i = .ok blocks[i] := by
  have hoffsets : ∀ j (hj : j < blocks.length),headerBytes+((blocks.take j).map blockLen).sum+
      blockLen blocks[j] ≤ maxArtifactBytes := fun j hj => (h.get hj).bounds.2.2
  have hreference : ∀ j (hj : j < blocks.length),frame.reference j = .ok (blockRef
      frame.identity.artifact (headerBytes+((blocks.take j).map blockLen).sum) blocks[j]) := by
    intro j hj
    have hget:=(h.get hj).reference.1
    rwa [Nat.zero_add] at hget
  have hcount : blocks.length = frame.count := by
    rw [← h.counted,Nat.zero_add]
  have hat:=h.get hi
  obtain ⟨hoffset,hlength⟩ := blockRef_toNat frame.identity.artifact (hoffsets i hi)
  let refs : ℕ → PhysicalRef := fun j => if hj : j < blocks.length then blockRef
    frame.identity.artifact (headerBytes+((blocks.take j).map blockLen).sum) blocks[j] else
      blockRef frame.identity.artifact 0 ⟨.treePage,[]⟩
  have hrefs : ∀ j (hj : j < blocks.length),refs j = blockRef frame.identity.artifact
      (headerBytes+((blocks.take j).map blockLen).sum) blocks[j] := fun j hj => dif_pos hj
  have hfound : frame.search (refs i) 0 frame.count = frame.payloadAt (refs i) := by
    refine search_found (fun j hj => ?_) (fun j k hjk hk => ?_) (Nat.zero_le i)
      (by omega) le_rfl
    · rw [hrefs j (by omega)]
      exact hreference j (by omega)
    · have hlt:=sum_take_lt blocks hjk (by omega)
      have hj:=hoffsets j (by omega)
      have hk':=hoffsets k (by omega)
      rw [hrefs j (by omega),hrefs k (by omega),BitVec.lt_def,(blockRef_toNat _ hj).1,
        (blockRef_toNat _ hk').1]
      omega
  rw [hrefs i hi] at hfound
  rw [ArtifactFrame.block,hreference i hi,ok_bind,ArtifactFrame.resolveFramedBlock,
    validateReference_blockRef hat.start (hoffsets i hi),ok_bind,if_neg (by simp [blockRef]),
    hfound,ArtifactFrame.payloadAt,hoffset,hlength,hat.slice]
  rfl

theorem BlocksAt.blocks {blocks : List Block} (h : BlocksAt xxh3 frame 0 headerBytes blocks) :
    frame.blocks = .ok blocks := by
  have hcounted:=h.counted
  rw [Nat.zero_add] at hcounted
  rw [ArtifactFrame.blocks,← hcounted]
  exact mapM_range_ok fun i hi => h.block hi

end Search

section Lengths
variable {kind : ContainerKind} {blocks : List Block}

theorem bodyLen_ok {limit body total : ℕ} (h : bodyLen kind limit body blocks = .ok total)
    (hbody : body ≤ limit) :
    total = body+(blocks.map blockLen).sum ∧ total ≤ limit ∧
      ∀ block ∈ blocks,admitsBlock kind block = .ok () := by
  induction blocks generalizing body with
  | nil =>
    obtain rfl := Except.ok.inj h
    exact ⟨rfl,hbody,fun b hb => nomatch hb⟩
  | cons block blocks ih =>
    obtain ⟨⟨⟩,hblock,h⟩ := bind_eq_ok h
    split_ifs at h with hlimit
    obtain ⟨htotal,hle,hall⟩ := ih h (not_lt.mp hlimit)
    refine ⟨?_,hle,fun b hb => ?_⟩
    · rw [htotal,map_cons,sum_cons,Nat.add_assoc]
    · rcases mem_cons.mp hb with rfl | hb
      · exact hblock
      · exact hall b hb

theorem bodyLen_of_fits {limit body : ℕ}
    (hall : ∀ block ∈ blocks,admitsBlock kind block = .ok ())
    (h : body+(blocks.map blockLen).sum ≤ limit) :
    bodyLen kind limit body blocks = .ok (body+(blocks.map blockLen).sum) := by
  induction blocks generalizing body with
  | nil => rfl
  | cons block blocks ih =>
    rw [map_cons,sum_cons,← Nat.add_assoc] at h ⊢
    rw [bodyLen,hall block mem_cons_self,ok_bind,if_neg (by omega)]
    exact ih (fun b hb => hall b (mem_cons_of_mem _ hb)) h

theorem encodedLen_ok {length : ℕ} (h : encodedLen kind blocks = .ok length) :
    length = headerBytes+(blocks.map blockLen).sum+(blocks.length*24+8) ∧
      length ≤ maxArtifactBytes ∧ Admitted kind blocks.length blocks := by
  unfold encodedLen at h
  split_ifs at h with hroot hmany
  obtain ⟨body,hbody,rfl⟩ := bind_pure_eq_ok h
  obtain ⟨htotal,hle,hall⟩ := bodyLen_ok hbody (Nat.zero_le _)
  rw [Nat.zero_add] at htotal
  refine ⟨by rw [htotal],?_,fun hkind => ?_,hall⟩
  · simp only [maxBodyBytes,maxArtifactBytes,headerBytes] at hmany hle ⊢
    omega
  · by_contra hne
    exact hroot ⟨hkind,hne⟩

theorem blockLen_sum_ge (blocks : List Block) :
    blocks.length*24 ≤ (blocks.map blockLen).sum := by
  induction blocks with
  | nil => simp
  | cons block blocks ih =>
    have hlong : 24 ≤ blockLen block := Nat.le_add_right _ _
    rw [map_cons,sum_cons,length_cons]
    omega

theorem encodedLen_of_fits (hadmitted : Admitted kind blocks.length blocks)
    (h : headerBytes+(blocks.map blockLen).sum+(blocks.length*24+8) ≤ maxArtifactBytes) :
    encodedLen kind blocks =
      .ok (headerBytes+(blocks.map blockLen).sum+(blocks.length*24+8)) := by
  have hge:=blockLen_sum_ge blocks
  have hlimit : 0+(blocks.map blockLen).sum ≤ maxBodyBytes-blocks.length*24 := by
    simp only [maxBodyBytes,maxArtifactBytes,headerBytes] at h ⊢
    omega
  rw [encodedLen,if_neg,if_neg,bodyLen_of_fits hadmitted.2 hlimit,ok_bind,Nat.zero_add]
  · rfl
  · simp only [maxBodyBytes,maxArtifactBytes,headerBytes] at h ⊢
    omega
  · rintro ⟨hkind,hne⟩
    exact hne (hadmitted.1 hkind)

end Lengths

section Files
variable {kind : ContainerKind} {identity : ArtifactIdentity} {body count : ℕ} {bytes : Bytes}

structure ArtifactAt (xxh3 : Bytes → U64) (kind : ContainerKind) (identity : ArtifactIdentity)
    (body count : ℕ) (bytes : Bytes) : Prop where
  header : decodeHeader kind.family bytes = .ok ⟨fileMagic,kind.family.id,1,0,
    BitVec.ofNat 64 headerBytes,BitVec.ofNat 64 bytes.length⟩
  store : readU128 bytes 32 = .ok identity.store.get
  artifact : readU128 bytes 48 = .ok identity.artifact.get
  generation : readU64 bytes 64 = .ok identity.generation
  bodyAt : readU64 bytes 72 = .ok (BitVec.ofNat 64 body)
  countAt : readU32 bytes 80 = .ok (BitVec.ofNat 32 count)
  flags : readU32 bytes 84 = .ok 0
  serial : readU64 bytes 88 = .ok identity.creationSerial
  checksum : readU64 bytes (bytes.length-8) = .ok (xxh3 (bytes.take (bytes.length-8)))
  extent : headerBytes+body+count*24+8 = bytes.length
  small : bytes.length ≤ maxArtifactBytes

theorem require_family (kind : ContainerKind) : ∃ spec,require kind.family.id 1 = .ok spec := by
  cases kind <;> exact ⟨_,rfl⟩

theorem version_of_require {version : U16} {spec : FamilySpec}
    (h : require kind.family.id version = .ok spec) : version = 1 := by
  have hspec : families.find? (fun candidate => candidate.family.id == kind.family.id) =
      some (versionOne kind.family) := by
    cases kind <;> rfl
  rw [require,hspec] at h
  simp only at h
  split_ifs at h with hrange
  rw [not_or] at hrange
  have hmin : ¬ version < 1 := hrange.1
  have hmax : ¬ 1 < version := hrange.2
  rw [BitVec.lt_def] at hmin hmax
  refine BitVec.eq_of_toNat_eq ?_
  simp at hmin hmax ⊢
  omega

theorem storeInstanceId_get (v : StoreInstanceId) : storeInstanceId v.get = .ok v :=
  dif_neg v.nonzero

theorem storeInstanceId_ok {value : U128} {v : StoreInstanceId}
    (h : storeInstanceId value = .ok v) : v.get = value := by
  unfold storeInstanceId at h
  split_ifs at h
  rw [← Except.ok.inj h]

def frameOf (xxh3 : Bytes → U64) (kind : ContainerKind) (identity : ArtifactIdentity)
    (body count : ℕ) (bytes : Bytes) : ArtifactFrame :=
  ⟨bytes,identity,kind,headerBytes+body,count,xxh3 (bytes.take (bytes.length-8))⟩

variable {expected : Option (StoreInstanceId × ArtifactId)}

theorem ArtifactAt.readFrame (h : ArtifactAt xxh3 kind identity body count bytes)
    (hcount : count*24 ≤ body)
    (hexpected : ∀ v ∈ expected,v = (identity.store,identity.artifact)) :
    GraphStore.readFrame xxh3 kind expected bytes =
      .ok (frameOf xxh3 kind identity body count bytes) := by
  have hextent:=h.extent
  have hsmall:=h.small
  have hbody : (BitVec.ofNat 64 body).toNat = body := word64_toNat (by omega)
  have hcounted : (BitVec.ofNat 32 count).toNat = count := word32_toNat (by omega)
  have hlength : (BitVec.ofNat 64 bytes.length).toNat = bytes.length := word64_toNat hsmall
  have hidentity : expected.any (fun v => v ≠ (identity.store,identity.artifact)) = false := by
    cases expected with
    | none => rfl
    | some v => simp [hexpected v rfl]
  rw [GraphStore.readFrame,h.header,ok_bind]
  simp only
  rw [if_neg (by decide),hlength,if_neg (by omega),h.checksum,ok_bind,GraphStore.checksum,
    if_pos rfl,ok_bind,h.store,ok_bind,storeInstanceId_get,ok_bind,h.artifact,ok_bind,
    artifactId_get,ok_bind,hidentity,if_neg Bool.false_ne_true,h.bodyAt,ok_bind,h.countAt,
    ok_bind,h.flags,ok_bind,hbody,hcounted,if_neg,if_neg (by omega),h.generation,ok_bind,
    h.serial,ok_bind]
  · rfl
  · simp only [maxBodyBytes,maxArtifactBytes,headerBytes] at hsmall hextent ⊢
    simp
    omega

theorem artifactAt_of_readFrame
    {frame : ArtifactFrame} (h : readFrame xxh3 kind expected bytes = .ok frame) :
    ∃ body,ArtifactAt xxh3 kind frame.identity body frame.count bytes ∧
      frame = frameOf xxh3 kind frame.identity body frame.count bytes := by
  unfold readFrame at h
  obtain ⟨header,hheader,h⟩ := bind_eq_ok h
  split_ifs at h with hflags hfile
  obtain ⟨stored,hstored,h⟩ := bind_eq_ok h
  obtain ⟨⟨⟩,hsum,h⟩ := bind_eq_ok h
  obtain ⟨storeWord,hstoreWord,h⟩ := bind_eq_ok h
  obtain ⟨store,hstore,h⟩ := bind_eq_ok h
  obtain ⟨artifactWord,hartifactWord,h⟩ := bind_eq_ok h
  obtain ⟨artifact,hartifact,h⟩ := bind_eq_ok h
  split_ifs at h
  obtain ⟨body,hbody,h⟩ := bind_eq_ok h
  obtain ⟨count,hcount,h⟩ := bind_eq_ok h
  obtain ⟨flags,hflags',h⟩ := bind_eq_ok h
  split_ifs at h with hbad hextent
  obtain ⟨generation,hgeneration,h⟩ := bind_eq_ok h
  obtain ⟨serial,hserial,rfl⟩ := bind_pure_eq_ok h
  rw [not_or,not_not,not_not] at hflags
  rw [not_or,not_or,not_not] at hfile
  rw [not_or,not_or,not_not] at hbad
  rw [not_not] at hextent
  obtain ⟨-,hmagic,hfamily,-,spec,hrequire⟩ := decodeHeader_ok hheader
  rw [hfamily] at hrequire
  have hversion:=version_of_require hrequire
  unfold GraphStore.checksum at hsum
  split_ifs at hsum with hsame
  have hheaderEq : header = ⟨fileMagic,kind.family.id,1,0,BitVec.ofNat 64 headerBytes,
      BitVec.ofNat 64 bytes.length⟩ := by
    obtain ⟨magic,family,version,flags,headerLength,fileLength⟩ := header
    obtain rfl : magic = _ := hmagic
    obtain rfl : family = _ := hfamily
    obtain rfl : version = _ := hversion
    obtain rfl : flags = _ := hflags.1
    rw [eq_word hflags.2,eq_word hfile.2.2]
  refine ⟨body.toNat,⟨?_,?_,?_,hgeneration,?_,?_,?_,hserial,?_,?_,not_lt.mp hfile.1⟩,?_⟩
  · rw [hheader,hheaderEq]
  · rw [hstoreWord,storeInstanceId_ok hstore]
  · rw [hartifactWord,artifactId_ok hartifact]
  · rw [hbody,eq_word rfl]
  · rw [hcount,eq_word rfl]
  · rw [hflags',hbad.2.2]
  · rw [hstored,hsame]
  · simp only at hextent ⊢
    omega
  · rw [frameOf,hsame]

theorem ArtifactAt.joined (h : ArtifactAt xxh3 kind identity body count bytes) :
    bytes = encodeArtifactHeader kind identity bytes.length body count++
      bytes.drop headerBytes := by
  obtain ⟨hfixed,-⟩ := decodeHeader_ok h.header
  have hfields : bytes.drop 32 = toLe 16 identity.store.get++(toLe 16 identity.artifact.get++
      (toLe 8 identity.generation++(toLe 8 (BitVec.ofNat 64 body)++
        (toLe 4 (BitVec.ofNat 32 count)++(toLe 4 (0 : U32)++
          (toLe 8 identity.creationSerial++bytes.drop 96)))))) := by
    rw [drop_of_readU128 h.store,drop_of_readU128 h.artifact,drop_of_readU64 h.generation,
      drop_of_readU64 h.bodyAt,drop_of_readU32 h.countAt,drop_of_readU32 h.flags,
      drop_of_readU64 h.serial]
  rw [show fileHeaderLen = 32 from rfl,hfields] at hfixed
  simp only [encodeArtifactHeader,append_assoc]
  exact hfixed

end Files

section Checks
variable {frame : ArtifactFrame} {index next : ℕ} {v : PhysicalRef} {expected : U64}

theorem reference_ok (h : frame.reference index = .ok v) : v.artifact = frame.identity.artifact ∧
      frame.bytes.drop (frame.directory+index*24) = toLe 8 v.offset++(toLe 4 v.length++
        (toLe 2 v.kind.id++(toLe 2 v.version++
          frame.bytes.drop (frame.directory+index*24+16)))) := by
  unfold ArtifactFrame.reference at h
  split_ifs at h
  obtain ⟨offset,hoffset,h⟩ := bind_eq_ok h
  obtain ⟨length,hlength,h⟩ := bind_eq_ok h
  obtain ⟨tag,htag,h⟩ := bind_eq_ok h
  obtain ⟨kind,hkind,h⟩ := bind_eq_ok h
  obtain ⟨version,hversion,rfl⟩ := bind_pure_eq_ok h
  refine ⟨rfl,?_⟩
  rw [drop_of_readU64 hoffset,drop_of_readU32 hlength,drop_of_readU16 htag,
    drop_of_readU16 hversion,blockKind_ok hkind]

theorem validateReference_version (h : validateReference v = .ok ()) : v.version = 1 := by
  unfold validateReference at h
  split_ifs at h with hversion
  exact not_not.mp hversion

theorem checksum_ok {check : FormatCheck} {actual : U64}
    (h : checksum check expected actual = .ok ()) : expected = actual := by
  unfold checksum at h
  split_ifs at h with hsame
  exact hsame

theorem validateBlock_ok {bytes payload : Bytes}
    (h : validateBlock xxh3 bytes v expected = .ok payload) :
    expected = xxh3 payload ∧ v.length.toNat = blockLen ⟨v.kind,payload⟩ ∧
      bytes.drop v.offset.toNat = blockBytes xxh3 ⟨v.kind,payload⟩++
        bytes.drop (v.offset.toNat+v.length.toNat) := by
  unfold validateBlock at h
  obtain ⟨⟨⟩,hvalid,h⟩ := bind_eq_ok h
  obtain ⟨tag,htag,h⟩ := bind_eq_ok h
  obtain ⟨version,hversion,h⟩ := bind_eq_ok h
  split_ifs at h with hkind
  obtain ⟨flags,hflags,h⟩ := bind_eq_ok h
  obtain ⟨length,hlength,h⟩ := bind_eq_ok h
  split_ifs at h with hbad
  split at h
  · cases h
  · rename_i raw hraw
    obtain ⟨stored,hstored,h⟩ := bind_eq_ok h
    obtain ⟨⟨⟩,hentry,h⟩ := bind_eq_ok h
    obtain ⟨⟨⟩,hsum,rfl⟩ := bind_pure_eq_ok h
    obtain rfl := checksum_ok hentry
    obtain rfl := checksum_ok hsum
    rw [not_or,not_not,not_not,validateReference_version hvalid] at hkind
    rw [not_or,not_not,not_not] at hbad
    obtain ⟨rfl,rfl⟩ := hkind
    obtain ⟨rfl,hlong⟩ := hbad
    have hrawLen:=slice?_length hraw
    obtain ⟨-,-,hslice⟩ := slice?_some hraw
    have hpayload : length.toNat = raw.length := by omega
    have hsplit:=drop_split_of_le bytes
      (show v.offset.toNat+24 ≤ v.offset.toNat+v.length.toNat by omega)
    rw [← hslice] at hsplit
    refine ⟨rfl,show v.length.toNat = 24+raw.length by omega,?_⟩
    simp only [blockBytes,append_assoc]
    rw [drop_of_readU16 htag,drop_of_readU16 hversion,drop_of_readU32 hflags,
      drop_of_readU64 hlength,drop_of_readU64 hstored,eq_word hpayload]
    simp only [Nat.add_assoc] at hsplit ⊢
    rw [hsplit]

theorem checkBlocks_ok {remaining stop : ℕ}
    (h : checkBlocks xxh3 frame remaining index next = .ok stop)
    (hcount : index+remaining = frame.count) (hnext : next ≤ frame.directory) :
    ∃ blocks : List Block,blocks.length = remaining ∧
      frame.bytes.drop (frame.directory+index*24) =
        directoryTable xxh3 next blocks++frame.bytes.drop (frame.directory+frame.count*24) ∧
      frame.bytes.drop next = blocks.flatMap (blockBytes xxh3)++frame.bytes.drop stop ∧
      stop = next+(blocks.map blockLen).sum ∧ stop ≤ frame.directory ∧
      (0 < remaining → frame.kind = .rootEnvelope → frame.count = 1) ∧
      ∀ block ∈ blocks,admitsBlock frame.kind block = .ok () := by
  induction remaining generalizing index next with
  | zero =>
    obtain rfl := Except.ok.inj h
    rw [Nat.add_zero] at hcount
    subst hcount
    exact ⟨[],rfl,rfl,rfl,rfl,hnext,fun h => absurd h (lt_irrefl 0),fun b hb => nomatch hb⟩
  | succ remaining ih =>
    obtain ⟨v,hv,h⟩ := bind_eq_ok h
    obtain ⟨⟨⟩,hvalid,h⟩ := bind_eq_ok h
    split_ifs at h with hplace
    obtain ⟨entry,hentry,h⟩ := bind_eq_ok h
    obtain ⟨payload,hpayload,h⟩ := bind_eq_ok h
    split_ifs at h with hkind
    rw [not_or,not_not,not_lt] at hplace
    rw [not_or] at hkind
    obtain ⟨hoffset,hend⟩ := hplace
    obtain ⟨hartifact,htable⟩ := reference_ok hv
    obtain ⟨hentrySum,hlength,hblock⟩ := validateBlock_ok hpayload
    obtain ⟨blocks,hlen,hentries,hbody,hstop,hle,-,hall⟩ := ih h (by omega) hend
    rw [hoffset] at hblock hbody hentries hstop
    rw [hlength] at hblock hbody hentries hstop
    refine ⟨⟨v.kind,payload⟩::blocks,by rw [length_cons,hlen],?_,?_,?_,hle,?_,?_⟩
    · have hsum:=drop_of_readU64 hentry
      rw [show frame.directory+index*24+16+8 = frame.directory+(index+1)*24 by omega,
        hentries,hentrySum] at hsum
      rw [htable,hsum,directoryTable,eq_word hoffset,eq_word hlength,
        validateReference_version hvalid]
      simp only [append_assoc]
    · rw [hblock,hbody,flatMap_cons,append_assoc]
    · rw [hstop,map_cons,sum_cons,Nat.add_assoc]
    · intro _ hroot
      by_contra hne
      exact hkind.1 ⟨hroot,.inl hne⟩
    · intro b hb
      rcases mem_cons.mp hb with rfl | hb
      · refine admitsBlock_iff.mpr ⟨fun ⟨hroot,hbad⟩ => hkind.1 ⟨hroot,.inr hbad⟩,hkind.2⟩
      · exact hall b hb

end Checks

section Artifacts
variable {kind : ContainerKind} {identity : ArtifactIdentity} {blocks : List Block}

def artifactBytes (xxh3 : Bytes → U64) (kind : ContainerKind) (identity : ArtifactIdentity)
    (blocks : List Block) (length : ℕ) : Bytes :=
  artifactFront xxh3 kind identity blocks length++
    toLe 8 (xxh3 (artifactFront xxh3 kind identity blocks length))

section Written
variable (xxh3 kind identity) {length : ℕ}

theorem artifactBytes_drop :
    (artifactBytes xxh3 kind identity blocks length).drop headerBytes =
      blocks.flatMap (blockBytes xxh3)++(directoryTable xxh3 headerBytes blocks++
        toLe 8 (xxh3 (artifactFront xxh3 kind identity blocks length))) := by
  have h0 : (artifactBytes xxh3 kind identity blocks length).drop 0 =
      encodeArtifactHeader kind identity length (length-headerBytes-blocks.length*24-8)
        blocks.length++(blocks.flatMap (blockBytes xxh3)++(directoryTable xxh3 headerBytes
          blocks++toLe 8 (xxh3 (artifactFront xxh3 kind identity blocks length)))) := by
    rw [drop_zero,artifactBytes]
    nth_rewrite 1 [artifactFront]
    simp only [append_assoc]
  have h96:=drop_behind h0 (encodeArtifactHeader_length ..)
  rwa [Nat.zero_add] at h96

variable (hlength : length = headerBytes+(blocks.map blockLen).sum+(blocks.length*24+8))
include hlength

theorem artifactBytes_length :
    (artifactBytes xxh3 kind identity blocks length).length = length := by
  simp only [artifactBytes,artifactFront,length_append,encodeArtifactHeader_length,
    flatMap_blockBytes_length,directoryTable_length,toLe_length]
  omega

theorem artifactAt_written (hsmall : length ≤ maxArtifactBytes) :
    ArtifactAt xxh3 kind identity (blocks.map blockLen).sum blocks.length
      (artifactBytes xxh3 kind identity blocks length) := by
  have hsize:=artifactBytes_length xxh3 kind identity hlength
  have hbody : length-headerBytes-blocks.length*24-8 = (blocks.map blockLen).sum := by
    omega
  obtain ⟨spec,hrequire⟩ := require_family kind
  have hfrontLen : (artifactFront xxh3 kind identity blocks length).length = length-8 := by
    rw [artifactBytes,length_append,toLe_length] at hsize
    omega
  revert hsize
  generalize hbytes : artifactBytes xxh3 kind identity blocks length = bytes
  intro hsize
  have hfront : bytes.take (bytes.length-8) = artifactFront xxh3 kind identity blocks length := by
    rw [hsize,← hbytes,artifactBytes]
    exact take_left' hfrontLen
  have hend : bytes.drop (bytes.length-8) =
      toLe 8 (xxh3 (artifactFront xxh3 kind identity blocks length))++[] := by
    rw [hsize,← hbytes,artifactBytes,append_nil]
    exact drop_left' hfrontLen
  rw [artifactBytes] at hbytes
  nth_rewrite 1 [artifactFront] at hbytes
  simp only [encodeArtifactHeader,hbody,append_assoc] at hbytes
  have h0 : bytes.drop 0 = _ := hbytes.symm
  have h32:=drop_behind h0 (encodeHeader_length _ fileMagic_length)
  have h48:=drop_behind h32 (toLe_length 16 _)
  have h64:=drop_behind h48 (toLe_length 16 _)
  have h72:=drop_behind h64 (toLe_length 8 _)
  have h80:=drop_behind h72 (toLe_length 8 _)
  have h84:=drop_behind h80 (toLe_length 4 _)
  have h88:=drop_behind h84 (toLe_length 4 _)
  refine ⟨?_,readU128_of_drop h32,readU128_of_drop h48,readU64_of_drop h64,readU64_of_drop h72,
    readU32_of_drop h80,readU32_of_drop h84,readU64_of_drop h88,?_,?_,?_⟩
  · rw [hsize,← hbytes]
    exact decodeHeader_encodeHeader kind.family _ _ rfl rfl spec hrequire
      (show fileHeaderLen ≤ (BitVec.ofNat 64 headerBytes).toNat by decide)
  · rw [readU64_of_drop hend,hfront]
  · rw [hsize]
    omega
  · rw [hsize]
    exact hsmall

theorem blocksAt_written (hsmall : length ≤ maxArtifactBytes) :
    BlocksAt xxh3 (frameOf xxh3 kind identity (blocks.map blockLen).sum blocks.length
      (artifactBytes xxh3 kind identity blocks length)) 0 headerBytes blocks := by
  have hdrop:=@artifactBytes_drop xxh3 kind identity blocks length
  have htable:=drop_behind hdrop (flatMap_blockBytes_length blocks)
  refine ⟨⟨_,htable⟩,⟨_,hdrop⟩,le_rfl,le_rfl,?_,Nat.zero_add _⟩
  change headerBytes+(blocks.map blockLen).sum ≤ maxArtifactBytes
  omega

end Written

variable {expected : Option (StoreInstanceId × ArtifactId)} {output : Bytes}

theorem decode_written {length : ℕ} (h : encodedLen kind blocks = .ok length)
    (hexpected : ∀ v ∈ expected,v = (identity.store,identity.artifact)) :
    ∃ frame,decode xxh3 kind expected (artifactBytes xxh3 kind identity blocks length) = .ok frame ∧
      frame.identity = identity ∧ frame.kind = kind ∧
      frame.blocks = .ok blocks := by
  obtain ⟨hlength,hsmall,hadmitted⟩ := encodedLen_ok h
  have hat:=artifactAt_written xxh3 kind identity hlength hsmall
  have hblocks:=blocksAt_written xxh3 kind identity hlength
    hsmall
  have hcheck : GraphStore.checkBlocks xxh3 (frameOf xxh3 kind identity (blocks.map blockLen).sum
      blocks.length (artifactBytes xxh3 kind identity blocks length)) blocks.length 0 headerBytes =
      .ok (headerBytes+(blocks.map blockLen).sum) := hblocks.checkBlocks hadmitted
  refine ⟨_,?_,rfl,rfl,hblocks.blocks⟩
  rw [decode,hat.readFrame (blockLen_sum_ge blocks) hexpected,ok_bind]
  change (GraphStore.checkBlocks xxh3 (frameOf xxh3 kind identity (blocks.map blockLen).sum
    blocks.length (artifactBytes xxh3 kind identity blocks length)) blocks.length 0 headerBytes >>=
      _) = _
  rw [hcheck,ok_bind,if_neg]
  · rfl
  · rintro (hne | ⟨hroot,hnone⟩)
    · exact hne rfl
    · have hone:=hadmitted.1 hroot
      have hzero : blocks.length = 0 := hnone
      omega

theorem written_of_decode {bytes : Bytes}
    {frame : ArtifactFrame} (h : decode xxh3 kind expected bytes = .ok frame) :
    frame.bytes = bytes ∧ frame.kind = kind ∧ ∃ blocks,frame.blocks = .ok blocks ∧
      encodedLen kind blocks = .ok bytes.length ∧
      artifactBytes xxh3 kind frame.identity blocks bytes.length = bytes := by
  unfold decode at h
  obtain ⟨read,hread,h⟩ := bind_eq_ok h
  obtain ⟨stop,hstop,h⟩ := bind_eq_ok h
  split_ifs at h with hbad
  obtain rfl := Except.ok.inj h
  rw [not_or,not_not] at hbad
  obtain ⟨rfl,hroot⟩ := hbad
  obtain ⟨body,hat,hframe⟩ := artifactAt_of_readFrame hread
  have hbytes : read.bytes = bytes := by rw [hframe]; rfl
  have hkind : read.kind = kind := by rw [hframe]; rfl
  have hdirectory : read.directory = headerBytes+body := by rw [hframe]; rfl
  have hextent:=hat.extent
  have hsmall:=hat.small
  obtain ⟨blocks,hlen,htable,hbody,hend,-,hone,hall⟩ :=
    checkBlocks_ok hstop (Nat.zero_add _) (by omega)
  rw [hkind] at hall hone
  have hsum : (blocks.map blockLen).sum = body := by omega
  have hadmitted : Admitted kind blocks.length blocks := by
    refine ⟨fun hk => ?_,hall⟩
    rw [hlen]
    refine hone (Nat.pos_of_ne_zero fun hzero => ?_) hk
    exact hroot ⟨hk,hzero⟩
  have hlength : bytes.length =
      headerBytes+(blocks.map blockLen).sum+(blocks.length*24+8) := by
    rw [hsum,hlen]
    omega
  have hblocksAt : BlocksAt xxh3 read 0 headerBytes blocks := by
    exact ⟨⟨_,htable⟩,⟨_,hbody⟩,le_rfl,by omega,by omega,by omega⟩
  have hencoded:=encodedLen_of_fits hadmitted (by omega)
  rw [← hlength] at hencoded
  refine ⟨hbytes,hkind,blocks,hblocksAt.blocks,hencoded,?_⟩
  rw [Nat.zero_mul,Nat.add_zero,hbytes] at htable
  rw [hbytes] at hbody
  have hfront : artifactFront xxh3 kind read.identity blocks bytes.length =
      bytes.take (bytes.length-8) := by
    have hpieces : bytes = (encodeArtifactHeader kind read.identity bytes.length body read.count++
        (blocks.flatMap (blockBytes xxh3)++directoryTable xxh3 headerBytes blocks))++
          bytes.drop (read.directory+read.count*24) := by
      have hjoined:=hat.joined
      rw [hbody,htable] at hjoined
      simp only [append_assoc]
      exact hjoined
    have hfrontLen : (encodeArtifactHeader kind read.identity bytes.length body read.count++
        (blocks.flatMap (blockBytes xxh3)++directoryTable xxh3 headerBytes blocks)).length =
          bytes.length-8 := by
      simp only [length_append,encodeArtifactHeader_length,flatMap_blockBytes_length,
        directoryTable_length]
      omega
    rw [artifactFront,show bytes.length-headerBytes-blocks.length*24-8 = body by omega,hlen]
    have htake:=congrArg (List.take (bytes.length-8)) hpieces
    rw [take_left' hfrontLen] at htake
    exact htake.symm
  have htrailer:=drop_of_readU64 hat.checksum
  rw [Nat.sub_add_cancel (by omega),drop_length,append_nil] at htrailer
  rw [artifactBytes,hfront,← htrailer,take_append_drop]

theorem encodeInto_ok {length : ℕ} {out : Bytes}
    (h : encodeInto xxh3 kind identity blocks output = .ok (length,out)) :
    encodedLen kind blocks = .ok length ∧
      out = artifactBytes xxh3 kind identity blocks length++output.drop length := by
  obtain ⟨size,hsize,h⟩ := bind_eq_ok h
  split_ifs at h
  obtain ⟨rfl,rfl⟩ := Prod.mk.inj (Except.ok.inj h)
  exact ⟨hsize,by rw [artifactBytes,append_assoc]⟩

theorem encodeInto_of_encodedLen {length : ℕ}
    (h : encodedLen kind blocks = .ok length) (houtput : length ≤ output.length) :
    encodeInto xxh3 kind identity blocks output =
      .ok (length,artifactBytes xxh3 kind identity blocks length++output.drop length) := by
  rw [encodeInto,h,ok_bind,if_neg (not_lt.mpr houtput),artifactBytes,append_assoc]
  rfl

/-- The artifacts that the decoder accepts are those that the encoder writes, and a
block is reached through its directory entry only. -/
theorem artifact_canonical (xxh3 : Bytes → U64) (kind : ContainerKind) :
    (∀ identity blocks output length out,
      encodeInto xxh3 kind identity blocks output = .ok (length,out) →
      ∀ expected ∈ [none,some (identity.store,identity.artifact)],
        ∃ frame,decode xxh3 kind expected (out.take length) = .ok frame ∧
          frame.identity = identity ∧ frame.blocks = .ok blocks) ∧
    ∀ expected bytes frame,decode xxh3 kind expected bytes = .ok frame →
      (∃ blocks,frame.blocks = .ok blocks ∧
        ∀ output : Bytes,bytes.length ≤ output.length →
          encodeInto xxh3 kind frame.identity blocks output =
            .ok (bytes.length,bytes++output.drop bytes.length)) ∧
      ∀ v payload,frame.resolveFramedBlock v = .ok payload →
        ∃ i < frame.count,frame.reference i = .ok v := by
  constructor
  · intro identity blocks output length out h expected hexpected
    obtain ⟨hlength,rfl⟩ := encodeInto_ok h
    have hsize:=artifactBytes_length xxh3 kind identity
      (encodedLen_ok hlength).1
    rw [take_left' hsize]
    have hsame : ∀ v ∈ expected,v = (identity.store,identity.artifact) := by
      intro v hv
      rw [Option.mem_def] at hv
      subst hv
      simpa using hexpected
    obtain ⟨frame,hframe,hidentity,-,hblocks⟩ := decode_written hlength hsame
    exact ⟨frame,hframe,hidentity,hblocks⟩
  · intro expected bytes frame h
    obtain ⟨-,-,blocks,hblocks,hlength,hbytes⟩ := written_of_decode h
    refine ⟨⟨blocks,hblocks,fun output houtput => ?_⟩,fun v payload hv =>
      resolveFramedBlock_ok hv⟩
    rw [encodeInto_of_encodedLen hlength houtput,hbytes]

end Artifacts

/-- An object with an empty and a nonempty block. -/
theorem artifact_canonical_sample : ∃ length out frame,
    encodeInto (fun b => BitVec.ofNat 64 b.length) .object ⟨⟨1,by decide⟩,⟨2,by decide⟩,3,4⟩
      [⟨.storedText,[]⟩,⟨.nodeRecord,[7,8]⟩] (zeros 300) = .ok (length,out) ∧
    decode (fun b => BitVec.ofNat 64 b.length) .object none (out.take length) = .ok frame ∧
    frame.blocks = .ok [⟨.storedText,[]⟩,⟨.nodeRecord,[7,8]⟩] := by
  obtain ⟨⟨length,out⟩,hencode,-⟩ := exists_ok (p := fun _ => true) (show (encodeInto
    (fun b => BitVec.ofNat 64 b.length) .object ⟨⟨1,by decide⟩,⟨2,by decide⟩,3,4⟩
      [⟨.storedText,[]⟩,⟨.nodeRecord,[7,8]⟩] (zeros 300)).toOption.any _ = true by
        decide +kernel)
  obtain ⟨frame,hframe,-,hblocks⟩ :=
    (artifact_canonical (fun b => BitVec.ofNat 64 b.length) .object).1 _ _ _ _ _ hencode none
      (by simp)
  exact ⟨length,out,frame,hencode,hframe,hblocks⟩

end Zeppelin.GraphStore
