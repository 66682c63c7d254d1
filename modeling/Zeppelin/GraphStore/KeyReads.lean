import Zeppelin.Collections.ListOrder
import Zeppelin.GraphStore.KeyStream

namespace Zeppelin.GraphStore.Keys
open Format List
open GraphWal (BlockKind PhysicalRef StoreInstanceId maxGraphInputBytes)
open PropertyGraph (EntityKind GraphGeneration)

def PayloadRef.chunkAt (payload : PayloadRef) (source : BlockSource) (store : StoreInstanceId)
    (block : FramedBlock) (index : ℕ) : Read Bytes := do
  let reference ← chunkReference block.payload index
  let chunk ← resolve source reference store block.identity.generation
  payload.checkChunk index chunk.payload
  return chunk.payload

theorem chunkAt_ok {payload : PayloadRef} {source : BlockSource} {store : StoreInstanceId}
    {block : FramedBlock} {index : ℕ} {bytes : Bytes}
    (h : payload.chunkAt source store block index = .ok bytes) :
    ∃ reference chunk,chunkReference block.payload index = .ok reference ∧
      resolve source reference store block.identity.generation = .ok chunk ∧
      payload.checkChunk index chunk.payload = .ok () ∧ chunk.payload = bytes := by
  obtain ⟨reference,href,h⟩ := bind_eq_ok h
  obtain ⟨chunk,hresolved,h⟩ := bind_eq_ok h
  obtain ⟨_,hchecked,h⟩ := bind_eq_ok h
  exact ⟨reference,chunk,href,hresolved,hchecked,Except.ok.inj h⟩

theorem withBlock_ok {source : BlockSource} {reference : PhysicalRef} {store : StoreInstanceId}
    {generation : GraphGeneration} {block : FramedBlock} :
    withBlock source reference store generation = .ok block ↔
      resolve source reference store generation = .ok block := by
  constructor
  · intro h
    obtain ⟨found,hfound,hchecked⟩ := bind_eq_ok h
    have hreference : checkReference reference = .ok () := by
      obtain ⟨_,hreference,-⟩ := bind_eq_ok hchecked
      exact hreference
    rw [resolve,hreference,ok_bind]
    exact h
  · intro h
    obtain ⟨_,-,hblock⟩ := bind_eq_ok h
    exact hblock

theorem payloadRef_ok {role : BlockKind} {length : U64} {reference : PhysicalRef}
    {payload : PayloadRef} (h : payloadRef role length reference = .ok payload) :
    payload = ⟨role,length,reference⟩ := by
  obtain ⟨_,-,h⟩ := bind_eq_ok h
  obtain ⟨_,-,h⟩ := bind_eq_ok h
  cases h
  rfl

theorem indirect_overflow (length : U64) (reference : PhysicalRef) :
    PayloadRef.indirect ⟨.overflowKey,length,reference⟩ = true := by
  simp [PayloadRef.indirect]

def Stored (source : BlockSource) (root : DirectoryRoot) : Key → Bytes → Prop
  | .inline content,bytes => bytes = content
  | .overflow logicalLength reference,bytes => bytes.length = logicalLength.toNat ∧
      ∃ payload block,payloadRef .overflowKey logicalLength reference = .ok payload ∧
        payload.root source root.store root.generation = .ok block ∧
        ∀ index,index*chunkBytes < bytes.length →
          payload.chunkAt source root.store block index =
            .ok ((bytes.drop (index*chunkBytes)).take chunkBytes)

def reach : Key → ℕ → ℕ
  | .inline _,_ => chunkBytes
  | .overflow _ _,offset => chunkBytes-offset % chunkBytes

theorem chunkBytes_pos : 0 < chunkBytes := by decide

theorem reach_pos (key : Key) (offset : ℕ) : 0 < reach key offset := by
  cases key with
  | inline content => exact chunkBytes_pos
  | overflow logicalLength reference =>
    exact Nat.sub_pos_of_lt (Nat.mod_lt _ chunkBytes_pos)

theorem reach_le (key : Key) (offset : ℕ) : reach key offset ≤ chunkBytes := by
  cases key with
  | inline content => exact le_rfl
  | overflow logicalLength reference => exact Nat.sub_le ..

theorem reach_zero (key : Key) : reach key 0 = chunkBytes := by
  cases key <;> rfl

theorem chunk_rest (bytes : Bytes) (offset limit : ℕ) :
    (((bytes.drop (offset / chunkBytes*chunkBytes)).take chunkBytes).drop
        (offset % chunkBytes)).take limit =
      (bytes.drop offset).take (min (chunkBytes-offset % chunkBytes) limit) := by
  rw [drop_take,drop_drop,take_take,Nat.mul_comm,Nat.div_add_mod,Nat.min_comm]

section Spans
variable {source : BlockSource} {root : DirectoryRoot} {key : Key} {bytes : Bytes}

theorem Stored.length_eq (h : Stored source root key bytes) : length key = bytes.length := by
  cases key with
  | inline content => exact congrArg List.length h.symm
  | overflow logicalLength reference => exact h.1.symm

theorem span_stored (h : Stored source root key bytes) {offset : ℕ}
    (hoffset : offset < bytes.length) :
    span source root key offset = .ok ((bytes.drop offset).take (reach key offset)) := by
  cases key with
  | inline content =>
    obtain rfl : bytes = content := h
    rw [span,failIf_neg _ (by omega),ok_bind]
    rfl
  | overflow logicalLength reference =>
    obtain ⟨hlength,payload,block,hpayload,hroot,hchunks⟩ := h
    have hp:=payloadRef_ok hpayload
    obtain ⟨chunkRef,chunk,href,hresolved,hchecked,hcontent⟩ :=
      chunkAt_ok (hchunks (offset / chunkBytes) ((Nat.div_mul_le_self ..).trans_lt hoffset))
    rw [span,hpayload,ok_bind,PayloadRef.spanAt,failIf_neg _ (by rw [hp]; dsimp only; omega),
      ok_bind,hroot,ok_bind,if_neg (by rw [hp]; dsimp only; omega),
      if_pos (by rw [hp]; exact indirect_overflow ..),href,ok_bind,hresolved,ok_bind,hchecked,ok_bind,hcontent,
      chunk_rest,Nat.min_self]
    have hle : chunkBytes-offset % chunkBytes ≤ chunkBytes := Nat.sub_le ..
    rw [Nat.min_eq_left hle]
    rfl

theorem copyScopedSpan_stored (h : Stored source root key bytes) {offset : ℕ}
    (hoffset : offset < bytes.length) (room : ℕ) :
    copyScopedSpan source root key offset room =
      .ok ((bytes.drop offset).take (min (reach key offset) room)) := by
  cases key with
  | inline content =>
    obtain rfl : bytes = content := h
    rw [copyScopedSpan,failIf_neg _ (by omega),ok_bind,Nat.min_comm]
    rfl
  | overflow logicalLength reference =>
    obtain ⟨hlength,payload,block,hpayload,hroot,hchunks⟩ := h
    have hp:=payloadRef_ok hpayload
    obtain ⟨chunkRef,chunk,href,hresolved,hchecked,hcontent⟩ :=
      chunkAt_ok (hchunks (offset / chunkBytes) ((Nat.div_mul_le_self ..).trans_lt hoffset))
    rw [PayloadRef.root] at hroot
    obtain ⟨found,hfound,hcheckedRoot⟩ := bind_eq_ok hroot
    rw [copyScopedSpan,hpayload,ok_bind,PayloadRef.withSpanAt,
      failIf_neg _ (by rw [hp]; dsimp only; omega),ok_bind,withBlock_ok.mpr hfound,ok_bind,
      hcheckedRoot,ok_bind,if_neg (by rw [hp]; dsimp only; omega),if_pos (by rw [hp]; exact indirect_overflow ..),
      href,ok_bind,withBlock_ok.mpr hresolved,ok_bind,hchecked,ok_bind,hcontent,chunk_rest,
      pure_bind,take_take]
    have hle : chunkBytes-offset % chunkBytes ≤ chunkBytes := Nat.sub_le ..
    have hlimit : min room (min (chunkBytes-offset % chunkBytes) (min chunkBytes room)) =
        min (reach (.overflow logicalLength reference) offset) room := by
      rw [reach]
      omega
    rw [hlimit]
    rfl

end Spans

def prefixOf (bytes : Bytes) : U8 × U64 := (bytes.headD 0,ofLe 64 ((bytes.drop 1).take 8))

theorem kindAndSpace_eq {bytes : Bytes} (h : 9 ≤ bytes.length) :
    kindAndSpace bytes =
      if ¬ (1 ≤ (prefixOf bytes).1 ∧ (prefixOf bytes).1 ≤ 2) ∨ (prefixOf bytes).2 = 0 then
        .error (.invalid "key kind or namespace")
      else .ok (prefixOf bytes) := by
  cases bytes with
  | nil => cases h
  | cons kind rest =>
    have hfield : slice? (kind::rest) 1 9 = some (((kind::rest).drop 1).take 8) :=
      if_pos ⟨by decide,h⟩
    rw [kindAndSpace,ok_bind,hfield]
    dsimp only
    by_cases hbad : ¬ (1 ≤ kind ∧ kind ≤ 2) ∨ ofLe 64 (((kind::rest).drop 1).take 8) = 0
    · rw [failIf,if_pos hbad]
      exact (if_pos hbad).symm
    · rw [failIf_neg _ hbad]
      exact (if_neg hbad).symm

theorem prefixOf_take {bytes : Bytes} {n : ℕ} (h : 9 ≤ n) :
    prefixOf (bytes.take n) = prefixOf bytes := by
  cases bytes with
  | nil => rw [take_nil]
  | cons kind rest =>
    obtain ⟨m,rfl⟩ : ∃ m,n = m+9 := ⟨n-9,by omega⟩
    simp only [prefixOf,take_succ_cons,headD_cons,drop_succ_cons,drop_zero,
      take_take]
    rw [Nat.min_eq_left (by omega)]

theorem prefixOf_eq_iff {a b : Bytes} (ha : 9 ≤ a.length) (hb : 9 ≤ b.length) :
    prefixOf a = prefixOf b ↔ a.take 9 = b.take 9 := by
  constructor
  · intro h
    cases a with
    | nil => cases ha
    | cons x a =>
      cases b with
      | nil => cases hb
      | cons y b =>
        obtain ⟨hkind,hspace⟩ := Prod.mk.inj h
        have hfield : ∀ l : Bytes,9 ≤ l.length+1 → toLe 8 (ofLe 64 (l.take 8)) = l.take 8 :=
          fun l hl => toLe_ofLe 8 (by decide) _ (length_take_of_le (by omega))
        have htail:=congrArg (toLe 8) hspace
        rw [drop_one,drop_one,tail_cons,tail_cons,hfield a ha,
          hfield b hb] at htail
        rw [take_succ_cons,take_succ_cons,htail]
        exact congrArg (· :: _) hkind
  · intro h
    rw [← @prefixOf_take a _ le_rfl,h,prefixOf_take le_rfl]

structure Admitted (bytes : Bytes) : Prop where
  short : 9 ≤ bytes.length
  long : bytes.length ≤ maxGraphInputBytes
  kind : 1 ≤ (prefixOf bytes).1 ∧ (prefixOf bytes).1 ≤ 2
  space : (prefixOf bytes).2 ≠ 0

section Prefix
variable {source : BlockSource} {root : DirectoryRoot} {key : Key} {bytes : Bytes}

theorem kindAndSpace_take (h : 9 ≤ bytes.length) {n : ℕ} (hn : 9 ≤ n) :
    kindAndSpace (bytes.take n) = kindAndSpace bytes := by
  rw [kindAndSpace_eq (by rw [length_take]; omega),kindAndSpace_eq h,prefixOf_take hn]

theorem spanPrefix_eq (h : Stored source root key bytes) (hlong : 9 ≤ bytes.length) :
    spanPrefix source root key = kindAndSpace bytes := by
  have hspan:=span_stored h (show 0 < bytes.length by omega)
  rw [reach_zero,drop_zero] at hspan
  rw [spanPrefix,hspan,ok_bind,kindAndSpace_take hlong (by decide)]

theorem scopedPrefix_eq (h : Stored source root key bytes) (hlong : 9 ≤ bytes.length) :
    scopedPrefix source root key = kindAndSpace bytes := by
  have hspan:=copyScopedSpan_stored h (show 0 < bytes.length by omega) 9
  rw [reach_zero,drop_zero,Nat.min_eq_right (by decide : 9 ≤ chunkBytes)] at hspan
  rw [scopedPrefix,hspan,ok_bind,failIf_neg _ (by simpa using hlong),ok_bind,
    kindAndSpace_take hlong le_rfl]

theorem keyPrefix_eq (h : Stored source root key bytes) (hlong : 9 ≤ bytes.length) :
    keyPrefix source root key = kindAndSpace bytes := by
  rw [keyPrefix,spanPrefix_eq h hlong,scopedPrefix_eq h hlong,ite_self]

theorem kindAndSpace_admitted (h : Admitted bytes) :
    kindAndSpace bytes = .ok (prefixOf bytes) := by
  rw [kindAndSpace_eq h.short,if_neg]
  intro hbad
  rcases hbad with hkind | hspace
  · exact hkind h.kind
  · exact h.space hspace

end Prefix

def Valid (source : BlockSource) (root : DirectoryRoot) (key : Key) : Prop :=
  ∃ copying,validateKey ⟨source.block,copying⟩ root key = .ok ()

section Payload
variable {payload : PayloadRef} {source : BlockSource} {store : StoreInstanceId}
  {generation : GraphGeneration}

theorem chunkAt_length {block : FramedBlock} {index : ℕ} {chunk : Bytes}
    (h : payload.chunkAt source store block index = .ok chunk) :
    chunk.length = min (payload.length.toNat-index*chunkBytes) chunkBytes := by
  obtain ⟨-,found,-,-,hcheck,rfl⟩ := chunkAt_ok h
  rw [PayloadRef.checkChunk] at hcheck
  split_ifs at hcheck with hbeyond
  rw [failIf_eq_ok,not_or,not_not] at hcheck
  exact hcheck.2

variable {offset maximum : ℕ} {piece : Bytes}

theorem piece_length {total start skip size : ℕ} (h : start+skip = offset) :
    min (min size maximum) (min (total-start) size-skip) =
      min (min (total-offset) (size-skip)) maximum := by
  omega

theorem spanAt_ok (hindirect : payload.indirect = true)
    (h : payload.spanAt source store generation offset maximum = .ok piece) :
    ∃ block,payload.root source store generation = .ok block ∧
      (offset < payload.length.toNat → ∃ chunk,
        payload.chunkAt source store block (offset / chunkBytes) = .ok chunk ∧
        piece.length = min (min (payload.length.toNat-offset)
          (chunkBytes-offset % chunkBytes)) maximum) := by
  obtain ⟨_,-,h⟩ := bind_eq_ok h
  obtain ⟨block,hroot,h⟩ := bind_eq_ok h
  refine ⟨block,hroot,fun hoffset => ?_⟩
  rw [if_neg (by omega),if_pos hindirect] at h
  obtain ⟨reference,hreference,h⟩ := bind_eq_ok h
  obtain ⟨chunk,hchunk,h⟩ := bind_eq_ok h
  obtain ⟨_,hcheck,h⟩ := bind_eq_ok h
  have hread : payload.chunkAt source store block (offset / chunkBytes) = .ok chunk.payload := by
    rw [PayloadRef.chunkAt,hreference,ok_bind,hchunk,ok_bind,hcheck,ok_bind]
    rfl
  refine ⟨chunk.payload,hread,?_⟩
  rw [← Except.ok.inj h,length_take,length_drop,chunkAt_length hread]
  exact piece_length (Nat.div_add_mod' offset chunkBytes)

theorem withSpanAt_ok (h : payload.withSpanAt source store generation offset maximum = .ok piece) :
    payload.spanAt source store generation offset maximum = .ok piece := by
  rw [PayloadRef.withSpanAt] at h
  obtain ⟨_,hend,h⟩ := bind_eq_ok h
  obtain ⟨block,hblock,h⟩ := bind_eq_ok h
  obtain ⟨checked,hchecked,h⟩ := bind_eq_ok h
  rw [PayloadRef.spanAt,hend,ok_bind,PayloadRef.root,withBlock_ok.mp hblock,ok_bind,
    hchecked,ok_bind]
  by_cases hlast : offset = payload.length.toNat
  · rw [if_pos hlast] at h ⊢
    exact h
  · rw [if_neg hlast] at h ⊢
    by_cases hindirect : payload.indirect = true
    · rw [if_pos hindirect] at h ⊢
      obtain ⟨reference,hreference,h⟩ := bind_eq_ok h
      obtain ⟨chunk,hchunk,h⟩ := bind_eq_ok h
      rw [hreference,ok_bind,withBlock_ok.mp hchunk,ok_bind]
      exact h
    · rw [if_neg hindirect] at h ⊢
      exact h

end Payload

theorem validateFenceKey_reads {length : ℕ} {consume : ℕ → Read Bytes} {chunk : ℕ → Prop}
    (hconsume : ∀ p piece,p < length → consume p = .ok piece →
      piece.length = min (length-p) (chunkBytes-p % chunkBytes) ∧ chunk (p / chunkBytes))
    {position : ℕ} {utf8 : Utf8State} (hposition : position < length)
    (h : validateFenceKey length consume position utf8 = .ok ()) :
    ∀ index,position / chunkBytes ≤ index → index*chunkBytes < length → chunk index := by
  induction hleft : length-position using Nat.strong_induction_on generalizing position utf8 with
  | _ left ih =>
    intro index hindex hinside
    rw [validateFenceKey,if_pos hposition] at h
    obtain ⟨piece,hpiece,h⟩ := bind_eq_ok h
    obtain ⟨next,-,h⟩ := bind_eq_ok h
    obtain ⟨hlength,hchunk⟩ := hconsume position piece hposition hpiece
    split_ifs at h with hshort
    rcases Nat.eq_or_lt_of_le hindex with heq | hlt
    · rwa [← heq]
    · -- the next span starts with the next chunk
      have hsplit:=Nat.div_add_mod' position chunkBytes
      have hmod:=Nat.mod_lt position chunkBytes_pos
      have hnext : (position / chunkBytes+1)*chunkBytes ≤ index*chunkBytes :=
        Nat.mul_le_mul_right _ hlt
      rw [Nat.add_mul,Nat.one_mul] at hnext
      have hstart : position+piece.length = (position / chunkBytes+1)*chunkBytes := by
        rw [Nat.add_mul,Nat.one_mul]
        omega
      refine ih _ (by omega) (by omega) h rfl index ?_ hinside
      rw [hstart,Nat.mul_div_cancel _ chunkBytes_pos]
      exact hlt

def joined (length : ℕ) (chunk : ℕ → Bytes) : Bytes :=
  (List.range length).map fun i => (chunk (i / chunkBytes)).getD (i % chunkBytes) 0

theorem joined_chunk {length : ℕ} {chunk : ℕ → Bytes} {index : ℕ}
    (hlength : (chunk index).length = min (length-index*chunkBytes) chunkBytes) :
    ((joined length chunk).drop (index*chunkBytes)).take chunkBytes = chunk index := by
  apply ext_getElem
  · rw [length_take,length_drop,joined,length_map,length_range,hlength,
      Nat.min_comm]
  · intro i hi hi'
    have hsmall : i < chunkBytes := by omega
    have hdiv : (index*chunkBytes+i) / chunkBytes = index := by
      rw [Nat.mul_comm,Nat.mul_add_div chunkBytes_pos,Nat.div_eq_of_lt hsmall,Nat.add_zero]
    have hmod : (index*chunkBytes+i) % chunkBytes = i := by
      rw [Nat.mul_comm,Nat.mul_add_mod,Nat.mod_eq_of_lt hsmall]
    rw [getElem_take,getElem_drop]
    simp only [joined,getElem_map,getElem_range,hdiv,hmod]
    rw [getD_eq_getElem?_getD,getElem?_eq_getElem hi',Option.getD_some]

section Validation
variable {source : BlockSource} {root : DirectoryRoot} {logicalLength : U64}
  {reference : PhysicalRef}

theorem overflow_stored {payload : PayloadRef}
    {block : FramedBlock} (hpayload : payloadRef .overflowKey logicalLength reference = .ok payload)
    (hroot : payload.root source root.store root.generation = .ok block)
    (hchunks : ∀ index,index*chunkBytes < logicalLength.toNat → ∃ chunk,
      payload.chunkAt source root.store block index = .ok chunk) :
    ∃ bytes,Stored source root (.overflow logicalLength reference) bytes := by
  let chunk (index : ℕ) : Bytes :=
    (payload.chunkAt source root.store block index).toOption.getD []
  have hlength : (joined logicalLength.toNat chunk).length = logicalLength.toNat := by
    rw [joined,length_map,length_range]
  refine ⟨joined logicalLength.toNat chunk,hlength,payload,block,hpayload,hroot,?_⟩
  intro index hindex
  rw [hlength] at hindex
  obtain ⟨found,hfound⟩ := hchunks index hindex
  have hsame : chunk index = found := by
    show (payload.chunkAt source root.store block index).toOption.getD [] = found
    rw [hfound]
    rfl
  have hp:=payloadRef_ok hpayload
  have hsize:=chunkAt_length hfound
  rw [hp] at hsize
  rw [joined_chunk (by rw [hsame]; exact hsize),hsame,hfound]

/-- What reading a span of an overflow key goes through. -/
def ReadsAt (source : BlockSource) (root : DirectoryRoot) (logicalLength : U64)
    (reference : PhysicalRef) (offset maximum : ℕ) (piece : Bytes) : Prop :=
  ∃ payload block,payloadRef .overflowKey logicalLength reference = .ok payload ∧
    payload.root source root.store root.generation = .ok block ∧
    (offset < logicalLength.toNat → ∃ chunk,
      payload.chunkAt source root.store block (offset / chunkBytes) = .ok chunk ∧
      piece.length = min (min (logicalLength.toNat-offset)
        (chunkBytes-offset % chunkBytes)) maximum)

theorem span_reads {offset : ℕ} {piece : Bytes}
    (h : span source root (.overflow logicalLength reference) offset = .ok piece) :
    ReadsAt source root logicalLength reference offset chunkBytes piece := by
  obtain ⟨payload,hpayload,h⟩ := bind_eq_ok h
  obtain rfl := payloadRef_ok hpayload
  obtain ⟨block,hroot,hchunk⟩ := spanAt_ok (indirect_overflow ..) h
  exact ⟨_,block,hpayload,hroot,hchunk⟩

theorem copyScopedSpan_reads {offset room : ℕ} {piece : Bytes}
    (h : copyScopedSpan source root (.overflow logicalLength reference) offset room = .ok piece) :
    ReadsAt source root logicalLength reference offset room piece := by
  obtain ⟨payload,hpayload,h⟩ := bind_eq_ok h
  obtain rfl := payloadRef_ok hpayload
  obtain ⟨bytes,hbytes,h⟩ := bind_eq_ok h
  obtain ⟨block,hroot,hchunk⟩ := spanAt_ok (indirect_overflow ..) (withSpanAt_ok hbytes)
  refine ⟨_,block,hpayload,hroot,fun hoffset => ?_⟩
  obtain ⟨chunk,hread,hlength⟩ := hchunk hoffset
  refine ⟨chunk,hread,?_⟩
  rw [← Except.ok.inj h,length_take,hlength]
  dsimp only
  omega

theorem admitted_of_keyPrefix {key : Key} {bytes : Bytes} {front : U8 × U64}
    (hstored : Stored source root key bytes) (hshort : 9 ≤ bytes.length)
    (hlong : bytes.length ≤ maxGraphInputBytes) (h : keyPrefix source root key = .ok front) :
    Admitted bytes := by
  rw [keyPrefix_eq hstored hshort,kindAndSpace_eq hshort] at h
  split_ifs at h with hbad
  rw [not_or,not_not] at hbad
  exact ⟨hshort,hlong,hbad.1,hbad.2⟩

theorem validateKey_chunks
    (h : validateKey source root (.overflow logicalLength reference) = .ok ()) :
    ∃ bytes,Stored source root (.overflow logicalLength reference) bytes := by
  obtain ⟨_,hbounds,h⟩ := bind_eq_ok h
  obtain ⟨front,hfront,h⟩ := bind_eq_ok h
  rw [failIf_eq_ok,not_or,Nat.not_lt,Nat.not_lt] at hbounds
  have hshort : 9 ≤ logicalLength.toNat := hbounds.1
  -- both readers of the prefix have read the first chunk
  have hfirst : ∃ maximum piece,ReadsAt source root logicalLength reference 0 maximum piece := by
    rw [keyPrefix] at hfront
    split_ifs at hfront
    · obtain ⟨piece,hpiece,-⟩ := bind_eq_ok hfront
      exact ⟨9,piece,copyScopedSpan_reads hpiece⟩
    · obtain ⟨piece,hpiece,-⟩ := bind_eq_ok hfront
      exact ⟨chunkBytes,piece,span_reads hpiece⟩
  obtain ⟨_,_,payload,block,hpayload,hroot,hzero⟩ := hfirst
  obtain ⟨first,hzero,-⟩ := hzero (by omega)
  have hread : ∀ p maximum piece,p < logicalLength.toNat →
      min (logicalLength.toNat-p) (chunkBytes-p % chunkBytes) ≤ maximum →
      ReadsAt source root logicalLength reference p maximum piece →
      piece.length = min (logicalLength.toNat-p) (chunkBytes-p % chunkBytes) ∧
        ∃ chunk,payload.chunkAt source root.store block (p / chunkBytes) = .ok chunk := by
    intro p maximum piece hp hmaximum ⟨other,found,hother,hfound,hreads⟩
    obtain rfl := Except.ok.inj (hother.symm.trans hpayload)
    obtain rfl := Except.ok.inj (hfound.symm.trans hroot)
    obtain ⟨chunk,hchunk,hlength⟩ := hreads hp
    exact ⟨hlength.trans (Nat.min_eq_left hmaximum),chunk,hchunk⟩
  refine overflow_stored hpayload hroot fun index hindex => ?_
  rcases Nat.eq_or_lt_of_le hshort with hnine | hlong
  · rw [← hnine] at hindex
    have hindex : index = 0 := by
      by_contra hne
      have hle:=Nat.mul_le_mul_right chunkBytes (Nat.one_le_iff_ne_zero.mpr hne)
      have hbig : 9 ≤ 1*chunkBytes := by decide
      omega
    rw [hindex]
    exact ⟨first,hzero⟩
  · split_ifs at h
    · refine @validateFenceKey_reads _ _
        (fun index => ∃ chunk,payload.chunkAt source root.store block index = .ok chunk)
        (fun p piece hp hpiece => ?_) _ _ hlong h index ?_ hindex
      · refine hread p _ piece hp ?_ (copyScopedSpan_reads hpiece)
        exact Nat.le_min.mpr ⟨Nat.min_le_left ..,(Nat.min_le_right ..).trans (Nat.sub_le ..)⟩
      · exact Nat.zero_le _
    · refine @validateFenceKey_reads _ _
        (fun index => ∃ chunk,payload.chunkAt source root.store block index = .ok chunk)
        (fun p piece hp hpiece => ?_) _ _ hlong h index ?_ hindex
      · exact hread p _ piece hp ((Nat.min_le_right ..).trans (Nat.sub_le ..)) (span_reads hpiece)
      · exact Nat.zero_le _

theorem Valid.stored {key : Key} (h : Valid source root key) :
    ∃ bytes,Stored source root key bytes ∧ Admitted bytes := by
  obtain ⟨copying,h⟩ := h
  have hstored : ∃ bytes,Stored ⟨source.block,copying⟩ root key bytes := by
    cases key with
    | inline content => exact ⟨content,rfl⟩
    | overflow logicalLength reference => exact validateKey_chunks h
  obtain ⟨bytes,hstored⟩ := hstored
  obtain ⟨_,hbounds,h⟩ := bind_eq_ok h
  obtain ⟨front,hfront,-⟩ := bind_eq_ok h
  rw [failIf_eq_ok,not_or,Nat.not_lt,Nat.not_lt,hstored.length_eq] at hbounds
  exact ⟨bytes,hstored, admitted_of_keyPrefix hstored hbounds.1 hbounds.2 hfront⟩

end Validation

end Zeppelin.GraphStore.Keys
