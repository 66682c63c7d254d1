import Zeppelin.VectorGraph.BlockSpec

namespace Zeppelin.VectorGraph
open Format List

variable {l : GraphNodeLayout} {nodeCount : U32} {bytes blocks : Bytes} {n position : ℕ}

variable {node : GraphNodeBlockInput} {nodes : List GraphNodeBlockInput}

theorem encodeNode_length {nodeId : U32} {block : Bytes}
    (h : encodeNode l nodeCount nodeId node = .ok block) : block.length = l.stride.toNat := by
  obtain ⟨hfits,rfl⟩ := encodeNode_ok_iff.mp h
  rw [← viewBytes_viewOf]
  exact hfits.viewFits.stride

theorem encodeNodes_length (h : encodeNodes l nodeCount position nodes = .ok blocks) :
    blocks.length = l.stride.toNat*nodes.length := by
  induction nodes generalizing position blocks with
  | nil =>
    obtain rfl := Except.ok.inj h
    rfl
  | cons node nodes ih =>
    obtain ⟨block,hblock,h⟩ := bind_eq_ok h
    obtain ⟨rest,hrest,rfl⟩ := bind_pure_eq_ok h
    rw [length_append,encodeNode_length hblock,ih hrest,length_cons]
    ring

theorem encodeNodes_block (h : encodeNodes l nodeCount position nodes = .ok blocks) {i : ℕ}
    (hi : nodes[i]? = some node) : ∃ block behind,
      encodeNode l nodeCount (BitVec.ofNat 32 (position+i)) node = .ok block ∧
        blocks.drop (i*l.stride.toNat) = block++behind := by
  induction nodes generalizing position blocks i with
  | nil => simp at hi
  | cons first nodes ih =>
    obtain ⟨block,hblock,h⟩ := bind_eq_ok h
    obtain ⟨rest,hrest,rfl⟩ := bind_pure_eq_ok h
    cases i with
    | zero =>
      obtain rfl := Option.some.inj hi
      exact ⟨block,rest,hblock,by rw [Nat.zero_mul,drop_zero]⟩
    | succ i =>
      obtain ⟨found,behind,hfound,hdrop⟩ := ih hrest hi
      refine ⟨found,behind,?_,?_⟩
      · rwa [show position+(i+1) = position+1+i by omega]
      · rw [← hdrop,Nat.add_one_mul,Nat.add_comm,← drop_drop,
          drop_left' (encodeNode_length hblock)]

structure NodeAt (l : GraphNodeLayout) (nodeCount : U32) (bytes : Bytes) (position : ℕ)
    (block : Bytes) : Prop where
  offset : position*l.stride.toNat < 2^32
  slice : slice? bytes (position*l.stride.toNat)
    (position*l.stride.toNat+l.stride.toNat) = some block
  valid : validateDecodedNode l (BitVec.ofNat 32 position) nodeCount block = .ok ()

theorem toNat_position (h : position < 2^32) : (BitVec.ofNat 32 position).toNat = position := by
  rw [BitVec.toNat_ofNat,Nat.mod_eq_of_lt h]

theorem blockOffset_eq (h : position < 2^32) : l.blockOffset (BitVec.ofNat 32 position) =
    if position*l.stride.toNat < 2^32 then .ok (position*l.stride.toNat)
    else .error .arithmeticOverflow := by
  rw [GraphNodeLayout.blockOffset,toNat_position h]

theorem checkNodes_ok_iff (hlt : position+n ≤ 2^32) :
    checkNodes l nodeCount bytes n position = .ok () ↔
      ∀ i < n,∃ block,NodeAt l nodeCount bytes (position+i) block := by
  induction n generalizing position with
  | zero => simp [checkNodes]
  | succ n ih =>
    have hstep : checkNodes l nodeCount bytes (n+1) position = .ok () ↔
        (∃ block,NodeAt l nodeCount bytes position block) ∧
          checkNodes l nodeCount bytes n (position+1) = .ok () := by
      rw [checkNodes,blockOffset_eq (by omega)]
      constructor
      · intro h
        obtain ⟨start,hstart,h⟩ := bind_eq_ok h
        split_ifs at hstart with hoffset
        obtain rfl := Except.ok.inj hstart
        split at h
        · cases h
        · rename_i block hslice
          obtain ⟨⟨⟩,hvalid,hrest⟩ := bind_eq_ok h
          exact ⟨⟨block,hoffset,hslice,hvalid⟩,hrest⟩
      · rintro ⟨⟨block,hnode⟩,hrest⟩
        rw [if_pos hnode.offset,ok_bind,hnode.slice]
        simp only [hnode.valid,ok_bind]
        exact hrest
    rw [hstep,ih (by omega)]
    constructor
    · rintro ⟨hfirst,hrest⟩ i hi
      cases i with
      | zero => exact hfirst
      | succ i =>
        rw [show position+(i+1) = position+1+i by omega]
        exact hrest i (by omega)
    · intro h
      refine ⟨h 0 (Nat.succ_pos n),fun i hi => ?_⟩
      rw [show position+1+i = position+(i+1) by omega]
      exact h (i+1) (by omega)

theorem encodeNodes_of_nodeAt (h : ∀ i < n,∃ block,NodeAt l nodeCount bytes (position+i) block) :
    ∃ nodes,nodes.length = n ∧
      encodeNodes l nodeCount position nodes =
        .ok ((bytes.drop (position*l.stride.toNat)).take (n*l.stride.toNat)) ∧
      ∀ i (hi : i < nodes.length),∃ block v,NodeAt l nodeCount bytes (position+i) block ∧
        decodeBlockView l (BitVec.ofNat 32 (position+i)) block = .ok v ∧ nodes[i] = v.input := by
  induction n generalizing position with
  | zero =>
    refine ⟨[],rfl,?_,fun i hi => absurd hi (Nat.not_lt_zero i)⟩
    rw [Nat.zero_mul,take_zero]
    rfl
  | succ n ih =>
    obtain ⟨block,hnode⟩ := h 0 (Nat.succ_pos n)
    obtain ⟨v,hview,-,-,hencode⟩ := validateDecodedNode_ok hnode.valid
    have hrest : ∀ i < n,∃ block,NodeAt l nodeCount bytes (position+1+i) block := by
      intro i hi
      rw [show position+1+i = position+(i+1) by omega]
      exact h (i+1) (by omega)
    obtain ⟨nodes,hlength,hnodes,hviews⟩ := ih hrest
    obtain ⟨-,hle,hblock⟩ := slice?_some hnode.slice
    rw [Nat.add_zero,Nat.add_sub_cancel_left] at hblock
    refine ⟨v.input::nodes,by rw [length_cons,hlength],?_,?_⟩
    · rw [encodeNodes,show BitVec.ofNat 32 position = BitVec.ofNat 32 (position+0) from rfl,
        hencode,ok_bind,hnodes,ok_bind,hblock,Nat.add_one_mul,← drop_drop,
        Nat.add_one_mul n,Nat.add_comm (n*_),take_add]
      rfl
    · intro i hi
      cases i with
      | zero => exact ⟨block,v,hnode,hview,rfl⟩
      | succ i =>
        obtain ⟨b,w,hb,hw,heq⟩ := hviews i (by simpa using hi)
        rw [show position+(i+1) = position+1+i by omega]
        exact ⟨b,w,hb,hw,heq⟩

structure Validated (g : GraphNodeBlocks) : Prop where
  size : g.blockBytes = g.layout.stride.toNat*g.nodeCount.toNat
  room : g.blockBytes ≤ g.bytes.length
  nodes : ∀ i < g.nodeCount.toNat,∃ block,NodeAt g.layout g.nodeCount g.bytes i block

variable {g : GraphNodeBlocks} {block : Bytes}

theorem checkedNodeId_eq (hi : position < g.nodeCount.toNat)
    (hnode : NodeAt g.layout g.nodeCount g.bytes position block) :
    g.checkedNodeId (BitVec.ofNat 32 position) = .ok (position*g.layout.stride.toNat) := by
  have hlt : position < 2^32 := hi.trans g.nodeCount.isLt
  have hcount : ¬ g.nodeCount ≤ BitVec.ofNat 32 position := by
    rw [BitVec.le_def,toNat_position hlt]
    omega
  rw [GraphNodeBlocks.checkedNodeId,if_neg hcount,blockOffset_eq hlt,if_pos hnode.offset]

theorem Validated.block_eq (hg : Validated g) (hi : position < g.nodeCount.toNat)
    (hnode : NodeAt g.layout g.nodeCount g.bytes position block) :
    g.block (BitVec.ofNat 32 position) =
      decodeBlockView g.layout (BitVec.ofNat 32 position) block := by
  have hend : position*g.layout.stride.toNat+g.layout.stride.toNat ≤ g.blockBytes := by
    have hmul:=Nat.mul_le_mul_right g.layout.stride.toNat (Nat.succ_le_of_lt hi)
    rw [Nat.succ_mul,Nat.mul_comm g.nodeCount.toNat] at hmul
    rw [hg.size]
    exact hmul
  rw [GraphNodeBlocks.block,checkedNodeId_eq hi hnode,ok_bind,Nat.min_eq_left hend,
    GraphNodeBlocks.sliceNode,hnode.slice]
  rfl

theorem NodeAt.drop_eq (hnode : NodeAt l nodeCount bytes position block) :
    ∃ behind,bytes.drop (position*l.stride.toNat) = block++behind := by
  obtain ⟨-,-,hblock⟩ := slice?_some hnode.slice
  rw [Nat.add_sub_cancel_left] at hblock
  exact ⟨bytes.drop (position*l.stride.toNat+l.stride.toNat),by
    rw [hblock]
    exact drop_split ..⟩

theorem slice?_of_drop {a : ℕ} {x y : Bytes} (h : bytes.drop a = x++y) (hx : 0 < x.length)
    {stop : ℕ} (hstop : stop = a+x.length) : slice? bytes a stop = some x := by
  have hlength:=length_of_drop h hx
  rw [slice?_eq_some (by omega) (by omega),h,hstop,Nat.add_sub_cancel_left,take_left]

theorem Validated.scoreRow_eq {v : GraphNodeBlock} (hi : position < g.nodeCount.toNat)
    (hnode : NodeAt g.layout g.nodeCount g.bytes position block) (hfits : ViewFits g.layout v)
    (hblock : block = viewBytes v) :
    g.scoreRow (BitVec.ofNat 32 position) = .ok (v.codes,v.factors) := by
  obtain ⟨behind,hdrop⟩ := hnode.drop_eq
  have hrow : g.bytes.drop (position*g.layout.stride.toNat) = (v.codes++v.factors.bytes)++
      (toLe 1 v.degree++(toLe 1 v.flags++(toLe 2 v.reserved++(v.neighbors++(v.padding++
        behind))))) := by
    rw [hdrop,hblock]
    simp only [viewBytes,Bit4Factors.bytes,append_assoc]
  have hlength : (v.codes++v.factors.bytes).length = g.layout.codeBytes+12 := by
    simp only [Bit4Factors.bytes,length_append,toLe_length,hfits.codes]
  have hslice:=slice?_of_drop hrow (by omega)
    (show position*g.layout.stride.toNat+(g.layout.codeBytes+12) = _ by rw [hlength])
  rw [GraphNodeBlocks.scoreRow,checkedNodeId_eq hi hnode,ok_bind,GraphNodeBlocks.sliceNode,hslice]
  simp only [ok_bind,take_left' hfits.codes,drop_left' hfits.codes]
  have hscale : v.factors.bytes.take 4 = toLe 4 v.factors.scale :=
    take_left' (toLe_length 4 _)
  have hbehind : v.factors.bytes.drop 4 =
      toLe 4 v.factors.normalizedNorm++toLe 4 v.factors.normalizedCorrection :=
    drop_left' (toLe_length 4 _)
  have hlast : v.factors.bytes.drop 8 = toLe 4 v.factors.normalizedCorrection := by
    rw [show 8 = 4+4 from rfl,← drop_drop,hbehind,drop_left' (toLe_length 4 _)]
  rw [hscale,hbehind,hlast,take_left' (toLe_length 4 _),
    take_of_length_le (by rw [toLe_length])]
  simp only [ofLe_toLe_32]
  rfl

theorem toLe_one (v : U8) : toLe 1 v = [v] := by
  rw [toLe,leBytes,leBytes,BitVec.ofNat_toNat,BitVec.setWidth_eq]

theorem Validated.adjacency_eq {v : GraphNodeBlock} (hi : position < g.nodeCount.toNat)
    (hnode : NodeAt g.layout g.nodeCount g.bytes position block) (hfits : ViewFits g.layout v)
    (hblock : block = viewBytes v) :
    g.adjacency (BitVec.ofNat 32 position) = .ok (v.degree,v.neighborsPadded) := by
  obtain ⟨behind,hdrop⟩ := hnode.drop_eq
  have hfront : g.bytes.drop (position*g.layout.stride.toNat) = (v.codes++v.factors.bytes)++
      ((toLe 1 v.degree++(toLe 1 v.flags++(toLe 2 v.reserved++v.neighbors)))++(v.padding++
        behind)) := by
    rw [hdrop,hblock]
    simp only [viewBytes,Bit4Factors.bytes,append_assoc]
  have hlength : (v.codes++v.factors.bytes).length = g.layout.codeBytes+12 := by
    simp only [Bit4Factors.bytes,length_append,toLe_length,hfits.codes]
  have hrow:=drop_behind hfront hlength
  have hrowLength : (toLe 1 v.degree++(toLe 1 v.flags++(toLe 2 v.reserved++
      v.neighbors))).length = g.layout.maxDegree.toNat*4+4 := by
    simp only [length_append,toLe_length,hfits.neighbors]
    omega
  have hslice:=slice?_of_drop hrow (by omega)
    (show position*g.layout.stride.toNat+(g.layout.codeBytes+12)+
      (g.layout.maxDegree.toNat*4+4) = _ by rw [hrowLength])
  rw [GraphNodeBlocks.adjacency,checkedNodeId_eq hi hnode,ok_bind]
  simp only
  rw [GraphNodeBlocks.sliceNode,hslice]
  simp only [ok_bind,toLe_one]
  rfl

theorem trailerFields_length (l : GraphNodeLayout) (nodeCount : U32) (passes : RefinementPasses) :
    (trailerFields l nodeCount passes).length = 32 := by
  simp only [trailerFields,length_append,toLe_length,zeros_length,nodeBlockMagic,
    length_cons,length_nil]

theorem fromBits_bits (passes : RefinementPasses) :
    RefinementPasses.fromBits passes.bits = some passes := by
  rw [RefinementPasses.fromBits,dif_pos passes.known]

theorem readTrailer_fields (l : GraphNodeLayout) (nodeCount : U32) (passes : RefinementPasses)
    (checksum : U64) (rest : Bytes) :
    readTrailer (trailerFields l nodeCount passes++(toLe 8 checksum++rest)) =
      .ok ⟨passes,l.dims,l.paddedDims,l.maxDegree,l.stride,nodeCount,checksum⟩ := by
  set trailer := trailerFields l nodeCount passes++(toLe 8 checksum++rest) with htrailer
  have h0 : trailer.drop 0 = nodeBlockMagic++(toLe 2 (1 : U16)++(toLe 2 passes.bits++
      (toLe 4 l.dims++(toLe 4 l.paddedDims++(toLe 1 l.maxDegree++(zeros 3++(toLe 4 l.stride++
        (toLe 4 nodeCount++(toLe 8 checksum++rest))))))))) := by
    simp only [htrailer,trailerFields,append_assoc,drop_zero]
  have hmagic : trailer.take 8 = nodeBlockMagic := by
    rw [← drop_zero (l := trailer),h0]
    exact take_left' rfl
  have h8:=drop_behind h0 (show nodeBlockMagic.length = 8 from rfl)
  have h10:=drop_behind h8 (toLe_length 2 _)
  have h12:=drop_behind h10 (toLe_length 2 _)
  have h16:=drop_behind h12 (toLe_length 4 _)
  have h20:=drop_behind h16 (toLe_length 4 _)
  have h21:=drop_behind h20 (toLe_length 1 _)
  have h24:=drop_behind h21 (zeros_length 3)
  have h28:=drop_behind h24 (toLe_length 4 _)
  have h32:=drop_behind h28 (toLe_length 4 _)
  simp only [Nat.zero_add,Nat.reduceAdd] at h8 h10 h12 h16 h20 h21 h24 h28 h32
  rw [readTrailer,if_neg (not_not.mpr hmagic),read_of_drop rfl (by decide) h8,ok_bind,
    if_neg (not_not.mpr rfl),readPasses,read_of_drop rfl (by decide) h10]
  simp only [ok_bind,fromBits_bits]
  rw [read_of_drop rfl (by decide) h12,ok_bind,read_of_drop rfl (by decide) h16,ok_bind,
    read_of_drop rfl (by decide) h20,ok_bind,h21,take_left' (zeros_length 3),allZero_zeros,
    if_neg (by decide),read_of_drop rfl (by decide) h24,ok_bind,
    read_of_drop rfl (by decide) h28,ok_bind,read_of_drop rfl (by decide) h32,ok_bind]
  rfl

theorem readTrailer_ok {trailer : Bytes} {t : Trailer} (h : readTrailer trailer = .ok t)
    (l : GraphNodeLayout) (hdims : l.dims = t.dims) (hpadded : l.paddedDims = t.paddedDims)
    (hdegree : l.maxDegree = t.maxDegree) (hstride : l.stride = t.stride) :
    trailer = trailerFields l t.nodeCount t.passes++(toLe 8 t.checksum++trailer.drop 40) := by
  unfold readTrailer at h
  have hmagic : trailer.take 8 = nodeBlockMagic := by
    by_contra hne
    rw [if_pos hne] at h
    cases h
  rw [if_neg (not_not.mpr hmagic)] at h
  obtain ⟨version,hversion,h⟩ := bind_eq_ok h
  have hone : version = 1 := by
    by_contra hne
    rw [if_pos hne] at h
    cases h
  rw [if_neg (not_not.mpr hone)] at h
  obtain ⟨passes,hpasses,h⟩ := bind_eq_ok h
  obtain ⟨dims,hdimsRead,h⟩ := bind_eq_ok h
  obtain ⟨paddedDims,hpaddedRead,h⟩ := bind_eq_ok h
  obtain ⟨maxDegree,hdegreeRead,h⟩ := bind_eq_ok h
  split_ifs at h with hzero
  obtain ⟨stride,hstrideRead,h⟩ := bind_eq_ok h
  obtain ⟨count,hcountRead,h⟩ := bind_eq_ok h
  obtain ⟨checksum,hchecksumRead,rfl⟩ := bind_pure_eq_ok h
  obtain ⟨bits,hbits,hpasses⟩ := bind_eq_ok hpasses
  have hpassBits : passes.bits = bits := by
    unfold RefinementPasses.fromBits at hpasses
    split at hpasses
    · cases hpasses
    · rename_i found hfound
      split_ifs at hfound with hknown
      obtain rfl := Option.some.inj hfound
      obtain rfl := Except.ok.inj hpasses
      rfl
  simp only at hdims hpadded hdegree hstride
  have hreserved : (trailer.drop 21).take 3 = zeros 3 := by
    have hall:=eq_zeros_of_allZero (by simpa using hzero)
    have hlength : ((trailer.drop 21).take 3).length = 3 := by
      have hroom:=length_of_read rfl hstrideRead
      rw [length_take,length_drop]
      omega
    rwa [hlength] at hall
  have htail : trailer.drop 21 = zeros 3++trailer.drop 24 := by
    rw [← hreserved]
    exact drop_split trailer 21 3
  calc trailer = trailer.take 8++trailer.drop 8 := (take_append_drop ..).symm
    _ = _ := by
      rw [hmagic,drop_of_read rfl hversion,drop_of_read rfl hbits,drop_of_read rfl hdimsRead,
        drop_of_read rfl hpaddedRead,drop_of_read rfl hdegreeRead,htail,
        drop_of_read rfl hstrideRead,drop_of_read rfl hcountRead,drop_of_read rfl hchecksumRead,
        trailerFields,hdims,hpadded,hdegree,hstride,hpassBits,hone]
      simp only [append_assoc]

section Checksum
variable {xxh3 : Bytes → U64} {passes : RefinementPasses}

theorem regionBytes_length (h : blocks.length = l.stride.toNat*nodeCount.toNat) :
    (regionBytes xxh3 l nodeCount passes blocks).length =
      l.stride.toNat*nodeCount.toNat+128 := by
  simp only [regionBytes,length_append,trailerFields_length,toLe_length,zeros_length,h]

theorem decodeNodeBlocks_region (h : blocks.length = l.stride.toNat*nodeCount.toNat) :
    decodeNodeBlocks xxh3 (regionBytes xxh3 l nodeCount passes blocks) = (do
      checkNodes l nodeCount (regionBytes xxh3 l nodeCount passes blocks) nodeCount.toNat 0
      return ⟨regionBytes xxh3 l nodeCount passes blocks,l,nodeCount,
        l.stride.toNat*nodeCount.toNat,passes⟩) := by
  have hlength : (regionBytes xxh3 l nodeCount passes blocks).length =
      l.stride.toNat*nodeCount.toNat+128 := regionBytes_length h
  set bytes := regionBytes xxh3 l nodeCount passes blocks with hbytes
  have hstart : bytes.length-trailerLen = blocks.length := by
    rw [hlength,h,trailerLen,Nat.add_sub_cancel]
  have hdrop : bytes.drop blocks.length = trailerFields l nodeCount passes++
      (toLe 8 (xxh3 (blocks++trailerFields l nodeCount passes))++zeros 88) := by
    rw [hbytes,regionBytes,drop_left]
  have hchecked : bytes.take (blocks.length+32) = blocks++trailerFields l nodeCount passes := by
    rw [hbytes,regionBytes,← append_assoc]
    exact take_left' (by rw [length_append,trailerFields_length])
  have hzeros : (trailerFields l nodeCount passes++(toLe 8 (xxh3 (blocks++
      trailerFields l nodeCount passes))++zeros 88)).drop 40 = zeros 88 := by
    rw [← append_assoc]
    exact drop_left' (by rw [length_append,trailerFields_length,toLe_length])
  unfold decodeNodeBlocks
  rw [if_neg (by rw [hlength,trailerLen]; omega)]
  simp only [hstart]
  rw [hdrop,readTrailer_fields,ok_bind]
  simp only
  rw [hchecked,if_neg (not_not.mpr rfl),hzeros,allZero_zeros,if_neg (by decide),
    GraphNodeLayout.new_self,ok_bind,if_neg (not_not.mpr rfl),if_neg (not_not.mpr h)]

theorem decodeNodeBlocks_ok (h : decodeNodeBlocks xxh3 bytes = .ok g) :
    g.bytes = bytes ∧ Validated g ∧
      bytes = regionBytes xxh3 g.layout g.nodeCount g.refinementPasses (bytes.take g.blockBytes) := by
  unfold decodeNodeBlocks at h
  have hlong : ¬ bytes.length < trailerLen := by
    intro hshort
    rw [if_pos hshort] at h
    cases h
  rw [if_neg hlong] at h
  obtain ⟨t,htrailer,h⟩ := bind_eq_ok h
  simp only at h
  have hchecksum : xxh3 (bytes.take (bytes.length-trailerLen+32)) = t.checksum := by
    by_contra hne
    rw [if_pos hne] at h
    cases h
  rw [if_neg (not_not.mpr hchecksum)] at h
  have hzero : allZero ((bytes.drop (bytes.length-trailerLen)).drop 40) = true := by
    by_contra hne
    rw [if_pos (by simpa using hne)] at h
    cases h
  rw [if_neg (by rw [hzero]; decide)] at h
  obtain ⟨layout,hlayout,h⟩ := bind_eq_ok h
  have hstride : t.stride = layout.stride := by
    by_contra hne
    rw [if_pos hne] at h
    cases h
  rw [if_neg (not_not.mpr hstride)] at h
  have hstart : bytes.length-trailerLen = layout.stride.toNat*t.nodeCount.toNat := by
    by_contra hne
    rw [if_pos hne] at h
    split_ifs at h
  rw [if_neg (not_not.mpr hstart)] at h
  obtain ⟨⟨⟩,hnodes,rfl⟩ := bind_pure_eq_ok h
  obtain ⟨hdims,hpadded,hdegree⟩ := GraphNodeLayout.new_ok hlayout
  have hfields:=readTrailer_ok htrailer layout hdims hpadded hdegree hstride.symm
  rw [trailerLen] at hlong hstart hfields hchecksum hzero
  have hbound : t.nodeCount.toNat ≤ 2^32 := t.nodeCount.isLt.le
  have hnodesAt:=(checkNodes_ok_iff (by omega)).mp hnodes
  refine ⟨rfl,⟨rfl,?_,?_⟩,?_⟩
  · show layout.stride.toNat*t.nodeCount.toNat ≤ bytes.length
    omega
  · intro i hi
    have hnode:=hnodesAt i hi
    rwa [Nat.zero_add] at hnode
  · show bytes = regionBytes xxh3 layout t.nodeCount t.passes
      (bytes.take (layout.stride.toNat*t.nodeCount.toNat))
    rw [hstart] at hfields hchecksum hzero
    have hlast : (bytes.drop (layout.stride.toNat*t.nodeCount.toNat)).drop 40 = zeros 88 := by
      have hall:=eq_zeros_of_allZero hzero
      rwa [length_drop,length_drop,show bytes.length-
        layout.stride.toNat*t.nodeCount.toNat-40 = 88 by omega] at hall
    have hsum : bytes.take (layout.stride.toNat*t.nodeCount.toNat+32) =
        bytes.take (layout.stride.toNat*t.nodeCount.toNat)++
          trailerFields layout t.nodeCount t.passes := by
      rw [take_add,hfields,take_left' (trailerFields_length ..)]
    rw [hsum] at hchecksum
    rw [regionBytes,hchecksum,← hlast,← hfields,take_append_drop]

variable {nodes : List GraphNodeBlockInput} {build : GraphNodeBlockBuild}
  {region : EncodedNodeBlocks}

theorem Validated.inputs_eq (hg : Validated g) (hlength : nodes.length = g.nodeCount.toNat)
    (h : ∀ i (hi : i < nodes.length),∃ block v,NodeAt g.layout g.nodeCount g.bytes i block ∧
      decodeBlockView g.layout (BitVec.ofNat 32 i) block = .ok v ∧ nodes[i] = v.input) :
    g.inputs = .ok nodes := by
  rw [GraphNodeBlocks.inputs,← hlength]
  refine mapM_range_ok fun i hi => ?_
  obtain ⟨block,v,hnode,hview,hinput⟩ := h i hi
  rw [hg.block_eq (hlength ▸ hi) hnode,hview,hinput]
  rfl

theorem nodeAt_of_encode
    (hblocks : encodeNodes l nodeCount 0 nodes = .ok blocks) {i : ℕ} (hi : i < nodes.length)
    (hoffset : i*l.stride.toNat < 2^32) (tail : Bytes) :
    ∃ block v,NodeAt l nodeCount (blocks++tail) i block ∧
      decodeBlockView l (BitVec.ofNat 32 i) block = .ok v ∧ nodes[i] = v.input := by
  obtain ⟨block,behind,hencode,hdrop⟩ :=
    encodeNodes_block hblocks (getElem?_eq_getElem hi)
  rw [Nat.zero_add] at hencode
  have hblockLength:=encodeNode_length hencode
  have hge:=l.stride_ge
  have hlength:=encodeNodes_length hblocks
  have hle : i*l.stride.toNat ≤ blocks.length := by
    rw [hlength,Nat.mul_comm]
    exact Nat.mul_le_mul_left _ hi.le
  have hregion : (blocks++tail).drop (i*l.stride.toNat) = block++(behind++tail) := by
    rw [drop_append_of_le_length hle,hdrop,append_assoc]
  obtain ⟨hfits,hbytes⟩ := encodeNode_ok_iff.mp hencode
  rw [← viewBytes_viewOf] at hbytes
  refine ⟨block,viewOf l nodes[i],⟨hoffset,?_,?_⟩,?_,hfits.input_viewOf.symm⟩
  · exact slice?_of_drop hregion (by omega) (by rw [hblockLength])
  · rw [hbytes]
    exact hfits.validate
  · rw [hbytes]
    exact decodeBlockView_viewBytes hfits.viewFits

theorem encodeNodeBlocks_ok (h : encodeNodeBlocks xxh3 build passes = .ok region) :
    build.nodes.length < 2^32 ∧ ∃ blocks,
      encodeNodes build.layout (BitVec.ofNat 32 build.nodes.length) 0 build.nodes = .ok blocks ∧
        region.bytes = regionBytes xxh3 build.layout (BitVec.ofNat 32 build.nodes.length) passes
          blocks := by
  unfold encodeNodeBlocks at h
  split_ifs at h with hcount hsize
  obtain ⟨blocks,hblocks,rfl⟩ := bind_pure_eq_ok h
  exact ⟨not_le.mp hcount,blocks,hblocks,rfl⟩

theorem decode_encode_iff (h : encodeNodeBlocks xxh3 build passes = .ok region) :
    (∃ g,decodeNodeBlocks xxh3 region.bytes = .ok g ∧ g.layout = build.layout ∧
      g.refinementPasses = passes ∧ g.inputs = .ok build.nodes) ↔
      (build.nodes.length-1)*build.layout.stride.toNat < 2^32 := by
  obtain ⟨hcount,blocks,hblocks,hbytes⟩ := encodeNodeBlocks_ok h
  have hnat:=toNat_position hcount
  have hlength : blocks.length = build.layout.stride.toNat*
      (BitVec.ofNat 32 build.nodes.length).toNat := by rw [hnat,encodeNodes_length hblocks]
  constructor
  · rintro ⟨g,hdecode,hlayout,-,hinputs⟩
    obtain ⟨-,hg,-⟩ := decodeNodeBlocks_ok hdecode
    rw [hbytes,decodeNodeBlocks_region hlength] at hdecode
    obtain ⟨⟨⟩,hnodes,hdecode⟩ := bind_eq_ok hdecode
    rw [hnat,checkNodes_ok_iff (by omega)] at hnodes
    cases hnodesEq : build.nodes with
    | nil => simp
    | cons node nodes =>
      rw [hnodesEq,length_cons] at hnodes
      obtain ⟨block,hnode⟩ := hnodes nodes.length (Nat.lt_succ_self _)
      have hoffset:=hnode.offset
      rwa [Nat.zero_add] at hoffset
  · intro hfits
    have hnodes : ∀ i (hi : i < build.nodes.length),∃ block v,
        NodeAt build.layout (BitVec.ofNat 32 build.nodes.length) region.bytes i block ∧
          decodeBlockView build.layout (BitVec.ofNat 32 i) block = .ok v ∧
            build.nodes[i] = v.input := by
      intro i hi
      have hle : i*build.layout.stride.toNat ≤
          (build.nodes.length-1)*build.layout.stride.toNat := Nat.mul_le_mul_right _ (by omega)
      rw [hbytes]
      exact nodeAt_of_encode hblocks hi (by omega) _
    have hcheck : checkNodes build.layout (BitVec.ofNat 32 build.nodes.length) region.bytes
        build.nodes.length 0 = .ok () := by
      refine (checkNodes_ok_iff (by omega)).mpr fun i hi => ?_
      obtain ⟨block,v,hnode,-⟩ := hnodes i hi
      rw [Nat.zero_add]
      exact ⟨block,hnode⟩
    have hdecode:=@decodeNodeBlocks_region _ _ _ xxh3 passes hlength
    rw [← hbytes,hnat,hcheck,ok_bind] at hdecode
    refine ⟨_,hdecode,rfl,rfl,?_⟩
    obtain ⟨-,hg,-⟩ := decodeNodeBlocks_ok hdecode
    exact hg.inputs_eq hnat.symm hnodes

theorem encode_decode {bytes : Bytes} (h : decodeNodeBlocks xxh3 bytes = .ok g) :
    ∃ nodes region,g.inputs = .ok nodes ∧
      encodeNodeBlocks xxh3 ⟨g.layout,nodes⟩ g.refinementPasses = .ok region ∧
        region.bytes = bytes := by
  obtain ⟨hsame,hg,hbytes⟩ := decodeNodeBlocks_ok h
  have hcount:=g.nodeCount.isLt
  have hnodesAt : ∀ i < g.nodeCount.toNat,∃ block,
      NodeAt g.layout g.nodeCount g.bytes (0+i) block := by
    intro i hi
    rw [Nat.zero_add]
    exact hg.nodes i hi
  obtain ⟨nodes,hlength,hencode,hviews⟩ := encodeNodes_of_nodeAt hnodesAt
  simp only [Nat.zero_add] at hviews
  rw [Nat.zero_mul,drop_zero,Nat.mul_comm,← hg.size,hsame] at hencode
  -- every offset fits 32 bits, so the region is far below the largest allocation
  have hsize : g.layout.stride.toNat*nodes.length+trailerLen < 2^63 := by
    have hstride:=g.layout.stride.isLt
    rw [hlength,trailerLen]
    rcases Nat.eq_zero_or_pos g.nodeCount.toNat with hzero | hpos
    · rw [hzero]
      omega
    · obtain ⟨block,hnode⟩ := hg.nodes (g.nodeCount.toNat-1) (by omega)
      have hlast:=hnode.offset
      rw [Nat.sub_mul,Nat.one_mul,Nat.mul_comm] at hlast
      omega
  have hword : BitVec.ofNat 32 nodes.length = g.nodeCount := by
    rw [hlength,BitVec.ofNat_toNat,BitVec.setWidth_eq]
  refine ⟨nodes,⟨bytes,g.layout,g.nodeCount⟩,hg.inputs_eq hlength hviews,?_,rfl⟩
  rw [encodeNodeBlocks,if_neg (by rw [hlength]; omega),if_neg (not_le.mpr hsize)]
  simp only [hword,hencode,ok_bind]
  rw [← hbytes]
  rfl

/-- A written region is read back exactly when the offset of its last node fits 32 bits; an
accepted region is written again byte for byte; the direct readers agree with the block view. -/
theorem node_blocks_canonical (xxh3 : Bytes → U64) :
    (∀ build passes region,encodeNodeBlocks xxh3 build passes = .ok region →
      ((∃ g,decodeNodeBlocks xxh3 region.bytes = .ok g ∧ g.layout = build.layout ∧
        g.refinementPasses = passes ∧ g.inputs = .ok build.nodes) ↔
        (build.nodes.length-1)*build.layout.stride.toNat < 2^32)) ∧
    (∀ bytes g,decodeNodeBlocks xxh3 bytes = .ok g → ∃ nodes region,g.inputs = .ok nodes ∧
      encodeNodeBlocks xxh3 ⟨g.layout,nodes⟩ g.refinementPasses = .ok region ∧
        region.bytes = bytes) ∧
    ∀ bytes g nodeId,decodeNodeBlocks xxh3 bytes = .ok g → nodeId < g.nodeCount →
      ∃ v,g.block nodeId = .ok v ∧ g.scoreRow nodeId = .ok (v.codes,v.factors) ∧
        g.adjacency nodeId = .ok (v.degree,v.neighborsPadded) := by
  refine ⟨fun build passes region => decode_encode_iff,fun bytes g => encode_decode,?_⟩
  intro bytes g nodeId hdecode hlt
  obtain ⟨-,hg,-⟩ := decodeNodeBlocks_ok hdecode
  have hi : nodeId.toNat < g.nodeCount.toNat := BitVec.lt_def.mp hlt
  have hword : BitVec.ofNat 32 nodeId.toNat = nodeId := by
    rw [BitVec.ofNat_toNat,BitVec.setWidth_eq]
  obtain ⟨block,hnode⟩ := hg.nodes nodeId.toNat hi
  obtain ⟨v,hview,hfits,hblock,-⟩ := validateDecodedNode_ok hnode.valid
  have hread:=hg.block_eq hi hnode
  have hscore:=Validated.scoreRow_eq hi hnode hfits hblock
  have hadjacency:=Validated.adjacency_eq hi hnode hfits hblock
  rw [hword] at hread hview hscore hadjacency
  exact ⟨v,by rw [hread,hview],hscore,hadjacency⟩

end Checksum

def lineLayout : GraphNodeLayout := ⟨128,128,12,128,by decide⟩

def plainNode : GraphNodeBlockInput := ⟨zeros 64,⟨0,0,0⟩,0,[]⟩

theorem encodeNodes_plain (nodeCount : U32) (position n : ℕ) :
    ∃ blocks,encodeNodes lineLayout nodeCount position (List.replicate n plainNode) = .ok blocks := by
  induction n generalizing position with
  | zero => exact ⟨[],rfl⟩
  | succ n ih =>
    obtain ⟨rest,hrest⟩ := ih (position+1)
    have hfits : ∀ nodeId,NodeFits lineLayout nodeCount nodeId plainNode := fun nodeId =>
      ⟨rfl,rfl,rfl,rfl,by decide,rfl⟩
    have hnode:=encodeNode_ok_iff.mpr ⟨hfits (BitVec.ofNat 32 position),rfl⟩
    rw [replicate_succ,encodeNodes,hnode,ok_bind,hrest,ok_bind]
    exact ⟨_,rfl⟩

/-- One node more than 32-bit offsets reach: written, and then refused. -/
theorem unreadable_region : ¬ ∃ xxh3 : Bytes → U64,∀ build passes region,
    encodeNodeBlocks xxh3 build passes = .ok region →
      ∃ g,decodeNodeBlocks xxh3 region.bytes = .ok g ∧ g.layout = build.layout ∧
        g.refinementPasses = passes ∧ g.inputs = .ok build.nodes := by
  rintro ⟨xxh3,hall⟩
  obtain ⟨n,hn⟩ : ∃ n,n = 2^25+1 := ⟨_,rfl⟩
  have hlength : (List.replicate n plainNode).length = n := length_replicate
  have hstride : lineLayout.stride.toNat = 128 := rfl
  obtain ⟨blocks,hblocks⟩ := encodeNodes_plain (BitVec.ofNat 32 n) 0 n
  have hencode : ∃ region,encodeNodeBlocks xxh3
      ⟨lineLayout,List.replicate n plainNode⟩ ⟨0,rfl⟩ = .ok region := by
    rw [encodeNodeBlocks]
    simp only [hlength]
    rw [if_neg (by omega),if_neg (by rw [hstride,trailerLen]; omega),hblocks,ok_bind]
    exact ⟨_,rfl⟩
  obtain ⟨region,hregion⟩ := hencode
  have hfits:=(decode_encode_iff hregion).mp (hall _ _ _ hregion)
  simp only [hlength,hstride] at hfits
  omega

end Zeppelin.VectorGraph
