import Zeppelin.VectorGraph.Block

namespace Zeppelin.VectorGraph
open Format List

variable {l : GraphNodeLayout} {nodeId nodeCount : U32} {block bytes : Bytes}

theorem roundUpCacheLine_ge (n : ℕ) : n ≤ roundUpCacheLine n := by
  unfold roundUpCacheLine cacheLineBytes
  omega

theorem GraphNodeLayout.stride_ge (l : GraphNodeLayout) :
    l.codeBytes+16+l.maxDegree.toNat*4 ≤ l.stride.toNat := by
  have h:=l.formula
  unfold layoutStride at h
  simp only [ne_eq] at h
  split_ifs at h with hzero hbelow haligned hlt
  have hstride:=congrArg BitVec.toNat (Except.ok.inj h)
  rw [BitVec.toNat_ofNat,Nat.mod_eq_of_lt hlt] at hstride
  rw [← hstride]
  exact roundUpCacheLine_ge _

theorem GraphNodeLayout.new_self (l : GraphNodeLayout) :
    GraphNodeLayout.new l.dims l.paddedDims l.maxDegree = .ok l := by
  obtain ⟨dims,paddedDims,maxDegree,stride,formula⟩ := l
  unfold GraphNodeLayout.new
  split
  · rename_i found hfound
    simp only at hfound
    rw [formula] at hfound
    obtain rfl := Except.ok.inj hfound
    rfl
  · rename_i e hfound
    simp only at hfound
    rw [formula] at hfound
    cases hfound

theorem GraphNodeLayout.new_ok {dims paddedDims : U32} {maxDegree : U8}
    (h : GraphNodeLayout.new dims paddedDims maxDegree = .ok l) :
    l.dims = dims ∧ l.paddedDims = paddedDims ∧ l.maxDegree = maxDegree := by
  unfold GraphNodeLayout.new at h
  split at h
  · obtain rfl := Except.ok.inj h
    exact ⟨rfl,rfl,rfl⟩
  · cases h

variable {w n offset degree : ℕ} {before : List U32} {v : BitVec w} {k : ℕ} {slots : List U32}

theorem read_of_drop {rest : Bytes} (hw : w = 8*n)
    (hn : 0 < n) (h : bytes.drop offset = toLe n v++rest) : read w n bytes offset = .ok v := by
  rw [read,readField_of_drop hw hn h]
  rfl

theorem drop_of_read (hw : w = 8*n) (h : read w n bytes offset = .ok v) :
    bytes.drop offset = toLe n v++bytes.drop (offset+n) :=
  (drop_of_readField hw (mapError_eq_ok h)).1

theorem length_of_read (hw : w = 8*n)
    (h : read w n bytes offset = .ok v) : offset+n ≤ bytes.length :=
  (drop_of_readField hw (mapError_eq_ok h)).2

theorem neighborIds_neighborBytes (ids : List U32) : neighborIds (neighborBytes ids) = ids := by
  induction ids with
  | nil => rfl
  | cons id ids ih =>
    have hword : ∀ rest,neighborIds (toLe 4 id++rest) = id::neighborIds rest := by
      intro rest
      show ofLe 32 (toLe 4 id)::neighborIds rest = _
      rw [ofLe_toLe_32]
    show neighborIds (toLe 4 id++neighborBytes ids) = _
    rw [hword,ih]

theorem neighborBytes_length (ids : List U32) : (neighborBytes ids).length = ids.length*4 := by
  simp [neighborBytes]

theorem neighborBytes_append (xs ys : List U32) :
    neighborBytes (xs++ys) = neighborBytes xs++neighborBytes ys := flatMap_append

theorem neighborBytes_neighborIds (h : bytes.length = n*4) :
    neighborBytes (neighborIds bytes) = bytes := by
  induction n generalizing bytes with
  | zero =>
    obtain rfl := length_eq_zero_iff.mp (by simpa using h)
    rfl
  | succ n ih =>
    obtain ⟨a,b,c,d,rest,rfl⟩ : ∃ a b c d rest,bytes = a::b::c::d::rest := by
      rcases bytes with _ | ⟨a,_ | ⟨b,_ | ⟨c,_ | ⟨d,rest⟩⟩⟩⟩
      · simp at h
      · simp at h
        omega
      · simp at h
        omega
      · simp at h
        omega
      · exact ⟨a,b,c,d,rest,rfl⟩
    have hrest : rest.length = n*4 := by
      simp only [length_cons] at h
      omega
    have hword : toLe 4 (ofLe 32 [a,b,c,d]) = [a,b,c,d] := toLe_ofLe 4 rfl _ rfl
    show toLe 4 (ofLe 32 [a,b,c,d])++neighborBytes (neighborIds rest) = _
    rw [hword,ih hrest]
    rfl

def slotsOf (l : GraphNodeLayout) (neighbors : List U32) : List U32 :=
  neighbors++List.replicate (l.maxDegree.toNat-neighbors.length) unusedNeighborId

theorem checkSlots_unused (h : degree ≤ before.length) :
    checkSlots nodeId nodeCount degree before (List.replicate k unusedNeighborId) = .ok () := by
  induction k generalizing before with
  | zero => rfl
  | succ k ih =>
    rw [replicate_succ,checkSlots,if_neg (not_lt.mpr h),if_neg (not_not.mpr rfl)]
    exact ih (by rw [length_append]; omega)

theorem checkSlots_of_neighbors {neighbors : List U32}
    (h : checkNeighbors nodeId nodeCount before neighbors = .ok ())
    (hdegree : before.length+neighbors.length = degree) :
    checkSlots nodeId nodeCount degree before
      (neighbors++List.replicate k unusedNeighborId) = .ok () := by
  induction neighbors generalizing before with
  | nil =>
    rw [length_nil] at hdegree
    exact checkSlots_unused (by omega)
  | cons neighbor rest ih =>
    rw [checkNeighbors] at h
    rw [length_cons] at hdegree
    split_ifs at h with houtside howner hrepeat
    rw [cons_append,checkSlots,if_pos (by omega),if_neg houtside,if_neg howner,
      if_neg hrepeat]
    exact ih h (by rw [length_append,length_singleton]; omega)

theorem unused_of_checkSlots (hdegree : degree ≤ before.length)
    (h : checkSlots nodeId nodeCount degree before slots = .ok ()) :
    slots = List.replicate slots.length unusedNeighborId := by
  induction slots generalizing before with
  | nil => rfl
  | cons slot rest ih =>
    rw [checkSlots,if_neg (not_lt.mpr hdegree)] at h
    split_ifs at h with hunused
    have hrest:=ih (by rw [length_append]; omega) h
    rw [length_cons,replicate_succ,← hrest,not_not.mp hunused]

theorem neighbors_of_checkSlots
    (hroom : degree ≤ before.length+slots.length) (hbefore : before.length ≤ degree)
    (h : checkSlots nodeId nodeCount degree before slots = .ok ()) :
    checkNeighbors nodeId nodeCount before (slots.take (degree-before.length)) = .ok () ∧
      slots.drop (degree-before.length) =
        List.replicate (slots.length-(degree-before.length)) unusedNeighborId := by
  induction slots generalizing before with
  | nil =>
    rw [take_nil,drop_nil]
    exact ⟨rfl,by simp⟩
  | cons slot rest ih =>
    by_cases hactive : before.length < degree
    · rw [checkSlots,if_pos hactive] at h
      split_ifs at h with houtside howner hrepeat
      obtain ⟨hneighbors,hunused⟩ :=
        ih (by simp only [length_append,length_cons] at *; omega)
          (by rw [length_append,length_singleton]; omega) h
      obtain ⟨k,hk⟩ : ∃ k,degree-before.length = k+1 := ⟨degree-before.length-1,by omega⟩
      rw [length_append,length_singleton,
        show degree-(before.length+1) = k by omega] at hneighbors hunused
      rw [hk,take_succ_cons,drop_succ_cons]
      refine ⟨?_,?_⟩
      · rw [checkNeighbors,if_neg houtside,if_neg howner,if_neg hrepeat]
        exact hneighbors
      · rw [hunused,length_cons,Nat.add_sub_add_right]
    · have hzero : degree-before.length = 0 := by omega
      rw [hzero,take_zero,drop_zero,Nat.sub_zero]
      exact ⟨rfl,unused_of_checkSlots (by omega) h⟩

def viewBytes (v : GraphNodeBlock) : Bytes :=
  v.codes++(toLe 4 v.factors.scale++(toLe 4 v.factors.normalizedNorm++
    (toLe 4 v.factors.normalizedCorrection++(toLe 1 v.degree++(toLe 1 v.flags++
      (toLe 2 v.reserved++(v.neighbors++v.padding)))))))

structure ViewFits (l : GraphNodeLayout) (v : GraphNodeBlock) : Prop where
  codes : v.codes.length = l.codeBytes
  neighbors : v.neighbors.length = l.maxDegree.toNat*4
  stride : (viewBytes v).length = l.stride.toNat
  finite : v.factors.finite = true

theorem decodeBlockView_viewBytes {v : GraphNodeBlock} (h : ViewFits l v) :
    decodeBlockView l nodeId (viewBytes v) = .ok v := by
  have hge:=l.stride_ge
  have h0 : (viewBytes v).drop 0 = v.codes++(toLe 4 v.factors.scale++
      (toLe 4 v.factors.normalizedNorm++(toLe 4 v.factors.normalizedCorrection++(toLe 1 v.degree++
        (toLe 1 v.flags++(toLe 2 v.reserved++(v.neighbors++v.padding))))))) := rfl
  have hscale:=drop_behind h0 h.codes
  rw [Nat.zero_add] at hscale
  have hnorm:=drop_behind hscale (toLe_length 4 _)
  have hcorrection:=drop_behind hnorm (toLe_length 4 _)
  have hdegree:=drop_behind hcorrection (toLe_length 4 _)
  have hflags:=drop_behind hdegree (toLe_length 1 _)
  have hreserved:=drop_behind hflags (toLe_length 1 _)
  have hneighbors:=drop_behind hreserved (toLe_length 2 _)
  have hpadding:=drop_behind hneighbors h.neighbors
  simp only [Nat.add_assoc,Nat.reduceAdd] at hcorrection hdegree hflags hreserved hneighbors hpadding
  have hshort : ¬ (viewBytes v).length < l.codeBytes := by rw [h.stride]; omega
  have hroom : ¬ (viewBytes v).length < l.codeBytes+(nodeMetadataBytes+l.maxDegree.toNat*4) := by
    rw [h.stride,nodeMetadataBytes]
    omega
  have hcodes : (viewBytes v).take l.codeBytes = v.codes := take_left' h.codes
  unfold decodeBlockView
  rw [if_neg (not_not.mpr h.stride),if_neg hshort,read_of_drop rfl (by decide) hscale,ok_bind,
    read_of_drop rfl (by decide) hnorm,ok_bind,read_of_drop rfl (by decide) hcorrection,ok_bind,
    if_neg (by rw [h.finite]; decide),read_of_drop rfl (by decide) hdegree,ok_bind,
    read_of_drop rfl (by decide) hflags,ok_bind,read_of_drop rfl (by decide) hreserved,ok_bind]
  simp only [Nat.add_assoc]
  rw [if_neg hroom,hcodes,show nodeMetadataBytes = 16 from rfl,hneighbors,hpadding,
    take_left' h.neighbors]
  rfl

theorem decodeBlockView_ok {v : GraphNodeBlock} (h : decodeBlockView l nodeId block = .ok v) :
    ViewFits l v ∧ block = viewBytes v := by
  unfold decodeBlockView at h
  split_ifs at h with hstride hshort
  obtain ⟨scale,hscale,h⟩ := bind_eq_ok h
  obtain ⟨norm,hnorm,h⟩ := bind_eq_ok h
  obtain ⟨correction,hcorrection,h⟩ := bind_eq_ok h
  split_ifs at h with hfinite
  obtain ⟨degree,hdegree,h⟩ := bind_eq_ok h
  obtain ⟨flags,hflags,h⟩ := bind_eq_ok h
  obtain ⟨reserved,hreserved,h⟩ := bind_eq_ok h
  simp only at h
  split_ifs at h with hroom
  obtain rfl := Except.ok.inj h
  have hcodes : (block.take l.codeBytes).length = l.codeBytes :=
    length_take_of_le (not_lt.mp hshort)
  have hslots : ((block.drop (l.codeBytes+nodeMetadataBytes)).take (l.maxDegree.toNat*4)).length =
      l.maxDegree.toNat*4 := by
    rw [length_take,length_drop]
    omega
  have hblock : block = block.take l.codeBytes++(toLe 4 scale++(toLe 4 norm++
      (toLe 4 correction++(toLe 1 degree++(toLe 1 flags++(toLe 2 reserved++
        ((block.drop (l.codeBytes+nodeMetadataBytes)).take (l.maxDegree.toNat*4)++
          block.drop (l.codeBytes+nodeMetadataBytes+l.maxDegree.toNat*4)))))))) := by
    have htail:=drop_split block (l.codeBytes+nodeMetadataBytes) (l.maxDegree.toNat*4)
    have hread:=drop_of_read rfl hreserved
    rw [show l.codeBytes+14+2 = l.codeBytes+nodeMetadataBytes from rfl,htail] at hread
    calc block = block.take l.codeBytes++block.drop l.codeBytes :=
          (take_append_drop ..).symm
      _ = _ := by
        rw [drop_of_read rfl hscale,drop_of_read rfl hnorm,
          show l.codeBytes+4+4 = l.codeBytes+8 from rfl,drop_of_read rfl hcorrection,
          show l.codeBytes+8+4 = l.codeBytes+12 from rfl,drop_of_read rfl hdegree,
          show l.codeBytes+12+1 = l.codeBytes+13 from rfl,drop_of_read rfl hflags,
          show l.codeBytes+13+1 = l.codeBytes+14 from rfl,hread]
  refine ⟨⟨hcodes,hslots,?_,by simpa using hfinite⟩,hblock⟩
  exact (congrArg List.length hblock).symm.trans (not_not.mp hstride)

def viewOf (l : GraphNodeLayout) (node : GraphNodeBlockInput) : GraphNodeBlock :=
  ⟨node.codes,node.factors,BitVec.ofNat 8 node.neighbors.length,node.flags,0,
    neighborBytes (slotsOf l node.neighbors),zeros (l.stride.toNat-(nodeContent l node).length)⟩

structure NodeFits (l : GraphNodeLayout) (nodeCount nodeId : U32) (node : GraphNodeBlockInput) :
    Prop where
  codes : node.codes.length = l.codeBytes
  codePadding : validateCodePadding l nodeId node.codes = .ok ()
  finite : node.factors.finite = true
  flags : node.flags &&& ~~~3 = 0
  degree : node.neighbors.length ≤ l.maxDegree.toNat
  neighbors : checkNeighbors nodeId nodeCount [] node.neighbors = .ok ()

theorem encodeNode_ok_iff {node : GraphNodeBlockInput} :
    encodeNode l nodeCount nodeId node = .ok block ↔ NodeFits l nodeCount nodeId node ∧
      block = nodeContent l node++zeros (l.stride.toNat-(nodeContent l node).length) := by
  constructor
  · intro h
    unfold encodeNode at h
    have hcodes : ¬ node.codes.length ≠ l.codeBytes := by
      intro hne
      rw [if_pos hne] at h
      cases h
    rw [if_neg hcodes] at h
    obtain ⟨⟨⟩,hpadding,h⟩ := bind_eq_ok h
    split_ifs at h with hfinite hflags hdegree
    obtain ⟨⟨⟩,hneighbors,rfl⟩ := bind_pure_eq_ok h
    exact ⟨⟨not_not.mp hcodes,hpadding,by simpa using hfinite,not_not.mp hflags,
      not_lt.mp hdegree,hneighbors⟩,rfl⟩
  · rintro ⟨h,rfl⟩
    rw [encodeNode,if_neg (not_not.mpr h.codes),h.codePadding,ok_bind,
      if_neg (by rw [h.finite]; decide),if_neg (not_not.mpr h.flags),
      if_neg (not_lt.mpr h.degree),h.neighbors,ok_bind]
    rfl

variable {node : GraphNodeBlockInput}

theorem slotsOf_length (h : node.neighbors.length ≤ l.maxDegree.toNat) :
    (slotsOf l node.neighbors).length = l.maxDegree.toNat := by
  rw [slotsOf,length_append,length_replicate]
  omega

theorem NodeFits.content_length (h : NodeFits l nodeCount nodeId node) :
    (nodeContent l node).length = l.codeBytes+16+l.maxDegree.toNat*4 := by
  have hdegree:=h.degree
  simp only [nodeContent,Bit4Factors.bytes,length_append,h.codes,toLe_length,
    neighborBytes_length,length_replicate]
  omega

theorem viewBytes_viewOf : viewBytes (viewOf l node) =
    nodeContent l node++zeros (l.stride.toNat-(nodeContent l node).length) := by
  simp only [viewBytes,viewOf,nodeContent,slotsOf,neighborBytes_append,Bit4Factors.bytes,
    append_assoc]

theorem NodeFits.viewFits (h : NodeFits l nodeCount nodeId node) : ViewFits l (viewOf l node) where
  codes := h.codes
  neighbors := by
    show (neighborBytes (slotsOf l node.neighbors)).length = _
    rw [neighborBytes_length,slotsOf_length h.degree]
  stride := by
    have hge:=l.stride_ge
    rw [viewBytes_viewOf,length_append,zeros_length,h.content_length]
    omega
  finite := h.finite

theorem NodeFits.degree_toNat (h : NodeFits l nodeCount nodeId node) :
    (viewOf l node).degree.toNat = node.neighbors.length := by
  have hdegree:=h.degree
  have hmax:=l.maxDegree.isLt
  show (BitVec.ofNat 8 node.neighbors.length).toNat = _
  rw [BitVec.toNat_ofNat]
  omega

theorem viewOf_neighborsPadded : (viewOf l node).neighborsPadded = slotsOf l node.neighbors :=
  neighborIds_neighborBytes _

theorem NodeFits.input_viewOf (h : NodeFits l nodeCount nodeId node) :
    (viewOf l node).input = node := by
  obtain ⟨codes,factors,flags,neighbors⟩ := node
  rw [GraphNodeBlock.input,viewOf_neighborsPadded,h.degree_toNat,slotsOf]
  show GraphNodeBlockInput.mk codes factors flags ((neighbors++_).take neighbors.length) = _
  rw [take_left]

theorem NodeFits.validate (h : NodeFits l nodeCount nodeId node) :
    validateDecodedNode l nodeId nodeCount (viewBytes (viewOf l node)) = .ok () := by
  have hdegree : ¬ l.maxDegree.toNat < (viewOf l node).degree.toNat := by
    rw [h.degree_toNat]
    exact not_lt.mpr h.degree
  have hslots:=checkSlots_of_neighbors (k := l.maxDegree.toNat-node.neighbors.length)
    h.neighbors (Nat.zero_add _)
  have hpadding : ¬ (!allZero (viewOf l node).padding) = true := by
    show ¬ (!allZero (zeros _)) = true
    rw [allZero_zeros]
    decide
  rw [validateDecodedNode,decodeBlockView_viewBytes h.viewFits,ok_bind]
  show (validateCodePadding l nodeId node.codes >>= fun _ => _) = _
  have hflags : (viewOf l node).flags &&& ~~~3 = 0 := h.flags
  have hreserved : (viewOf l node).reserved = 0 := rfl
  rw [h.codePadding,ok_bind,if_neg (not_not.mpr hflags),if_neg (not_not.mpr hreserved),
    if_neg hpadding,if_neg hdegree,h.degree_toNat,viewOf_neighborsPadded]
  exact hslots

theorem validateDecodedNode_ok (h : validateDecodedNode l nodeId nodeCount block = .ok ()) :
    ∃ v,decodeBlockView l nodeId block = .ok v ∧ ViewFits l v ∧ block = viewBytes v ∧
      encodeNode l nodeCount nodeId v.input = .ok block := by
  obtain ⟨v,hview,h⟩ := bind_eq_ok h
  obtain ⟨⟨⟩,hcodePadding,h⟩ := bind_eq_ok h
  split_ifs at h with hflags hreserved hpadding hdegree
  obtain ⟨hfits,hblock⟩ := decodeBlockView_ok hview
  rw [not_not] at hflags hreserved
  have hslotCount : v.neighborsPadded.length = l.maxDegree.toNat := by
    have hbytes:=congrArg List.length (neighborBytes_neighborIds hfits.neighbors)
    rw [neighborBytes_length,hfits.neighbors] at hbytes
    exact Nat.eq_of_mul_eq_mul_right (by decide) hbytes
  obtain ⟨hneighbors,hunused⟩ := neighbors_of_checkSlots
    (by rw [length_nil,hslotCount]; omega) (Nat.zero_le _) h
  rw [length_nil,Nat.sub_zero] at hneighbors hunused
  have hcount : v.input.neighbors.length = v.degree.toNat := by
    show (v.neighborsPadded.take _).length = _
    rw [length_take,hslotCount]
    omega
  have hnode : NodeFits l nodeCount nodeId v.input :=
    ⟨hfits.codes,hcodePadding,hfits.finite,hflags,by rw [hcount]; omega,hneighbors⟩
  have hslots : slotsOf l v.input.neighbors = v.neighborsPadded := by
    rw [slotsOf,hcount,← hslotCount,← hunused]
    exact take_append_drop _ _
  -- the view that this input is written to is the one that was read
  have hsame : viewOf l v.input = v := by
    have hzeros : v.padding = zeros v.padding.length := eq_zeros_of_allZero (by simpa using hpadding)
    have hlength : v.padding.length = l.stride.toNat-(nodeContent l v.input).length := by
      have hstride:=hfits.stride
      simp only [viewBytes,length_append,toLe_length,hfits.codes,hfits.neighbors] at hstride
      rw [hnode.content_length]
      omega
    have hdegreeWord : BitVec.ofNat 8 v.input.neighbors.length = v.degree := by
      rw [hcount,BitVec.ofNat_toNat,BitVec.setWidth_eq]
    have hbytes : neighborBytes (slotsOf l v.input.neighbors) = v.neighbors := by
      rw [hslots]
      exact neighborBytes_neighborIds hfits.neighbors
    rw [viewOf,hdegreeWord,hbytes,← hlength,← hzeros,← hreserved]
    rfl
  refine ⟨v,hview,hfits,hblock,encodeNode_ok_iff.mpr ⟨hnode,?_⟩⟩
  rw [hblock,← viewBytes_viewOf,hsame]

end Zeppelin.VectorGraph
