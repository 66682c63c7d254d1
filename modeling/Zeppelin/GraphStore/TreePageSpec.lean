import Zeppelin.GraphStore.TreePage

namespace Zeppelin.GraphStore
open Format List
open GraphWal (BlockKind PhysicalRef maxGraphInputBytes two_nonzero)

section Keys
variable {kind : TreeKind} {key : Key} {bytes : Bytes}

@[simp] theorem encodeKey_length (key : Key) : (encodeKey key).length = keyLen key := by
  cases key <;> simp [encodeKey,keyLen]
  omega

theorem head?_toLe_one (v : U8) (rest : Bytes) : (toLe 1 v++rest).head? = some v := by
  simp [toLe,leBytes]

theorem reserved_of_drop {y : Bytes} (h : bytes.drop 1 = zeros 3++y) :
    reserved bytes 1 4 = .ok () := by
  have hlength:=length_of_drop h (by simp)
  rw [zeros_length] at hlength
  rw [reserved,slice?_eq_some (by omega) (by omega),h,take_left' (zeros_length 3)]
  rfl

theorem drop_of_reserved (h : reserved bytes 1 4 = .ok ()) :
    bytes.drop 1 = zeros 3++bytes.drop 4 ∧ 4 ≤ bytes.length := by
  unfold reserved at h
  split at h
  · cases h
  · rename_i part hpart
    split_ifs at h with hzero
    obtain ⟨-,hle,hpart'⟩ := slice?_some hpart
    have hlength:=slice?_length hpart
    refine ⟨?_,hle⟩
    change part.length = 3 at hlength
    have hpad:=eq_zeros_of_allZero hzero
    rw [hlength] at hpad
    rw [← hpad,hpart']
    exact drop_split bytes 1 3

theorem drop_of_head? {v : U8} (h : bytes.head? = some v) :
    bytes = toLe 1 v++bytes.drop 1 := by
  cases bytes with
  | nil => cases h
  | cons b rest =>
    obtain rfl := Option.some.inj h
    simp [toLe,leBytes]

theorem inline_le (h : validateInline kind bytes = .ok ()) : bytes.length ≤ maxGraphInputBytes := by
  unfold validateInline at h
  split_ifs at h with hwidth
  cases kind <;> simp only [inlineWidth,decide_eq_true_eq] at hwidth <;>
    (simp only [maxGraphInputBytes] at hwidth ⊢; omega)

theorem parseKey_encodeKey (h : validateKey kind key = .ok ()) :
    parseKey kind (encodeKey key) = .ok key := by
  cases key with
  | inline raw =>
    have hle:=inline_le h
    have hword : (BitVec.ofNat 64 raw.length).toNat = raw.length := by
      rw [BitVec.toNat_ofNat,Nat.mod_eq_of_lt]
      simp only [maxGraphInputBytes] at hle
      omega
    have h0 : (encodeKey (.inline raw)).drop 0 = _ := rfl
    have h1:=drop_behind h0 (toLe_length 1 _)
    have h4:=drop_behind h1 (zeros_length 3)
    have h12:=drop_behind h4 (toLe_length 8 _)
    rw [parseKey,reserved_of_drop h1,ok_bind,readU64_of_drop h4,ok_bind,hword,
      if_neg (by omega),h12,show (encodeKey (.inline raw)).head? = some 0 from
        head?_toLe_one 0 _,parseKeyBody,if_pos rfl,hword,if_neg (by simp),ok_bind,h]
    rfl
  | overflow logicalLength reference =>
    have hvalid:=h
    simp only [validateKey] at hvalid
    split_ifs at hvalid with hbad
    rw [not_or,not_or,not_or] at hbad
    have h0 : (encodeKey (.overflow logicalLength reference)).drop 0 = _ := rfl
    have h1:=drop_behind h0 (toLe_length 1 _)
    have h4:=drop_behind h1 (zeros_length 3)
    have h12:=drop_behind h4 (toLe_length 8 _)
    rw [parseKey,reserved_of_drop h1,ok_bind,readU64_of_drop h4,ok_bind,if_neg hbad.2.2.1,h12,
      show (encodeKey (.overflow logicalLength reference)).head? = some 1 from head?_toLe_one 1 _,
      parseKeyBody,if_neg (by decide),if_pos rfl,decodeReference_bytes hvalid,ok_bind]
    change (validateKey kind (.overflow logicalLength reference) >>= _) = _
    rw [h]
    rfl

theorem parseKey_ok (h : parseKey kind bytes = .ok key) :
    validateKey kind key = .ok () ∧ bytes = encodeKey key := by
  unfold parseKey at h
  obtain ⟨⟨⟩,hreserved,h⟩ := bind_eq_ok h
  obtain ⟨length,hlength,h⟩ := bind_eq_ok h
  split_ifs at h
  obtain ⟨parsed,hparsed,h⟩ := bind_eq_ok h
  obtain ⟨⟨⟩,hvalid,rfl⟩ := bind_pure_eq_ok h
  refine ⟨hvalid,?_⟩
  have hzeros:=(drop_of_reserved hreserved).1
  have hword:=drop_of_readU64 hlength
  unfold parseKeyBody at hparsed
  split_ifs at hparsed with hinline hmismatch hoverflow
  · rw [not_not] at hmismatch
    obtain rfl := Except.ok.inj hparsed
    have hsame : BitVec.ofNat 64 (bytes.drop 12).length = length := by
      rw [hmismatch,BitVec.ofNat_toNat,BitVec.setWidth_eq]
    rw [encodeKey,hsame,← hword,← hzeros]
    exact drop_of_head? hinline
  · obtain ⟨reference,hreference,rfl⟩ := bind_pure_eq_ok hparsed
    rw [encodeKey,← (decodeReference_ok hreference).2,← hword,← hzeros]
    exact drop_of_head? hoverflow

end Keys

section Cells
variable {header : PageHeader} {cell : Cell} {bytes : Bytes} {last : Bool}

@[simp] theorem upperBytes_length (upper : Option Key) :
    (upperBytes upper).length = upperLen upper := by
  cases upper with
  | none => rfl
  | some key => exact encodeKey_length key

@[simp] theorem encodeCell_length (cell : Cell) : (encodeCell cell).length = cellLen cell := by
  cases cell <;> simp [encodeCell,cellLen] <;> omega

theorem word_toNat {n : ℕ} (h : n ≤ pageBytes) : (BitVec.ofNat 32 n).toNat = n := by
  rw [BitVec.toNat_ofNat,Nat.mod_eq_of_lt]
  simp only [pageBytes] at h
  omega

theorem word_of_toNat {v : U32} {n : ℕ} (h : v.toNat = n) : BitVec.ofNat 32 n = v := by
  rw [← h,BitVec.ofNat_toNat,BitVec.setWidth_eq]

theorem parseUpper_bytes {kind : TreeKind} {upper : Option Key}
    (h : validateUpper kind upper = .ok ()) :
    parseUpper kind (some (if upper.isNone then 1 else 0)) (upperLen upper) (upperBytes upper) =
      .ok upper := by
  cases upper with
  | none => rfl
  | some key =>
    change parseUpper kind (some 0) (keyLen key) (encodeKey key) = _
    rw [parseUpper,if_pos rfl,parseKey_encodeKey h,ok_bind]
    rfl

theorem parseUpper_ok {kind : TreeKind} {tag : Option U8} {raw : Bytes} {upper : Option Key}
    (h : parseUpper kind tag raw.length raw = .ok upper) :
    tag = some (if upper.isNone then 1 else 0) ∧ raw = upperBytes upper := by
  unfold parseUpper at h
  split_ifs at h with hsome hnone
  · obtain ⟨key,hkey,rfl⟩ := bind_pure_eq_ok h
    exact ⟨hsome,(parseKey_ok hkey).2⟩
  · obtain rfl := Except.ok.inj h
    exact ⟨hnone.1,length_eq_zero_iff.mp hnone.2⟩

theorem parseCell_encodeCell (h : validateCell header cell last = .ok ())
    (hsize : cellLen cell ≤ pageBytes) : parseCell header (encodeCell cell) = .ok cell := by
  cases cell with
  | leaf key value =>
    simp only [validateCell] at h
    split_ifs at h with hlevel
    simp only [cellLen] at hsize
    have h0 : (encodeCell (.leaf key value)).drop 0 = _ := rfl
    have h4:=drop_behind h0 (toLe_length 4 _)
    have h8:=drop_behind h4 (toLe_length 4 _)
    have hend:=drop_behind h8 (encodeKey_length key)
    rw [parseCell,if_pos hlevel,readU32_of_drop h0,ok_bind,readU32_of_drop h4,ok_bind,
      word_toNat (by omega),word_toNat (by omega),if_neg,h8,
      take_left' (encodeKey_length key),parseKey_encodeKey h,ok_bind]
    · rw [show 8+keyLen key = 0+4+4+keyLen key by omega,hend]
      rfl
    · rw [not_not,encodeCell_length,cellLen]
  | branch upper child =>
    simp only [validateCell] at h
    split_ifs at h with hlevel hbad
    obtain ⟨⟨⟩,hchild,hupper⟩ := bind_eq_ok h
    simp only [cellLen] at hsize
    have h0 : (encodeCell (.branch upper child)).drop 0 = _ := rfl
    have h1:=drop_behind h0 (toLe_length 1 _)
    have h4:=drop_behind h1 (zeros_length 3)
    have h8:=drop_behind h4 (toLe_length 4 _)
    have h40:=drop_behind h8 (referenceBytes_length child)
    rw [parseCell,if_neg hlevel,reserved_of_drop h1,ok_bind,readU32_of_drop h4,ok_bind,
      word_toNat (by omega),if_neg,h8,take_left' (referenceBytes_length child),
      decodeReference_bytes hchild,ok_bind,h40,
      show (encodeCell (.branch upper child)).head? = some (if upper.isNone then 1 else 0) from
        head?_toLe_one _ _,parseUpper_bytes hupper,ok_bind]
    · rfl
    · rw [not_not,encodeCell_length,cellLen]

theorem parseCell_ok (h : parseCell header bytes = .ok cell) : bytes = encodeCell cell := by
  unfold parseCell at h
  split_ifs at h with hlevel
  · obtain ⟨keyBytes,hkeyBytes,h⟩ := bind_eq_ok h
    obtain ⟨valueBytes,hvalueBytes,h⟩ := bind_eq_ok h
    split_ifs at h with hlength
    rw [not_not] at hlength
    obtain ⟨key,hkey,rfl⟩ := bind_pure_eq_ok h
    obtain ⟨-,hraw⟩ := parseKey_ok hkey
    have hkeyLen : keyBytes.toNat = keyLen key := by
      rw [← encodeKey_length,← hraw,length_take,length_drop]
      omega
    have hvalueLen : valueBytes.toNat = (bytes.drop (8+keyBytes.toNat)).length := by
      rw [length_drop]
      omega
    rw [encodeCell,word_of_toNat hkeyLen,word_of_toNat hvalueLen,← hraw,
      ← drop_split bytes 8 keyBytes.toNat,← drop_of_readU32 hvalueBytes]
    exact drop_of_readU32 hkeyBytes
  · obtain ⟨⟨⟩,hreserved,h⟩ := bind_eq_ok h
    obtain ⟨keyBytes,hkeyBytes,h⟩ := bind_eq_ok h
    split_ifs at h with hlength
    rw [not_not] at hlength
    obtain ⟨child,hchild,h⟩ := bind_eq_ok h
    obtain ⟨upper,hupper,rfl⟩ := bind_pure_eq_ok h
    have hupperLen : keyBytes.toNat = (bytes.drop 40).length := by
      rw [length_drop]
      omega
    rw [hupperLen] at hupper
    obtain ⟨htag,hraw⟩ := parseUpper_ok hupper
    have hword : BitVec.ofNat 32 (upperLen upper) = keyBytes := by
      rw [← upperBytes_length,← hraw,word_of_toNat hupperLen]
    rw [encodeCell,hword,← hraw,← (decodeReference_ok hchild).2,← drop_split bytes 8 32,
      ← drop_of_readU32 hkeyBytes,← (drop_of_reserved hreserved).1]
    exact drop_of_head? htag

end Cells

section Slots
variable {page : FramedPage} {bytes : Bytes} {index next count : ℕ} {cell : Cell}
  {cells : List Cell}

@[simp] theorem slotTable_length (offset : ℕ) (cells : List Cell) :
    (slotTable offset cells).length = cells.length*8 := by
  induction cells generalizing offset with
  | nil => rfl
  | cons cell rest ih =>
    simp only [slotTable,length_append,toLe_length,ih,length_cons]
    omega

@[simp] theorem flatMap_encodeCell_length (cells : List Cell) :
    (cells.flatMap encodeCell).length = (cells.map cellLen).sum := by
  rw [length_flatMap]
  simp only [encodeCell_length]

structure CellsAt (bytes : Bytes) (index next : ℕ) (cells : List Cell) : Prop where
  slots : ∃ y,bytes.drop (64+index*8) = slotTable next cells++y
  body : ∃ y,bytes.drop next = cells.flatMap encodeCell++y
  fits : next+(cells.map cellLen).sum ≤ pageBytes

theorem CellsAt.tail (h : CellsAt bytes index next (cell::cells)) :
    CellsAt bytes (index+1) (next+cellLen cell) cells := by
  obtain ⟨y,hslots⟩ := h.slots
  obtain ⟨z,hbody⟩ := h.body
  have hfits:=h.fits
  rw [map_cons,sum_cons] at hfits
  rw [flatMap_cons,append_assoc] at hbody
  simp only [slotTable,append_assoc] at hslots
  have hnext:=drop_behind (drop_behind hslots (toLe_length 4 _)) (toLe_length 4 _)
  refine ⟨⟨y,?_⟩,⟨z,drop_behind hbody (encodeCell_length cell)⟩,by omega⟩
  rw [show 64+(index+1)*8 = 64+index*8+4+4 by omega]
  exact hnext

theorem CellsAt.slotAt (h : CellsAt bytes index next (cell::cells)) :
    GraphStore.slotAt bytes index = .ok (next,cellLen cell) := by
  obtain ⟨y,hslots⟩ := h.slots
  have hfits:=h.fits
  rw [map_cons,sum_cons] at hfits
  simp only [slotTable,append_assoc] at hslots
  have hlength:=drop_behind hslots (toLe_length 4 _)
  rw [GraphStore.slotAt,readU32_of_drop hslots,ok_bind,readU32_of_drop hlength,ok_bind,
    word_toNat (by omega),word_toNat (by omega)]
  rfl

variable {total : U32} {offset length : ℕ}

theorem CellsAt.readCell {last : Bool} (h : CellsAt page.bytes index next (cell::cells))
    (htotal : readU32 page.bytes 12 = .ok total) (hindex : index < total.toNat)
    (hvalid : validateCell page.header cell last = .ok ()) : page.cell index = .ok cell := by
  obtain ⟨z,hbody⟩ := h.body
  have hfits:=h.fits
  have hpos : 0 < cellLen cell := by
    cases cell <;> (simp only [cellLen]; omega)
  rw [map_cons,sum_cons] at hfits
  rw [flatMap_cons,append_assoc] at hbody
  have hlength:=length_of_drop hbody (by rwa [encodeCell_length])
  rw [encodeCell_length] at hlength
  rw [FramedPage.cell,htotal,ok_bind,if_neg (not_le.mpr hindex),h.slotAt,ok_bind]
  simp only
  rw [slice?_eq_some (by omega) (by omega),Nat.add_sub_cancel_left,hbody,
    take_left' (encodeCell_length cell)]
  exact parseCell_encodeCell hvalid (by omega)

theorem validateCells_cons {header : PageHeader}
    (h : validateCells header (cell::cells) = .ok ()) :
    validateCell header cell cells.isEmpty = .ok () ∧ validateCells header cells = .ok () := by
  obtain ⟨⟨⟩,hcell,hcells⟩ := bind_eq_ok h
  exact ⟨hcell,hcells⟩

theorem checkCells_of_at (page : FramedPage) (h : CellsAt page.bytes index next cells)
    (htotal : readU32 page.bytes 12 = .ok total) (hcount : index+cells.length = total.toNat)
    (hvalid : validateCells page.header cells = .ok ()) :
    checkCells page total.toNat cells.length index next =
        .ok (next+(cells.map cellLen).sum) ∧
      (List.range' index cells.length).mapM page.cell = .ok cells := by
  induction cells generalizing index next with
  | nil => exact ⟨rfl,rfl⟩
  | cons cell cells ih =>
    have hfits:=h.fits
    rw [map_cons,sum_cons] at hfits
    rw [length_cons] at hcount
    obtain ⟨hcell,hcells⟩ := validateCells_cons hvalid
    have hread:=h.readCell htotal (by omega) hcell
    obtain ⟨hcheck,hmap⟩ := ih h.tail (by omega) hcells
    have hlast : decide (index+1 = total.toNat) = cells.isEmpty := by
      cases cells with
      | nil => simp only [length_nil] at hcount; simp; omega
      | cons c cs => simp only [length_cons] at hcount; simp; omega
    constructor
    · rw [length_cons,checkCells,h.slotAt,ok_bind]
      simp only
      rw [if_neg (by simp),if_neg (by omega),hread,ok_bind,hlast,hcell,ok_bind,hcheck,
        map_cons,sum_cons,Nat.add_assoc]
    · rw [length_cons,range'_succ,mapM_cons,hread,ok_bind,hmap]
      rfl

theorem slotAt_ok (h : slotAt bytes index = .ok (offset,length)) :
    bytes.drop (64+index*8) = toLe 4 (BitVec.ofNat 32 offset)++
      (toLe 4 (BitVec.ofNat 32 length)++bytes.drop (64+(index+1)*8)) := by
  obtain ⟨first,hfirst,h⟩ := bind_eq_ok h
  obtain ⟨second,hsecond,h⟩ := bind_eq_ok h
  obtain ⟨rfl,rfl⟩ := Prod.mk.inj (Except.ok.inj h)
  rw [word_of_toNat rfl,word_of_toNat rfl,drop_of_readU32 hfirst,drop_of_readU32 hsecond,
    show 64+index*8+4+4 = 64+(index+1)*8 by omega]

theorem cell_ok (h : page.cell index = .ok cell)
    (hslot : slotAt page.bytes index = .ok (offset,length)) :
    page.bytes.drop offset = encodeCell cell++page.bytes.drop (offset+length) ∧
      length = cellLen cell := by
  unfold FramedPage.cell at h
  obtain ⟨total,htotal,h⟩ := bind_eq_ok h
  split_ifs at h
  rw [hslot,ok_bind] at h
  simp only at h
  split at h
  · cases h
  · rename_i raw hraw
    have hlength:=slice?_length hraw
    obtain ⟨-,-,hslice⟩ := slice?_some hraw
    rw [Nat.add_sub_cancel_left] at hlength hslice
    have hencoded:=parseCell_ok h
    rw [← hencoded,hslice,← encodeCell_length,← hencoded,hlength]
    exact ⟨drop_split page.bytes offset length,rfl⟩

theorem checkCells_ok {remaining stop : ℕ}
    (h : checkCells page count remaining index next = .ok stop) (hcount : index+remaining = count)
    (hnext : next ≤ pageBytes) :
    ∃ cells : List Cell,cells.length = remaining ∧
      page.bytes.drop (64+index*8) = slotTable next cells++page.bytes.drop (64+count*8) ∧
      page.bytes.drop next = cells.flatMap encodeCell++page.bytes.drop stop ∧
      stop = next+(cells.map cellLen).sum ∧ stop ≤ pageBytes ∧
      validateCells page.header cells = .ok () ∧
      (List.range' index remaining).mapM page.cell = .ok cells := by
  induction remaining generalizing index next with
  | zero =>
    obtain rfl := Except.ok.inj h
    rw [Nat.add_zero] at hcount
    subst hcount
    exact ⟨[],rfl,rfl,rfl,rfl,hnext,rfl,rfl⟩
  | succ remaining ih =>
    obtain ⟨⟨offset,length⟩,hslot,h⟩ := bind_eq_ok h
    simp only at h
    split_ifs at h with hoffset hend
    obtain ⟨cell,hcell,h⟩ := bind_eq_ok h
    obtain ⟨⟨⟩,hvalid,h⟩ := bind_eq_ok h
    rw [not_not] at hoffset
    subst hoffset
    obtain ⟨hbytes,rfl⟩ := cell_ok hcell hslot
    obtain ⟨cells,hlen,hslots,hbody,hstop,hle,hcells,hmap⟩ := ih h (by omega) (by omega)
    have hlast : decide (index+1 = count) = cells.isEmpty := by
      cases cells with
      | nil => simp only [length_nil] at hlen; simp; omega
      | cons c cs => simp only [length_cons] at hlen; simp; omega
    refine ⟨cell::cells,by rw [length_cons,hlen],?_,?_,?_,hle,?_,?_⟩
    · rw [slotAt_ok hslot,hslots,slotTable,append_assoc,append_assoc]
    · rw [hbytes,hbody,flatMap_cons,append_assoc]
    · rw [hstop,map_cons,sum_cons,Nat.add_assoc]
    · rw [hlast] at hvalid
      rw [validateCells,hvalid,ok_bind,hcells]
    · rw [range'_succ,mapM_cons,hcell,ok_bind,hmap]
      rfl

end Slots

section Pages
variable {xxh3 : Bytes → U64} {header : PageHeader} {cells : List Cell} {output bytes : Bytes}

@[simp] theorem pageFront_length (header : PageHeader) (count : ℕ) :
    (pageFront header count).length = 56 := by
  simp [pageFront,pageMagic]

theorem pageBody_length (h : extent cells ≤ pageBytes) :
    (pageBody cells).length = pageBytes-64 := by
  simp only [pageBody,length_append,slotTable_length,flatMap_encodeCell_length,
    zeros_length]
  unfold extent at h ⊢
  omega

structure PageAt (xxh3 : Bytes → U64) (header : PageHeader) (count : ℕ) (body bytes : Bytes) :
    Prop where
  magic : bytes.take 4 = pageMagic
  version : readU16 bytes 4 = .ok 1
  kind : readU16 bytes 6 = .ok header.kind.id
  length : readU32 bytes 8 = .ok (BitVec.ofNat 32 pageBytes)
  counted : readU32 bytes 12 = .ok (BitVec.ofNat 32 count)
  level : readU16 bytes 16 = .ok header.level
  flags : readU16 bytes 18 = .ok 0
  slots : readU32 bytes 20 = .ok (BitVec.ofNat 32 (count*8))
  generation : readU64 bytes 24 = .ok header.generation
  reserved : (bytes.drop 32).take 24 = zeros 24
  checksum : readU64 bytes 56 = .ok (xxh3 (bytes.take 56++(zeros 8++bytes.drop 64)))
  rest : bytes.drop 64 = body

theorem pageAt_joined (xxh3 : Bytes → U64) (header : PageHeader) (count : ℕ) (body : Bytes) :
    PageAt xxh3 header count body (pageFront header count++
      (toLe 8 (xxh3 (pageFront header count++(zeros 8++body)))++body)) := by
  generalize hbytes : pageFront header count++
      (toLe 8 (xxh3 (pageFront header count++(zeros 8++body)))++body) = bytes
  have h56 : bytes.drop 56 =
      toLe 8 (xxh3 (pageFront header count++(zeros 8++body)))++body := by
    rw [← hbytes]
    exact drop_left' (pageFront_length header count)
  have h64:=drop_behind h56 (toLe_length 8 _)
  have hfront : bytes.take 56 = pageFront header count := by
    rw [← hbytes]
    exact take_left' (pageFront_length header count)
  simp only [pageFront,append_assoc] at hbytes
  have h0 : bytes.drop 0 = _ := hbytes.symm
  have h4:=drop_behind h0 (show pageMagic.length = 4 from rfl)
  have h6:=drop_behind h4 (toLe_length 2 _)
  have h8:=drop_behind h6 (toLe_length 2 _)
  have h12:=drop_behind h8 (toLe_length 4 _)
  have h16:=drop_behind h12 (toLe_length 4 _)
  have h18:=drop_behind h16 (toLe_length 2 _)
  have h20:=drop_behind h18 (toLe_length 2 _)
  have h24:=drop_behind h20 (toLe_length 4 _)
  have h32:=drop_behind h24 (toLe_length 8 _)
  refine ⟨?_,readU16_of_drop h4,readU16_of_drop h6,readU32_of_drop h8,readU32_of_drop h12,
    readU16_of_drop h16,readU16_of_drop h18,readU32_of_drop h20,readU64_of_drop h24,?_,?_,h64⟩
  · rw [← hbytes]
    exact take_left' rfl
  · rw [h32]
    exact take_left' (zeros_length 24)
  · rw [readU64_of_drop h56,hfront,h64]

variable {body : Bytes} {expected : TreeKind}

theorem checkFront_of_at {count : ℕ} (h : PageAt xxh3 header count body bytes)
    (hlength : bytes.length = pageBytes) : checkFront xxh3 header.kind bytes = .ok () := by
  have hpage : (BitVec.ofNat 32 pageBytes).toNat = pageBytes := by decide
  rw [checkFront,if_neg (by simp [hlength,h.magic]),h.version,ok_bind,if_neg (by simp),h.kind,
    ok_bind,if_neg (by simp),h.length,ok_bind,h.flags,ok_bind,hpage,h.reserved,
    allZero_zeros,if_neg (by simp),h.checksum,ok_bind]
  simp

theorem pageAt_of_checkFront (h : checkFront xxh3 expected bytes = .ok ())
    {count slots : U32} {level : U16} {generation : U64} (hcount : readU32 bytes 12 = .ok count)
    (hslots : readU32 bytes 20 = .ok slots) (hlevel : readU16 bytes 16 = .ok level)
    (hgeneration : readU64 bytes 24 = .ok generation) (hsame : count.toNat*8 = slots.toNat) :
    bytes.length = pageBytes ∧
      PageAt xxh3 ⟨expected,level,generation⟩ count.toNat (bytes.drop 64) bytes := by
  unfold checkFront at h
  split_ifs at h with hshape
  rw [not_or,not_not,not_not] at hshape
  obtain ⟨version,hversion,h⟩ := bind_eq_ok h
  split_ifs at h with hone
  obtain ⟨kind,hkind,h⟩ := bind_eq_ok h
  split_ifs at h with hexpected
  obtain ⟨length,hlength,h⟩ := bind_eq_ok h
  obtain ⟨flags,hflags,h⟩ := bind_eq_ok h
  split_ifs at h with hbad
  obtain ⟨stored,hstored,h⟩ := bind_eq_ok h
  simp only at h
  split_ifs at h with hsum
  rw [not_not] at hone hexpected hsum
  rw [not_or,not_or,not_not,not_not,Bool.not_eq_false] at hbad
  subst hone hexpected hsum
  obtain ⟨hpage,rfl,hzero⟩ := hbad
  have hreserved:=eq_zeros_of_allZero hzero
  rw [length_take,length_drop,hshape.1] at hreserved
  refine ⟨hshape.1,hshape.2,hversion,hkind,?_,?_,hlevel,hflags,?_,hgeneration,hreserved,
    hstored,rfl⟩
  · rw [hlength,word_of_toNat hpage]
  · rw [hcount,word_of_toNat rfl]
  · rw [hslots,word_of_toNat hsame.symm]

theorem PageAt.joined {count : ℕ} (h : PageAt xxh3 header count body bytes) :
    bytes = pageFront header count++
      (toLe 8 (xxh3 (pageFront header count++(zeros 8++body)))++body) := by
  have hmagic : bytes.drop 0 = pageMagic++bytes.drop 4 := by
    rw [← h.magic]
    exact drop_split bytes 0 4
  have hreserved : bytes.drop 32 = zeros 24++bytes.drop 56 := by
    rw [← h.reserved]
    exact drop_split bytes 32 24
  have hfields : bytes.drop 0 = pageFront header count++bytes.drop 56 := by
    rw [hmagic,drop_of_readU16 h.version,drop_of_readU16 h.kind,drop_of_readU32 h.length,
      drop_of_readU32 h.counted,drop_of_readU16 h.level,drop_of_readU16 h.flags,
      drop_of_readU32 h.slots,drop_of_readU64 h.generation,hreserved]
    simp only [pageFront,append_assoc]
  have hfront : bytes.take 56 = pageFront header count := by
    rw [show bytes = bytes.drop 0 from rfl,hfields]
    exact take_left' (pageFront_length header count)
  have hbody:=drop_of_readU64 h.checksum
  rw [hfront,h.rest] at hbody
  rw [← hbody]
  exact hfields

theorem cellsAt_body {count : ℕ} (h : PageAt xxh3 header count (pageBody cells) bytes)
    (hextent : extent cells ≤ pageBytes) : CellsAt bytes 0 (64+cells.length*8) cells := by
  have hslots:=h.rest
  rw [pageBody] at hslots
  exact ⟨⟨_,hslots⟩,⟨_,drop_behind hslots (slotTable_length _ cells)⟩,hextent⟩

theorem decodePage_encodePage (h : encodePage xxh3 header cells output = .ok bytes) :
    decodePage xxh3 header.kind bytes = .ok ⟨bytes,header⟩ ∧
      FramedPage.cells ⟨bytes,header⟩ = .ok cells := by
  unfold encodePage at h
  split_ifs at h with houtput hfits
  · obtain ⟨⟨⟩,-,h⟩ := bind_eq_ok h
    cases h
  obtain ⟨⟨⟩,hvalid,rfl⟩ := bind_pure_eq_ok h
  rw [not_or,not_lt,not_and] at hfits
  obtain ⟨hextent,hbranch⟩ := hfits
  have hat:=pageAt_joined xxh3 header cells.length (pageBody cells)
  have hbodyLen:=pageBody_length hextent
  have hfull : cells.length*8 ≤ pageBytes ∧ 64 ≤ pageBytes := by
    unfold extent at hextent
    omega
  revert hat
  generalize hbytes : pageFront header cells.length++(toLe 8 (xxh3 (pageFront header cells.length++
    (zeros 8++pageBody cells)))++pageBody cells) = bytes
  intro hat
  have hlength : bytes.length = pageBytes := by
    rw [← hbytes]
    simp only [length_append,pageFront_length,toLe_length]
    omega
  have hcount : (BitVec.ofNat 32 cells.length).toNat = cells.length := word_toNat (by omega)
  obtain ⟨hcheck,hmap⟩ := checkCells_of_at ⟨bytes,header⟩ (cellsAt_body hat hextent)
    hat.counted (by rw [hcount,Nat.zero_add]) hvalid
  have htail : bytes.drop (extent cells) = zeros (pageBytes-extent cells) := by
    have hslots:=hat.rest
    rw [pageBody] at hslots
    exact drop_behind (drop_behind hslots (slotTable_length _ cells))
      (flatMap_encodeCell_length cells)
  rw [hcount] at hcheck
  constructor
  · rw [decodePage,checkFront_of_at hat hlength,ok_bind,hat.counted,ok_bind,hat.slots,ok_bind,
      hcount,word_toNat hfull.1,if_neg (not_not.mpr rfl),hat.level,ok_bind,hat.generation,
      ok_bind,if_neg,hcheck,ok_bind]
    · rw [show 64+cells.length*8+(cells.map cellLen).sum = extent cells from rfl,htail,
        allZero_zeros,if_pos rfl]
      rfl
    · rw [not_or,not_lt,not_and]
      refine ⟨by unfold extent at hextent; omega,fun hlevel hempty => ?_⟩
      exact hbranch hlevel (length_eq_zero_iff.mp hempty)
  · rw [FramedPage.cells,hat.counted,ok_bind,hcount,range_eq_range']
    exact hmap

theorem encodePage_of_decodePage {page : FramedPage}
    (h : decodePage xxh3 expected bytes = .ok page) (houtput : output.length = pageBytes) :
    page.bytes = bytes ∧ page.header.kind = expected ∧ ∃ cells,page.cells = .ok cells ∧
      encodePage xxh3 page.header cells output = .ok bytes := by
  unfold decodePage at h
  obtain ⟨⟨⟩,hfront,h⟩ := bind_eq_ok h
  obtain ⟨count,hcount,h⟩ := bind_eq_ok h
  obtain ⟨slots,hslots,h⟩ := bind_eq_ok h
  split_ifs at h with hsame
  obtain ⟨level,hlevel,h⟩ := bind_eq_ok h
  obtain ⟨generation,hgeneration,h⟩ := bind_eq_ok h
  split_ifs at h with hbad
  obtain ⟨stop,hstop,h⟩ := bind_eq_ok h
  split_ifs at h with hzero
  obtain rfl := Except.ok.inj h
  rw [not_or,not_lt,not_and] at hbad
  obtain ⟨hlength,hat⟩ :=
    pageAt_of_checkFront hfront hcount hslots hlevel hgeneration (not_not.mp hsame)
  obtain ⟨cells,hlen,htable,hbody,rfl,hle,hvalid,hmap⟩ :=
    checkCells_ok hstop (Nat.zero_add _) hbad.1
  have htail:=eq_zeros_of_allZero hzero
  rw [length_drop,hlength] at htail
  have hextent : extent cells = 64+count.toNat*8+(cells.map cellLen).sum := by
    rw [extent,hlen]
  have hrest : bytes.drop 64 = pageBody cells := by
    rw [pageBody,hlen,hextent,← htail,← hbody]
    exact htable
  refine ⟨rfl,rfl,cells,?_,?_⟩
  · rw [FramedPage.cells,hcount,ok_bind,range_eq_range']
    exact hmap
  · rw [encodePage,if_neg (not_not.mpr houtput),hvalid,ok_bind,if_neg]
    · rw [← hrest,hlen,← hat.joined]
      rfl
    · rw [not_or,not_lt,not_and]
      refine ⟨by omega,fun hpos hnil => hbad.2 hpos ?_⟩
      rw [← hlen,hnil]
      rfl

end Pages

/-- The pages that the decoder accepts are the pages that the encoder writes. -/
theorem page_canonical (xxh3 : Bytes → U64) {output : Bytes} (houtput : output.length = pageBytes) :
    (∀ header cells bytes,encodePage xxh3 header cells output = .ok bytes →
      decodePage xxh3 header.kind bytes = .ok ⟨bytes,header⟩ ∧
        FramedPage.cells ⟨bytes,header⟩ = .ok cells) ∧
    ∀ expected bytes page,decodePage xxh3 expected bytes = .ok page →
      page.bytes = bytes ∧ page.header.kind = expected ∧ ∃ cells,page.cells = .ok cells ∧
        encodePage xxh3 page.header cells output = .ok bytes :=
  ⟨fun _ _ _ h => decodePage_encodePage h,fun _ _ _ h => encodePage_of_decodePage h houtput⟩

def sampleCells : List Cell :=
  [.branch (some (.inline (List.replicate 16 7))) ⟨⟨2,two_nonzero⟩,96,24,.treePage,1⟩,
    .branch none ⟨⟨2,two_nonzero⟩,120,24,.treePage,1⟩]

theorem page_canonical_sample : ∃ bytes,
    encodePage (fun b => BitVec.ofNat 64 b.length) ⟨.nodes,1,5⟩ sampleCells (zeros pageBytes) =
      .ok bytes ∧
    decodePage (fun b => BitVec.ofNat 64 b.length) .nodes bytes = .ok ⟨bytes,⟨.nodes,1,5⟩⟩ ∧
    FramedPage.cells ⟨bytes,⟨.nodes,1,5⟩⟩ = .ok sampleCells := by
  have hvalid : validateCells ⟨.nodes,1,5⟩ sampleCells = .ok () := by decide
  have hfits : ¬ (pageBytes < extent sampleCells ∨
      (0 < (1 : U16).toNat ∧ sampleCells = [])) := by decide
  have hencode : ∃ bytes,encodePage (fun b => BitVec.ofNat 64 b.length) ⟨.nodes,1,5⟩ sampleCells
      (zeros pageBytes) = .ok bytes := by
    rw [encodePage,if_neg (not_not.mpr (zeros_length _)),hvalid,ok_bind,if_neg hfits]
    exact ⟨_,rfl⟩
  obtain ⟨bytes,hbytes⟩ := hencode
  have hcanonical:=page_canonical (fun b => BitVec.ofNat 64 b.length) (zeros_length pageBytes)
  exact ⟨bytes,hbytes,hcanonical.1 _ _ _ hbytes⟩

end Zeppelin.GraphStore
