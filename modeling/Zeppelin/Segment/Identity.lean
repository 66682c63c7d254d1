import Mathlib.Data.List.Lex
import Zeppelin.Collections.SortedIndex
import Zeppelin.Meta.Columns

/-! segment/reader.rs -/

namespace Zeppelin.Segment
open Collections Ingest Meta List

def documentVersionBytes : ℕ := 24

structure DocumentVersions where
  rowCount : U32
  bytes : Bytes
  valid : bytes.length = rowCount.toNat*documentVersionBytes

def byteKey (bytes : Bytes) : List ℕ := bytes.map BitVec.toNat

def encodeDocumentVersion (version : DocumentVersion) : Bytes :=
  toLe 16 version.docId++toLe 8 version.revision

namespace DocumentVersions
variable (region : DocumentVersions)

def entry (row : ℕ) : Bytes :=
  (slice? region.bytes (row*documentVersionBytes)
    (row*documentVersionBytes+documentVersionBytes)).getD []

def idEntry (row : ℕ) : Bytes := (slice? (region.entry row) 0 16).getD []

def documentVersion (row : ℕ) : Option DocumentVersion := do
  let start:=row*documentVersionBytes
  let docId ← slice? region.bytes start (start+16)
  let revision ← slice? region.bytes (start+16) (start+24)
  some ⟨ofLe 128 docId,ofLe 64 revision⟩

def rows : List ℕ := List.range region.rowCount.toNat

def chunksExact (width : ℕ) (bytes : Bytes) : List Bytes :=
  (List.range (bytes.length / width)).map fun i => (bytes.drop (i*width)).take width

/-- `query_document_version_index` -/
def index : List ℕ := sortedIndex (fun row => byteKey (region.entry row)) region.rows

end DocumentVersions

abbrev Identities := Option DocumentVersions

def rowForDocumentVersion (identities : Identities) (version : DocumentVersion) : Option ℕ := do
  let region ← identities
  (DocumentVersions.chunksExact documentVersionBytes region.bytes).findIdx? fun entry =>
    entry = encodeDocumentVersion version

def queryRowForDocumentVersion (identities : Identities) (version : DocumentVersion) :
    Option ℕ := do
  let region ← identities
  let needle:=encodeDocumentVersion version
  let position:=slicePartitionPoint
    (fun row => byteKey (region.entry row) < byteKey needle) region.index
  region.index[position]?.filter fun row => region.entry row = needle

def queryRowsWithDocId (identities : Identities) (docId : DocId) : List ℕ :=
  match identities with
  | none => []
  | some region =>
    let needle:=toLe 16 docId
    let start:=slicePartitionPoint
      (fun row => byteKey (region.idEntry row) < byteKey needle) region.index
    let stop:=slicePartitionPoint
      (fun row => byteKey (region.idEntry row) ≤ byteKey needle) region.index
    ((region.index.take stop).drop start).mergeSort fun a b => decide (a ≤ b)

def eligibleByteOrderMinIds : ℕ := 1000

def mergeEligible (region : DocumentVersions) : List ℕ → List Bytes → DocBitmap → DocBitmap
  | [],_,bitmap => bitmap
  | row::index,needles,bitmap =>
    let id:=region.idEntry row
    match needles.dropWhile fun needle => byteKey needle < byteKey id with
    | [] => bitmap
    | needle::rest =>
      mergeEligible region index (needle::rest)
        (if needle = id then insert (BitVec.ofNat 32 row) bitmap else bitmap)

def queryRowsForEligibleIds (identities : Identities) (ids : List DocId)
    (byteOrder : List Bytes) : DocBitmap :=
  if ids.length < eligibleByteOrderMinIds then
    ids.foldl (fun bitmap id => (queryRowsWithDocId identities id).foldl
      (fun bitmap row => insert (BitVec.ofNat 32 row) bitmap) bitmap) ∅
  else
    match identities with
    | none => ∅
    | some region => mergeEligible region region.index byteOrder ∅

/-- The order `with_eligible` keeps beside the numeric ids. -/
def eligibleByteOrder (ids : List DocId) : List Bytes :=
  (ids.map fun id => toLe 16 id).mergeSort fun a b => decide (byteKey a ≤ byteKey b)

theorem byteKey_inj {a b : Bytes} : byteKey a = byteKey b ↔ a = b :=
  (map_injective_iff.mpr fun _ _ h => BitVec.eq_of_toNat_eq h).eq_iff

namespace DocumentVersions
variable {region : DocumentVersions} {row : ℕ}

theorem mem_rows : row ∈ region.rows ↔ row < region.rowCount.toNat := mem_range

theorem rows_pairwise : region.rows.Pairwise (· < ·) := pairwise_lt_range

theorem entry_end_le (h : row ∈ region.rows) :
    row*documentVersionBytes+documentVersionBytes ≤ region.bytes.length := by
  have hrow:=mem_rows.mp h
  have hvalid:=region.valid
  rw [documentVersionBytes] at *
  omega

theorem entry_eq (h : row ∈ region.rows) :
    region.entry row = (region.bytes.drop (row*documentVersionBytes)).take
      documentVersionBytes := by
  rw [entry,slice?_eq_some (Nat.le_add_right ..) (entry_end_le h),Option.getD_some,
    Nat.add_sub_cancel_left]

theorem length_entry (h : row ∈ region.rows) : (region.entry row).length = 24 := by
  have hend:=entry_end_le h
  rw [entry_eq h,length_take,length_drop]
  rw [documentVersionBytes] at *
  omega

theorem idEntry_eq (h : row ∈ region.rows) : region.idEntry row = (region.entry row).take 16 := by
  have hlength:=length_entry h
  rw [idEntry,slice?_eq_some (Nat.zero_le _) (by omega),Option.getD_some,drop_zero]

theorem documentVersion_eq (h : row ∈ region.rows) : region.documentVersion row =
      some ⟨ofLe 128 ((region.entry row).take 16),ofLe 64 ((region.entry row).drop 16)⟩ := by
  have hend:=entry_end_le h
  rw [documentVersionBytes] at hend
  simp only [documentVersion,documentVersionBytes]
  rw [slice?_eq_some (by omega) (by omega),slice?_eq_some (by omega) (by omega)]
  simp only [Option.bind_eq_bind,Option.bind_some,Nat.add_sub_cancel_left]
  rw [entry_eq h,documentVersionBytes,take_take,drop_take,drop_drop]
  rw [show row*24+24-(row*24+16) = 24-16 by omega]
  rfl

theorem entry_iff_version (h : row ∈ region.rows) (version : DocumentVersion) :
    region.entry row = encodeDocumentVersion version ↔
      region.documentVersion row = some version := by
  have hlength:=length_entry h
  rw [documentVersion_eq h,encodeDocumentVersion]
  constructor
  · intro heq
    have hid : (region.entry row).take 16 = toLe 16 version.docId := by
      rw [heq,take_left' (toLe_length ..)]
    have hrevision : (region.entry row).drop 16 = toLe 8 version.revision := by
      rw [heq,drop_left' (toLe_length ..)]
    rw [hid,hrevision,ofLe_toLe_128,ofLe_toLe_64]
  · intro heq
    have hversion:=Option.some.inj heq
    rw [← hversion,toLe_ofLe 16 (by decide) _ (by rw [length_take]; omega),
      toLe_ofLe 8 (by decide) _ (by rw [length_drop]; omega),take_append_drop]

theorem idEntry_iff_docId (h : row ∈ region.rows) (docId : DocId) :
    region.idEntry row = toLe 16 docId ↔
      (region.documentVersion row).map (·.docId) = some docId := by
  have hlength:=length_entry h
  rw [idEntry_eq h,documentVersion_eq h,Option.map_some,Option.some_inj]
  constructor
  · intro heq
    rw [heq,ofLe_toLe_128]
  · intro heq
    rw [← heq,toLe_ofLe 16 (by decide) _ (by rw [length_take]; omega)]

theorem lt_of_take_lt_take {a b : List ℕ} (n : ℕ) (h : a.take n < b.take n) : a < b := by
  induction n generalizing a b with
  | zero => exact absurd h (not_lt_nil _)
  | succ n ih =>
    cases b with
    | nil => exact absurd h (not_lt_nil _)
    | cons y b =>
      cases a with
      | nil => exact nil_lt_cons _ _
      | cons x a =>
        rw [take_succ_cons,take_succ_cons,cons_lt_cons_iff] at h
        rw [cons_lt_cons_iff]
        exact h.imp_right fun h => ⟨h.1,ih h.2⟩

theorem mem_index : row ∈ region.index ↔ row ∈ region.rows := mem_sortedIndex ..

theorem index_entries :
    region.index.Pairwise fun a b => byteKey (region.entry a) ≤ byteKey (region.entry b) :=
  sortedIndex_keys ..

theorem index_ids :
    region.index.Pairwise fun a b => byteKey (region.idEntry a) ≤ byteKey (region.idEntry b) := by
  refine index_entries.imp_of_mem ?_
  intro a b ha hb hab
  rw [idEntry_eq (mem_index.mp ha),idEntry_eq (mem_index.mp hb)]
  simp only [byteKey,map_take]
  exact not_lt.mp fun hlt => absurd (lt_of_take_lt_take 16 hlt) (not_lt.mpr hab)

end DocumentVersions

def scanRows (identities : Identities) (test : DocumentVersion → Bool) : List ℕ :=
  match identities with
  | none => []
  | some region => region.rows.filter fun row => (region.documentVersion row).any test

section Lookups
variable {region : DocumentVersions}

theorem any_eq_some {row : ℕ} (version : DocumentVersion) :
    (region.documentVersion row).any (fun v => v = version) =
      decide (region.documentVersion row = some version) := by
  cases region.documentVersion row with
  | none => rfl
  | some v => simp

theorem find?_entry (version : DocumentVersion) :
    region.rows.find? (fun row => decide (region.entry row = encodeDocumentVersion version)) =
      (scanRows (some region) fun v => v = version).head? := by
  rw [← head?_filter,scanRows]
  congr 1
  apply filter_congr
  intro row hrow
  rw [any_eq_some,decide_eq_decide]
  exact DocumentVersions.entry_iff_version hrow version

theorem findIdx?_range (n : ℕ) (p : ℕ → Bool) :
    (List.range n).findIdx? p = (List.range n).find? p := by
  cases h : (List.range n).findIdx? p with
  | none =>
    rw [findIdx?_eq_none_iff] at h
    exact (find?_eq_none.mpr fun i hi => by simp [h i hi]).symm
  | some i =>
    obtain ⟨hi,hp,hfirst⟩ := findIdx?_eq_some_iff_getElem.mp h
    simp only [getElem_range,length_range] at hi hp hfirst
    refine (find?_range_eq_some.mpr ⟨hp,mem_range.mpr hi,?_⟩).symm
    intro j hj
    simpa using hfirst j hj

theorem rowForDocumentVersion_eq (version : DocumentVersion) :
    rowForDocumentVersion (some region) version =
      (scanRows (some region) fun v => v = version).head? := by
  have hcount : region.bytes.length / documentVersionBytes = region.rowCount.toNat := by
    rw [region.valid]
    exact Nat.mul_div_cancel _ (by decide)
  have hchunks : DocumentVersions.chunksExact documentVersionBytes region.bytes =
      region.rows.map region.entry := by
    rw [DocumentVersions.chunksExact,hcount]
    apply map_congr_left
    intro row hrow
    exact (DocumentVersions.entry_eq hrow).symm
  simp only [rowForDocumentVersion,Option.bind_eq_bind,Option.bind_some]
  rw [hchunks,findIdx?_map,← find?_entry]
  exact findIdx?_range ..

theorem queryRowForDocumentVersion_eq (version : DocumentVersion) :
    queryRowForDocumentVersion (some region) version =
      (scanRows (some region) fun v => v = version).head? := by
  have hmono : region.index.Pairwise fun a b =>
      decide (byteKey (region.entry b) < byteKey (encodeDocumentVersion version)) = true →
        decide (byteKey (region.entry a) < byteKey (encodeDocumentVersion version)) = true := by
    refine DocumentVersions.index_entries.imp ?_
    intro a b hab hb
    rw [decide_eq_true_eq] at *
    exact hab.trans_lt hb
  have hfirst:=head?_filter_key DocumentVersions.index_entries
    (byteKey (encodeDocumentVersion version)) (fun row => decide_eq_true_iff)
    (fun row => (decide_eq_true_iff (p := region.entry row =
      encodeDocumentVersion version)).trans byteKey_inj.symm)
  have hequal:=filter_key_sortedIndex (fun row => byteKey (region.entry row))
    (@DocumentVersions.rows_pairwise region)
    (p := fun row => region.entry row = encodeDocumentVersion version)
    (by
      intro a b ha hb
      rw [of_decide_eq_true ha,of_decide_eq_true hb])
  simp only [queryRowForDocumentVersion,Option.bind_eq_bind,Option.bind_some]
  rw [← head?_drop,drop_eq_filter hmono,hfirst,DocumentVersions.index,hequal,
    head?_filter,find?_entry]

theorem any_docId {row : ℕ} (h : row ∈ region.rows) (docId : DocId) :
    (region.documentVersion row).any (fun v => v.docId = docId) =
      decide (region.idEntry row = toLe 16 docId) := by
  rw [Bool.eq_iff_iff,decide_eq_true_iff,DocumentVersions.idEntry_iff_docId h]
  cases region.documentVersion row with
  | none => simp
  | some v => simp

theorem queryRowsWithDocId_eq (docId : DocId) :
    queryRowsWithDocId (some region) docId =
      scanRows (some region) fun v => v.docId = docId := by
  have hbelow : region.index.Pairwise fun a b =>
      decide (byteKey (region.idEntry b) < byteKey (toLe 16 docId)) = true →
        decide (byteKey (region.idEntry a) < byteKey (toLe 16 docId)) = true := by
    refine DocumentVersions.index_ids.imp ?_
    intro a b hab hb
    rw [decide_eq_true_eq] at *
    exact hab.trans_lt hb
  have hupto : region.index.Pairwise fun a b =>
      decide (byteKey (region.idEntry b) ≤ byteKey (toLe 16 docId)) = true →
        decide (byteKey (region.idEntry a) ≤ byteKey (toLe 16 docId)) = true := by
    refine DocumentVersions.index_ids.imp ?_
    intro a b hab hb
    rw [decide_eq_true_eq] at *
    exact hab.trans hb
  simp only [queryRowsWithDocId]
  rw [drop_take_eq_filter hbelow hupto,DocumentVersions.index,
    sort_filter_sortedIndex DocumentVersions.rows_pairwise,scanRows]
  apply filter_congr
  intro row hrow
  rw [any_docId hrow,← decide_not,← Bool.decide_and,decide_eq_decide,not_lt,
    ← le_antisymm_iff,byteKey_inj]

theorem mem_foldl_insert (rows : List ℕ) (bitmap : DocBitmap) (x : U32) :
    x ∈ rows.foldl (fun bitmap row => insert (BitVec.ofNat 32 row) bitmap) bitmap ↔
      x ∈ bitmap ∨ ∃ row ∈ rows,BitVec.ofNat 32 row = x := by
  induction rows generalizing bitmap with
  | nil => simp
  | cons row rows ih =>
    rw [foldl_cons,ih,Finset.mem_insert,exists_mem_cons_iff,or_assoc,
      or_left_comm,eq_comm]

theorem mem_perId (identities : Identities) (ids : List DocId) (bitmap : DocBitmap) (x : U32) :
    x ∈ ids.foldl (fun bitmap id => (queryRowsWithDocId identities id).foldl
        (fun bitmap row => insert (BitVec.ofNat 32 row) bitmap) bitmap) bitmap ↔
      x ∈ bitmap ∨ ∃ id ∈ ids,∃ row ∈ queryRowsWithDocId identities id,
        BitVec.ofNat 32 row = x := by
  induction ids generalizing bitmap with
  | nil => simp
  | cons id ids ih =>
    rw [foldl_cons,ih,mem_foldl_insert,exists_mem_cons_iff,or_assoc]

theorem mergeEligible_eq (index : List ℕ) (needles : List Bytes) (bitmap : DocBitmap) :
    mergeEligible region index needles bitmap =
      (mergeRows (fun needle row => byteKey needle < byteKey (region.idEntry row))
        (fun needle row => needle = region.idEntry row) index needles).foldl
          (fun bitmap row => insert (BitVec.ofNat 32 row) bitmap) bitmap := by
  induction index generalizing needles bitmap with
  | nil => rfl
  | cons row index ih =>
    rw [mergeEligible,mergeRows]
    cases needles.dropWhile fun needle => byteKey needle < byteKey (region.idEntry row) with
    | nil => rfl
    | cons needle rest =>
      dsimp only
      by_cases h : needle = region.idEntry row
      · rw [if_pos h,if_pos (decide_eq_true h),ih,foldl_cons]
      · rw [if_neg h,if_neg (by simpa using h),ih]

theorem eligibleByteOrder_pairwise (ids : List DocId) :
    (eligibleByteOrder ids).Pairwise fun a b => byteKey a ≤ byteKey b := by
  have h:=@pairwise_mergeSort _ (fun a b => decide (byteKey a ≤ byteKey b))
    (by
      intro a b c hab hbc
      rw [decide_eq_true_eq] at *
      exact hab.trans hbc)
    (by
      intro a b
      rw [Bool.or_eq_true,decide_eq_true_eq,decide_eq_true_eq]
      exact le_total ..)
    (ids.map fun id => toLe 16 id)
  exact h.imp of_decide_eq_true

theorem mem_eligibleByteOrder {ids : List DocId} {needle : Bytes} :
    needle ∈ eligibleByteOrder ids ↔ ∃ id ∈ ids,toLe 16 id = needle := by
  rw [eligibleByteOrder,mem_mergeSort,mem_map]

theorem mem_merge (ids : List DocId) (x : U32) :
    x ∈ mergeEligible region region.index (eligibleByteOrder ids) ∅ ↔
      ∃ row ∈ region.rows,(∃ id ∈ ids,region.idEntry row = toLe 16 id) ∧
        BitVec.ofNat 32 row = x := by
  have hmerge : ∀ row,row ∈ mergeRows
      (fun needle row => byteKey needle < byteKey (region.idEntry row))
      (fun needle row => needle = region.idEntry row) region.index (eligibleByteOrder ids) ↔
      row ∈ region.index ∧ ∃ needle ∈ eligibleByteOrder ids,
        byteKey needle = byteKey (region.idEntry row) := by
    intro row
    exact mem_mergeRows (fun _ _ => decide_eq_true_iff)
      (fun needle row => (decide_eq_true_iff (p := needle = region.idEntry row)).trans
        byteKey_inj.symm) DocumentVersions.index_ids (eligibleByteOrder_pairwise ids)
  rw [mergeEligible_eq,mem_foldl_insert]
  simp only [Finset.notMem_empty,false_or,hmerge,DocumentVersions.mem_index,
    mem_eligibleByteOrder,byteKey_inj]
  constructor
  · intro ⟨row,⟨hrow,_,⟨id,hid,rfl⟩,hkey⟩,hx⟩
    exact ⟨row,hrow,⟨id,hid,hkey.symm⟩,hx⟩
  · intro ⟨row,hrow,⟨id,hid,hkey⟩,hx⟩
    exact ⟨row,⟨hrow,toLe 16 id,⟨id,hid,rfl⟩,hkey.symm⟩,hx⟩

end Lookups

def scanBitmap (identities : Identities) (test : DocumentVersion → Bool) : DocBitmap :=
  ((scanRows identities test).map (BitVec.ofNat 32)).toFinset

theorem queryRowsForEligibleIds_eq (identities : Identities) (ids : List DocId)
    (byteOrder : List Bytes)
    (horder : eligibleByteOrderMinIds ≤ ids.length → byteOrder = eligibleByteOrder ids) :
    queryRowsForEligibleIds identities ids byteOrder =
      scanBitmap identities fun v => v.docId ∈ ids := by
  have hany : ∀ (region : DocumentVersions) (row : ℕ),row ∈ region.rows →
      ((region.documentVersion row).any (fun v => v.docId ∈ ids) = true ↔
        ∃ id ∈ ids,region.idEntry row = toLe 16 id) := by
    intro region row hrow
    simp only [DocumentVersions.idEntry_iff_docId hrow]
    cases region.documentVersion row with
    | none => simp
    | some v => simp
  apply Finset.ext
  intro x
  unfold queryRowsForEligibleIds
  rw [scanBitmap,mem_toFinset,mem_map]
  cases identities with
  | none =>
    split_ifs with hfew
    · rw [mem_perId]
      simp [queryRowsWithDocId,scanRows]
    · simp [scanRows]
  | some region =>
    have hscan : (∃ row ∈ scanRows (some region) (fun v => v.docId ∈ ids),
        BitVec.ofNat 32 row = x) ↔ ∃ row ∈ region.rows,
          (∃ id ∈ ids,region.idEntry row = toLe 16 id) ∧ BitVec.ofNat 32 row = x := by
      simp only [scanRows,mem_filter]
      constructor
      · intro ⟨row,⟨hrow,htest⟩,hx⟩
        exact ⟨row,hrow,(hany region row hrow).mp htest,hx⟩
      · intro ⟨row,hrow,htest,hx⟩
        exact ⟨row,⟨hrow,(hany region row hrow).mpr htest⟩,hx⟩
    rw [hscan]
    split_ifs with hfew
    · rw [mem_perId]
      simp only [Finset.notMem_empty,false_or,queryRowsWithDocId_eq,scanRows,mem_filter]
      constructor
      · intro ⟨id,hid,row,⟨hrow,htest⟩,hx⟩
        rw [any_docId hrow,decide_eq_true_eq] at htest
        exact ⟨row,hrow,⟨id,hid,htest⟩,hx⟩
      · intro ⟨row,hrow,⟨id,hid,htest⟩,hx⟩
        refine ⟨id,hid,row,⟨hrow,?_⟩,hx⟩
        rw [any_docId hrow,decide_eq_true_eq]
        exact htest
    · rw [horder (not_lt.mp hfew)]
      exact mem_merge ids x

/-- Every lookup over the permutation gives what a plain scan gives. -/
theorem identity_lookups_eq_scans (identities : Identities) :
    (∀ version,
      queryRowForDocumentVersion identities version =
        (scanRows identities fun v => v = version).head? ∧
      rowForDocumentVersion identities version =
        (scanRows identities fun v => v = version).head?) ∧
    (∀ docId,queryRowsWithDocId identities docId = scanRows identities fun v => v.docId = docId) ∧
    ∀ ids byteOrder,
      (eligibleByteOrderMinIds ≤ ids.length → byteOrder = eligibleByteOrder ids) →
      queryRowsForEligibleIds identities ids byteOrder =
        scanBitmap identities fun v => v.docId ∈ ids := by
  cases identities with
  | none => exact ⟨fun _ => ⟨rfl,rfl⟩,fun _ => rfl,queryRowsForEligibleIds_eq none⟩
  | some region =>
    exact ⟨fun version => ⟨queryRowForDocumentVersion_eq version,rowForDocumentVersion_eq version⟩,
      queryRowsWithDocId_eq,queryRowsForEligibleIds_eq (some region)⟩

/-- Two versions of one document, found through the merge with a thousand ids. -/
theorem identity_lookups_at_two_rows :
    queryRowsForEligibleIds (some ⟨2,encodeDocumentVersion ⟨7,1⟩++encodeDocumentVersion ⟨7,2⟩,
        by decide⟩) (List.replicate 1000 7) (eligibleByteOrder (List.replicate 1000 7)) =
      scanBitmap (some ⟨2,encodeDocumentVersion ⟨7,1⟩++encodeDocumentVersion ⟨7,2⟩,
        by decide⟩) fun v => v.docId ∈ List.replicate 1000 7 :=
  (identity_lookups_eq_scans _).2.2 _ _ fun _ => rfl

end Zeppelin.Segment
