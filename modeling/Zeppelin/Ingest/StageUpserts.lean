import Zeppelin.Ingest.NamespaceStage

namespace Zeppelin.Ingest
open Wal Fts Meta Planner List

variable {rowCount : ℕ} {bitmap : DocBitmap}

theorem mem_bitmapRows {row : U32} :
    row ∈ bitmapRows rowCount bitmap ↔ row.toNat < rowCount ∧ row ∈ bitmap := by
  rw [bitmapRows,mem_filter,mem_map,decide_eq_true_eq]
  apply and_congr_left
  intro _
  constructor
  · intro ⟨n,hn,heq⟩
    have hlt:=mem_range.mp hn
    rw [← heq,BitVec.toNat_ofNat]
    exact (Nat.mod_le _ _).trans_lt hlt
  · intro hlt
    exact ⟨row.toNat,mem_range.mpr hlt,by rw [BitVec.ofNat_toNat,BitVec.setWidth_eq]⟩

theorem mem_scannedIds {versions : U32 → Option DocumentVersion}
    {ids : List DocId} (h : (bitmapRows rowCount bitmap).mapM (scannedId versions) = .ok ids)
    {docId : DocId} : docId ∈ ids ↔ ∃ row : U32,row.toNat < rowCount ∧ row ∈ bitmap ∧
      ∃ version,versions row = some version ∧ version.docId = docId := by
  obtain ⟨hrows,hids⟩ := mapM_mem h
  have hscanned : ∀ row id,scannedId versions row = .ok id ↔
      ∃ version,versions row = some version ∧ version.docId = id := by
    intro row id
    unfold scannedId
    cases versions row with
    | none => simp
    | some version => simp
  constructor
  · intro hid
    obtain ⟨row,hrow,hscan⟩ := hids docId hid
    obtain ⟨hlt,hmem⟩ := mem_bitmapRows.mp hrow
    exact ⟨row,hlt,hmem,(hscanned row docId).mp hscan⟩
  · intro ⟨row,hlt,hmem,hversion⟩
    obtain ⟨id,hid,hscan⟩ := hrows row (mem_bitmapRows.mpr ⟨hlt,hmem⟩)
    have hsame:=(hscanned row docId).mpr hversion
    rw [hscan] at hsame
    rw [← Except.ok.inj hsame]
    exact hid

theorem mem_sortIds {ids : List DocId} {docId : DocId} : docId ∈ sortIds ids ↔ docId ∈ ids := by
  rw [sortIds,List.mem_dedup,mem_mergeSort]

theorem sortIds_nodup (ids : List DocId) : (sortIds ids).Nodup := nodup_dedup _

section Sealed
variable {schema : Schema} {predicate : Predicate}

theorem sealedScanRows_eq (segment : SealedSegment schema)
    (hvalid : validatePredicate schema predicate = .ok ()) : ∃ bitmap,
      sealedScanRows segment predicate = .ok bitmap ∧ ∀ row : U32,row ∈ bitmap ↔
        row ∈ segment.alive.alive ∧ ∃ r,segment.rows[row.toNat]? = some r ∧
          naiveMatches r.value predicate = true := by
  obtain ⟨hholds,hschema⟩ := ColumnStoreBuilder.build_holds segment.built
  rw [← hschema] at hvalid
  unfold sealedScanRows
  split_ifs with hprune
  · obtain ⟨collected,hstamped,hsubset⟩ := segment.stamped
    refine ⟨∅,rfl,?_⟩
    intro row
    refine iff_of_false (Finset.notMem_empty row) ?_
    intro ⟨hrow,r,hr,hmatch⟩
    rw [hstamped.prunes hholds hsubset hprune hrow hr] at hmatch
    cases hmatch
  · obtain ⟨bitmap,heval,hrows⟩ := hholds.evaluate_matches segment.counted hvalid
    rw [heval]
    exact ⟨bitmap,rfl,hrows⟩

theorem matches_sealed {content : SealedRows} {docId : DocId} :
    content.matches predicate docId = true ↔ ∃ row : ℕ,row < content.rows.length ∧
      BitVec.ofNat 32 row ∈ content.alive ∧
      (∃ version,content.versions[row]? = some version ∧ version.docId = docId) ∧
      ∃ r,content.rows[row]? = some r ∧ naiveMatches r.value predicate = true := by
  rw [SealedRows.matches,any_eq_true]
  simp only [mem_range,Bool.and_eq_true,decide_eq_true_eq,Option.any_eq_true,and_assoc]

theorem SealedSegment.rows_lt (segment : SealedSegment schema) : segment.rows.length < 2^32 := by
  obtain ⟨hholds,-⟩ := ColumnStoreBuilder.build_holds segment.built
  rw [← hholds.rowCount]
  exact segment.columns.rowCount.isLt

theorem sealedIdsMatching_iff {segments : List (SealedSegment schema)} {ids : List DocId}
    (hvalid : validatePredicate schema predicate = .ok ())
    (h : sealedIdsMatching segments predicate = .ok ids) {docId : DocId} :
    docId ∈ ids ↔ ∃ segment ∈ segments,segment.content.matches predicate docId = true := by
  obtain ⟨found,hfound,rfl⟩ := bind_pure_eq_ok h
  obtain ⟨hsegments,hfoundIds⟩ := mapM_mem hfound
  have hone : ∀ (segment : SealedSegment schema) (ids : List DocId),(do
      let bitmap ← sealedScanRows segment predicate
      (bitmapRows segment.rows.length bitmap).mapM
        (scannedId fun row => segment.versions[row.toNat]?)) = .ok ids →
      (docId ∈ ids ↔ segment.content.matches predicate docId = true) := by
    intro segment ids hids
    obtain ⟨bitmap,hbitmap,hrows⟩ := sealedScanRows_eq segment hvalid
    rw [hbitmap,ok_bind] at hids
    rw [mem_scannedIds hids,matches_sealed]
    have hbound:=segment.rows_lt
    constructor
    · intro ⟨row,hlt,hrow,hversion⟩
      obtain ⟨halive,hmatch⟩ := (hrows row).mp hrow
      refine ⟨row.toNat,hlt,?_,hversion,hmatch⟩
      rw [BitVec.ofNat_toNat,BitVec.setWidth_eq]
      exact halive
    · intro ⟨row,hlt,halive,hversion,hmatch⟩
      have hnat : (BitVec.ofNat 32 row).toNat = row := by
        have hlt' : row < segment.rows.length := hlt
        rw [BitVec.toNat_ofNat,Nat.mod_eq_of_lt (by omega)]
      refine ⟨BitVec.ofNat 32 row,?_,(hrows _).mpr ⟨halive,?_⟩,?_⟩
      · rw [hnat]
        exact hlt
      · rw [hnat]
        exact hmatch
      · rw [hnat]
        exact hversion
  rw [mem_flatten]
  constructor
  · intro ⟨ids,hids,hmem⟩
    obtain ⟨segment,hsegment,hscan⟩ := hfoundIds ids hids
    exact ⟨segment,hsegment,(hone segment ids hscan).mp hmem⟩
  · intro ⟨segment,hsegment,hmatch⟩
    obtain ⟨ids,hids,hscan⟩ := hsegments segment hsegment
    exact ⟨ids,hids,(hone segment ids hscan).mpr hmatch⟩

end Sealed

section Active
variable {schema : Schema} {predicate : Predicate} {s : ActiveSegment}

theorem mem_tombstoned {tombstones : List U32} {alive last : AliveSet}
    (h : tombstones.foldlM (fun (alive : AliveSet) row =>
      match alive.tombstone row with
      | none => (Except.error (StageError.store .activeRowOverflow) : Staging AliveSet)
      | some (_,next) => .ok next) alive = .ok last) {row : U32} :
    (row ∈ last.alive ↔ row ∈ alive.alive ∧ row ∉ tombstones) ∧ last.rowCount = alive.rowCount := by
  induction tombstones generalizing alive with
  | nil =>
    obtain rfl := Except.ok.inj h
    simp
  | cons dead tombstones ih =>
    rw [foldlM_cons] at h
    obtain ⟨next,hnext,h⟩ := bind_eq_ok h
    obtain ⟨hmem,hcount⟩ := ih h
    have hstep : (row ∈ next.alive ↔ row ∈ alive.alive ∧ row ≠ dead) ∧
        next.rowCount = alive.rowCount := by
      cases htombstone : alive.tombstone dead with
      | none =>
        rw [htombstone] at hnext
        cases hnext
      | some result =>
        rw [htombstone] at hnext
        obtain rfl := Except.ok.inj hnext
        unfold AliveSet.tombstone at htombstone
        split_ifs at htombstone with hout hin
        · obtain rfl := Option.some.inj htombstone
          dsimp only
          rw [Finset.mem_erase]
          exact ⟨and_comm,rfl⟩
        · obtain rfl := Option.some.inj htombstone
          refine ⟨?_,rfl⟩
          constructor
          · intro hrow
            refine ⟨hrow,?_⟩
            intro heq
            rw [heq] at hrow
            exact hin hrow
          · exact fun hrow => hrow.1
    refine ⟨?_,hcount.trans hstep.2⟩
    rw [hmem,hstep.1,mem_cons,not_or,and_assoc]

theorem alive_iff {alive : AliveSet} (h : s.alive = .ok alive) {row : ℕ}
    (hrow : row < s.docIds.length) : row < 2^32 ∧
      alive.rowCount.toNat = s.docIds.length ∧
      (BitVec.ofNat 32 row ∈ alive.alive ↔ s.isTombstoned row = false) := by
  unfold ActiveSegment.alive at h
  cases hcount : toU32 s.docIds.length with
  | none =>
    rw [hcount] at h
    cases h
  | some rowCount =>
    rw [hcount] at h
    have hlength:=toU32_eq_some.mp hcount
    have hbound:=rowCount.isLt
    have hlt : row < 2^32 := by omega
    obtain ⟨hmem,hkept⟩ := @mem_tombstoned _ _ _ h (BitVec.ofNat 32 row)
    refine ⟨hlt,?_,?_⟩
    · rw [hkept]
      exact hlength
    · rw [hmem]
      have hfull : BitVec.ofNat 32 row ∈ (AliveSet.new rowCount).alive := by
        refine Segment.mem_fullBitmap.mpr (BitVec.lt_def.mpr ?_)
        rw [BitVec.toNat_ofNat,Nat.mod_eq_of_lt hlt]
        omega
      rw [and_iff_right hfull,← Bool.not_eq_true,isTombstoned_iff,and_iff_right hlt]

theorem matches_active {docId : DocId} :
    s.matches predicate docId = true ↔ ∃ row : ℕ,row < s.docIds.length ∧
      s.docIds[row]? = some docId ∧ s.isTombstoned row = false ∧
      ∃ r,s.metaRow row = some r ∧ naiveMatches r.value predicate = true := by
  rw [ActiveSegment.matches,any_eq_true]
  simp only [mem_range,Bool.and_eq_true,decide_eq_true_eq,Option.any_eq_true,and_assoc,
    Bool.not_eq_true']

theorem activeScanColumns_ok {columns : ColumnStore} (h : activeScanColumns schema s = .ok columns) :
    ∃ rows,ColumnStoreBuilder.build schema rows = .ok columns ∧
      rows.length = s.timestamps.length ∧ ∀ row,rows[row]? = s.metaRow row := by
  obtain ⟨rows,hrows,h⟩ := bind_eq_ok h
  have hall:=mapM_forall₂ hrows
  have hlength:=hall.length_eq
  rw [length_zipIdx] at hlength
  refine ⟨rows,mapError_eq_ok h,hlength.symm,?_⟩
  intro row
  unfold ActiveSegment.metaRow
  cases htimestamp : s.timestamps[row]? with
  | none =>
    have hout:=List.getElem?_eq_none_iff.mp htimestamp
    exact getElem?_eq_none (by omega)
  | some timestamp =>
    have hlt:=(List.getElem?_eq_some_iff.mp htimestamp).1
    have hentry : s.timestamps.zipIdx[row]? = some (timestamp,row) := by
      rw [getElem?_zipIdx,htimestamp,Option.map_some,Nat.zero_add]
    have hin : row < rows.length := by omega
    have hpair:=hall.get (by rw [length_zipIdx]; exact hlt) hin
    have hget : s.timestamps.zipIdx.get ⟨row,by rw [length_zipIdx]; exact hlt⟩ =
        (timestamp,row) := (List.getElem?_eq_some_iff.mp hentry).2
    rw [hget] at hpair
    rw [getElem?_eq_getElem hin,Option.bind_eq_bind,Option.bind_some]
    exact (congrArg Except.toOption hpair).symm

theorem document_iff {texts : List (Option String)} {analyze : String → List Token}
    (hsound : s.Sound analyze texts) {row : ℕ} {docId : DocId} :
    (∃ version,s.document row = some version ∧ version.docId = docId) ↔
      s.docIds[row]? = some docId := by
  unfold ActiveSegment.document
  constructor
  · intro ⟨version,hversion,hid⟩
    obtain ⟨id,hget,hversion⟩ := Option.bind_eq_some_iff.mp hversion
    obtain ⟨revision,-,hversion⟩ := Option.bind_eq_some_iff.mp hversion
    rw [← Option.some.inj hversion] at hid
    rw [← hid]
    exact hget
  · intro hget
    have hlt : row < s.revisions.length := by
      rw [hsound.revisions]
      exact (List.getElem?_eq_some_iff.mp hget).1
    rw [hget,getElem?_eq_getElem hlt]
    exact ⟨_,rfl,rfl⟩

theorem activeScanRows_iff {bitmap : DocBitmap} (hvalid : validatePredicate schema predicate = .ok ())
    (h : activeScanRows schema s predicate = .ok bitmap) {row : ℕ} (hrow : row < s.docIds.length) :
    row < 2^32 ∧ (BitVec.ofNat 32 row ∈ bitmap ↔ s.isTombstoned row = false ∧
      ∃ r,s.metaRow row = some r ∧ naiveMatches r.value predicate = true) := by
  obtain ⟨alive,halive,h⟩ := bind_eq_ok h
  obtain ⟨columns,hcolumns,h⟩ := bind_eq_ok h
  obtain ⟨rows,hbuild,-,hrows⟩ := activeScanColumns_ok hcolumns
  have heval:=mapError_eq_ok h
  have hcount : alive.rowCount = columns.rowCount := by
    unfold evaluate at heval
    split_ifs at heval with hcount
    exact (not_not.mp hcount).symm
  obtain ⟨hholds,hschema⟩ := ColumnStoreBuilder.build_holds hbuild
  rw [← hschema] at hvalid
  obtain ⟨found,hfound,hiff⟩ := hholds.evaluate_matches hcount hvalid
  rw [heval] at hfound
  obtain rfl := Except.ok.inj hfound
  obtain ⟨hlt,-,hdead⟩ := alive_iff halive hrow
  refine ⟨hlt,?_⟩
  rw [hiff,hdead,BitVec.toNat_ofNat,Nat.mod_eq_of_lt hlt,hrows]

theorem activeIdsMatching_iff {texts : List (Option String)} {analyze : String → List Token}
    (hsound : s.Sound analyze texts) {ids : List DocId}
    (hvalid : validatePredicate schema predicate = .ok ())
    (h : activeIdsMatching schema s predicate = .ok ids) {docId : DocId} :
    docId ∈ ids ↔ s.matches predicate docId = true := by
  obtain ⟨bitmap,hscan,h⟩ := bind_eq_ok h
  rw [mem_scannedIds h,matches_active]
  constructor
  · intro ⟨row,hlt,hmem,hversion⟩
    obtain ⟨-,hrow⟩ := activeScanRows_iff hvalid hscan hlt
    rw [BitVec.ofNat_toNat,BitVec.setWidth_eq] at hrow
    exact ⟨row.toNat,hlt,(document_iff hsound).mp hversion,hrow.mp hmem⟩
  · intro ⟨row,hlt,hid,hrow⟩
    obtain ⟨hbound,hmem⟩ := activeScanRows_iff hvalid hscan hlt
    have hnat : (BitVec.ofNat 32 row).toNat = row := by
      rw [BitVec.toNat_ofNat,Nat.mod_eq_of_lt hbound]
    refine ⟨BitVec.ofNat 32 row,?_,hmem.mpr hrow,?_⟩
    · rw [hnat]
      exact hlt
    · rw [hnat]
      exact (document_iff hsound).mpr hid

end Active

theorem liveDocumentIdsMatching_iff {schema : Schema} {predicate : Predicate} {s : ActiveSegment}
    {texts : List (Option String)} {analyze : String → List Token}
    (hsound : s.Sound analyze texts) {segments : List (SealedSegment schema)} {ids : List DocId}
    (hvalid : validatePredicate schema predicate = .ok ())
    (h : liveDocumentIdsMatching schema s segments predicate = .ok ids) {docId : DocId} :
    docId ∈ ids ↔ (∃ segment ∈ segments,segment.content.matches predicate docId = true) ∨
      s.matches predicate docId = true := by
  obtain ⟨inSegments,hsegments,h⟩ := bind_eq_ok h
  obtain ⟨inRows,hrows,rfl⟩ := bind_pure_eq_ok h
  rw [mem_sortIds,mem_append,sealedIdsMatching_iff hvalid hsegments,
    activeIdsMatching_iff hsound hvalid hrows]

section Revisions
variable {analyze : String → List Token} {texts : List (Option String)} {schema : Schema}
  {segments : List (SealedSegment schema)} {ids : List DocId} {s : ActiveSegment}
  {sealedView : SealedView} {docId : DocId}

variable {seq : LogSeq} {activeRow : Option ℕ}

theorem foldl_newer_mem (versions : List DocumentVersion)
    (start : Option ResolvedRevision) {best : ResolvedRevision}
    (h : versions.foldl (ResolvedRevision.newer seq activeRow) start = some best) :
    start = some best ∨ best.version ∈ versions := by
  induction versions generalizing start with
  | nil => exact .inl h
  | cons version versions ih =>
    rw [foldl_cons] at h
    rcases ih _ h with hstart | hmem
    · unfold ResolvedRevision.newer at hstart
      split_ifs at hstart
      · rw [← Option.some.inj hstart]
        exact .inr mem_cons_self
      · exact .inl hstart
    · exact .inr (mem_cons_of_mem _ hmem)

theorem foldl_newer_none (versions : List DocumentVersion) (start : Option ResolvedRevision)
    (h : versions.foldl (ResolvedRevision.newer seq activeRow) start = none) :
    start = none ∧ versions = [] := by
  cases versions with
  | nil => exact ⟨h,rfl⟩
  | cons version versions =>
    obtain ⟨best,hbest,-⟩ := foldl_newer_newest seq activeRow (version::versions) start version
      mem_cons_self
    rw [h] at hbest
    cases hbest

theorem mem_sealedViewOf {absorbedThrough : U64} {version : DocumentVersion} :
    version ∈ (sealedViewOf segments absorbedThrough (sealedDocumentMatches segments ids)).versions ↔
      version.docId ∈ ids ∧ ∃ segment ∈ segments,version ∈ segment.versions := by
  dsimp only [sealedViewOf]
  rw [mem_map]
  constructor
  · intro ⟨found,hfound,heq⟩
    obtain ⟨segment,hsegment,hversion,hid⟩ := mem_sealedDocumentMatches.mp hfound
    rw [heq] at hversion hid
    exact ⟨hid,segment,mem_of_getElem? hsegment,mem_of_getElem? hversion⟩
  · intro ⟨hid,segment,hsegment,hversion⟩
    obtain ⟨index,hindex⟩ := getElem?_of_mem hsegment
    obtain ⟨row,hrow⟩ := getElem?_of_mem hversion
    exact ⟨⟨index,row,version⟩,mem_sealedDocumentMatches.mpr ⟨segment,hindex,hrow,hid⟩,rfl⟩

def killed (segments : List (SealedSegment schema)) (dead : DocId → Bool) : List SealedRows :=
  segments.map fun segment => segment.content.kill dead

theorem mem_copies {c : Collection} {dead : DocId → Bool} (hsegments : c.segments = killed segments dead)
    {revision : Revision} : revision ∈ c.copies docId ↔
      (∃ found,c.active.existing docId = some found ∧ found.2.1.revision = revision) ∨
      ∃ version,(∃ segment ∈ segments,version ∈ segment.versions) ∧ version.docId = docId ∧
        version.revision = revision := by
  rw [Collection.copies,mem_append,Option.mem_toList,Option.map_eq_some_iff,hsegments,
    killed,flatMap_map]
  apply or_congr_right
  constructor
  · intro hrevision
    obtain ⟨segment,hsegment,hmem⟩ := mem_flatMap.mp hrevision
    obtain ⟨version,hversion,heq⟩ := mem_map.mp hmem
    obtain ⟨hversion,hid⟩ := mem_filter.mp hversion
    exact ⟨version,⟨segment,hsegment,hversion⟩,of_decide_eq_true hid,heq⟩
  · intro ⟨version,⟨segment,hsegment,hversion⟩,hid,heq⟩
    refine mem_flatMap.mpr ⟨segment,hsegment,mem_map.mpr ⟨version,?_,heq⟩⟩
    exact mem_filter.mpr ⟨hversion,decide_eq_true hid⟩

variable {c : Collection} {dead : DocId → Bool} {absorbedThrough : U64}

theorem resolve_copies (hsegments : c.segments = killed segments dead) (hid : docId ∈ ids)
    (hview : sealedView = sealedViewOf segments absorbedThrough (sealedDocumentMatches segments ids)) :
    (resolveRevision c.active sealedView docId = none → c.copies docId = []) ∧
    ∀ resolved,resolveRevision c.active sealedView docId = some resolved →
      resolved.version.revision ∈ c.copies docId ∧
        ∀ revision ∈ c.copies docId,revision ≤ resolved.version.revision := by
  have hversions : ∀ version,(version ∈ sealedView.versions.filter fun version =>
      version.docId = docId) ↔ (∃ segment ∈ segments,version ∈ segment.versions) ∧
        version.docId = docId := by
    intro version
    rw [mem_filter,hview,mem_sealedViewOf,decide_eq_true_eq]
    constructor
    · intro ⟨⟨_,hsegment⟩,heq⟩
      exact ⟨hsegment,heq⟩
    · intro ⟨hsegment,heq⟩
      exact ⟨⟨heq ▸ hid,hsegment⟩,heq⟩
  rw [resolveRevision_eq]
  constructor
  · intro hnone
    obtain ⟨hexisting,hempty⟩ := foldl_newer_none _ _ hnone
    rw [eq_nil_iff_forall_not_mem]
    intro revision hrevision
    rcases (mem_copies hsegments).mp hrevision with ⟨found,hfound,-⟩ | ⟨version,hversion,hsame,-⟩
    · rw [hfound] at hexisting
      cases hexisting
    · have hmem:=(hversions version).mpr ⟨hversion,hsame⟩
      rw [hempty] at hmem
      exact not_mem_nil hmem
  · intro resolved hresolved
    constructor
    · rw [mem_copies hsegments]
      rcases foldl_newer_mem _ _ hresolved with hstart | hmem
      · obtain ⟨found,hfound,heq⟩ := Option.map_eq_some_iff.mp hstart
        exact .inl ⟨found,hfound,by rw [← heq]⟩
      · obtain ⟨hsegment,hsame⟩ := (hversions _).mp hmem
        exact .inr ⟨resolved.version,hsegment,hsame,rfl⟩
    · intro revision hrevision
      rcases (mem_copies hsegments).mp hrevision with ⟨found,hfound,rfl⟩ |
        ⟨version,hversion,hsame,rfl⟩
      · rw [hfound] at hresolved
        obtain ⟨best,hbest,hle⟩ := foldl_newer_le sealedView.absorbedThrough
          (some found.1) (sealedView.versions.filter fun version => version.docId = docId)
          ⟨found.2.1,found.2.2,some found.1⟩
        rw [Option.map_some,Option.map_some,hbest] at hresolved
        rw [← Option.some.inj hresolved]
        exact hle
      · obtain ⟨best,hbest,hle⟩ := foldl_newer_newest sealedView.absorbedThrough _ _ _ version
          ((hversions version).mpr ⟨hversion,hsame⟩)
        rw [hresolved] at hbest
        rw [Option.some.inj hbest]
        exact hle

end Revisions

section Engine
variable {quantizeBit4 : List U32 → Bytes → Except QuantError (Bytes × Bit4Factors)}
  {analyze : String → List Token} {texts : List (Option String)} {current s next : ActiveSegment}
  {sealedView : SealedView} {d : IngestDocument} {remaining : List IngestDocument}
  {progress progress' : RevisionProgress} {row : ℕ}

theorem Writes.writeRow (h : Writes quantizeBit4 analyze s d next row) :
    writeRow quantizeBit4 analyze s (s.rowIndex.lookup d.version.docId) d = .ok (next,row) := by
  cases h with
  | insert new wrote =>
    rw [new]
    exact wrote
  | replace old document newer wrote =>
    rw [old]
    unfold Zeppelin.Ingest.writeRow
    dsimp only
    rw [wrote]
    rfl

def RevisionProgress.tombstonesFor (progress : RevisionProgress) (sealedView : SealedView)
    (docId : DocId) : List DocId := (progress.tombstoneSealed sealedView docId).sealedTombstones

theorem write_sealedTombstones {target : Option ℕ}
    (h : progress.write quantizeBit4 analyze current d remaining target = .ok progress') :
    progress'.sealedTombstones = progress.sealedTombstones := by
  obtain ⟨working,-,h⟩ := bind_eq_ok h
  obtain ⟨⟨next,row⟩,-,h⟩ := bind_eq_ok h
  obtain ⟨payload,-,h⟩ := bind_eq_ok h
  rw [← Except.ok.inj h]

theorem tombstonesFor_congr (h : progress'.sealedTombstones = progress.sealedTombstones)
    (docId : DocId) :
    progress'.tombstonesFor sealedView docId = progress.tombstonesFor sealedView docId := by
  unfold RevisionProgress.tombstonesFor RevisionProgress.tombstoneSealed
  rw [h]
  split
  · rfl
  · exact h

theorem mem_tombstonesFor {docId id : DocId} : id ∈ progress.tombstonesFor sealedView docId ↔
    id ∈ progress.sealedTombstones ∨ id = docId ∧
      ∃ version ∈ sealedView.versions,version.docId = docId := by
  unfold RevisionProgress.tombstonesFor RevisionProgress.tombstoneSealed
  split_ifs with hask
  · rw [Bool.and_eq_true,any_eq_true] at hask
    obtain ⟨⟨version,hversion,hid⟩,-⟩ := hask
    rw [mem_append,mem_singleton]
    apply or_congr_right
    exact ⟨fun h => ⟨h,version,hversion,of_decide_eq_true hid⟩,fun h => h.1⟩
  · refine ⟨.inl,?_⟩
    intro hid
    rcases hid with hid | ⟨rfl,version,hversion,heq⟩
    · exact hid
    · by_contra hnot
      apply hask
      rw [Bool.and_eq_true,Bool.not_eq_true',any_eq_true]
      refine ⟨⟨version,hversion,decide_eq_true heq⟩,?_⟩
      rw [← Bool.not_eq_true,contains_iff_mem]
      exact hnot

theorem applyRevisionDecision_cases (hsound : (progress.working.getD current).Sound analyze texts)
    (h : applyRevisionDecision quantizeBit4 analyze current sealedView d remaining progress =
      .ok progress') :
    (∃ resolved,resolveRevision (progress.working.getD current) sealedView d.version.docId =
      some resolved ∧ resolved.version.revision = d.version.revision ∧
        progress' = progress.replayed resolved.seq) ∨
    (∀ resolved,resolveRevision (progress.working.getD current) sealedView d.version.docId =
        some resolved → resolved.version.revision < d.version.revision) ∧
      progress'.sealedTombstones = progress.tombstonesFor sealedView d.version.docId ∧
      ∃ row payload next,Wrote quantizeBit4 analyze current d progress progress' row payload next := by
  rcases applyRevisionDecision_ok hsound h with hreplayed | ⟨-,hwrote⟩
  · exact .inl hreplayed
  have hnewest:=resolveRevision_newest (progress.working.getD current) sealedView d.version.docId
  simp only [applyRevisionDecision] at h
  cases hresolved : resolveRevision (progress.working.getD current) sealedView d.version.docId with
  | none =>
    rw [hresolved] at h
    refine .inr ⟨fun _ hnone => (by cases hnone),?_,hwrote⟩
    rw [write_sealedTombstones h]
    unfold RevisionProgress.tombstonesFor RevisionProgress.tombstoneSealed
    rw [if_neg]
    rw [Bool.and_eq_true,any_eq_true]
    intro hboth
    obtain ⟨⟨version,hversion,hid⟩,-⟩ := hboth
    obtain ⟨best,hbest,-⟩ := hnewest version hversion (of_decide_eq_true hid)
    rw [hresolved] at hbest
    cases hbest
  | some resolved =>
    rw [hresolved] at h
    simp only [Option.map_some,classifyRevision,Option.bind_some] at h
    split_ifs at h with hless hequal
    · exact .inl ⟨resolved,rfl,hequal.symm,(Except.ok.inj h).symm⟩
    · refine .inr ⟨?_,?_,hwrote⟩
      · intro other hother
        rw [← Option.some.inj hother]
        have hle : ¬ d.version.revision.toNat < resolved.version.revision.toNat := hless
        have hne : d.version.revision.toNat ≠ resolved.version.revision.toNat :=
          fun heq => hequal (BitVec.eq_of_toNat_eq heq)
        exact BitVec.lt_def.mpr (by omega)
      · obtain ⟨written,hwrite,h⟩ := bind_eq_ok h
        rw [← Except.ok.inj h]
        exact tombstonesFor_congr (write_sealedTombstones hwrite) _

end Engine

end Zeppelin.Ingest
