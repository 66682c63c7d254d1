import Zeppelin.Ingest.RevisionRuns
import Zeppelin.Planner.PruneSound
import Zeppelin.Segment.ColumnsSpec

/-! ingest/namespace_stage.rs, ingest/purge.rs -/

namespace Zeppelin.Ingest
open Wal Fts Meta Planner List

/-- A sealed segment: its columns are built from `rows`, and its range covers what is live. -/
structure SealedSegment (schema : Schema) where
  versions : List DocumentVersion
  rows : List MetaRow
  columns : ColumnStore
  alive : AliveSet
  clusteringKeyRange : ClusteringKeyRange
  built : ColumnStoreBuilder.build schema rows = .ok columns
  counted : alive.rowCount = columns.rowCount
  stamped : ∃ collected,Stamped rows columns collected clusteringKeyRange ∧
    alive.alive ⊆ collected.alive

structure NamespaceMutation where
  upserts : List IngestDocument
  deletes : List DocId
  deleteWhere : Option Predicate

inductive StageError where
  | ingest (error : IngestError)
  | plan (error : PlanError)
  | scan (error : EvalError)
  | columns (error : BuildError)
  | store (error : StoreError)
  | missingIdentity (row : U32)

abbrev Staging := Except StageError

structure SealedDocumentMatch where
  segmentIndex : ℕ
  row : ℕ
  version : DocumentVersion
  deriving DecidableEq

section Sealed
variable {schema : Schema}

def sealedDocumentMatches (segments : List (SealedSegment schema)) (ids : List DocId) :
    List SealedDocumentMatch :=
  segments.zipIdx.flatMap fun (segment,segmentIndex) =>
    (segment.versions.zipIdx.filter fun entry => entry.1.docId ∈ ids).map fun (version,row) =>
      ⟨segmentIndex,row,version⟩

/-- `query_rows_for_doc_id` -/
def SealedSegment.liveRows (segment : SealedSegment schema) (docId : DocId) : List ℕ :=
  ((segment.versions.zipIdx.filter fun entry => entry.1.docId = docId).map Prod.snd).filter
    fun row => BitVec.ofNat 32 row ∈ segment.alive.alive

def sealedViewOf (segments : List (SealedSegment schema)) (absorbedThrough : U64)
    (found : List SealedDocumentMatch) : SealedView where
  versions := found.map SealedDocumentMatch.version
  liveRevision docId := segments.findSome? fun segment =>
    (segment.liveRows docId).findSome? fun row =>
      segment.versions[row]?.map DocumentVersion.revision
  absorbedThrough

def SealedSegment.rewrite (segment : SealedSegment schema) (rows : List ℕ) :
    Staging (SealedSegment schema) :=
  let alive:=segment.alive.retain
    (segment.alive.alive.filter fun row => row.toNat ∉ rows)
  match hrange : clusteringRange segment.columns alive with
  | none => .error (.store .activeRowOverflow)
  | some range => .ok { segment with
      alive
      clusteringKeyRange := range
      counted := segment.counted
      stamped := ⟨alive,.inr (.inr hrange),Finset.Subset.refl _⟩ }

def prepareOneSegmentReplacement (segment : SealedSegment schema) (rows : List ℕ) :
    Staging (SealedSegment schema × Bool) :=
  let live:=rows.filter fun row => row < 2^32 ∧ BitVec.ofNat 32 row ∈ segment.alive.alive
  if live = [] then .ok (segment,false)
  else do
    let replacement ← segment.rewrite live
    return (replacement,true)

def prepareSealedTombstones (segments : List (SealedSegment schema))
    (found : List SealedDocumentMatch) (ids : List DocId) :
    Staging (List (SealedSegment schema × Bool)) :=
  segments.zipIdx.mapM fun (segment,segmentIndex) =>
    prepareOneSegmentReplacement segment
      ((found.filter fun entry => entry.version.docId ∈ ids ∧ entry.segmentIndex = segmentIndex).map
        SealedDocumentMatch.row).dedup

end Sealed

/-- `decode_column_values` -/
def decodeStoredColumns (bytes : Bytes) : Except PayloadError (List (ColumnId × PredicateValue)) := do
  let (columns,rest) ← decodeTypedColumns bytes
  finish rest
  return columns

def ActiveSegment.columnValues (s : ActiveSegment) (row : ℕ) :
    Except StoreError (List (ColumnId × PredicateValue)) :=
  if s.rowCount ≤ row then .error .activeRowOverflow
  else if !s.tracksColumns then .ok []
  else match s.columns.rowItems row with
    | none => .error .activeRowOverflow
    | some bytes =>
      Except.mapError (.walMutation (s.sequences.getD row 0) upsertV2) (decodeStoredColumns bytes)

def columnInputs (columns : List (ColumnId × PredicateValue)) : List ColumnInput :=
  columns.map fun column => ⟨column.1,column.2⟩

def ActiveSegment.scanRow (s : ActiveSegment) (row : ℕ) (timestamp : U64) : Staging MetaRow := do
  let values ← Except.mapError .store (s.columnValues row)
  return ⟨timestamp,columnInputs values⟩

def activeScanColumns (schema : Schema) (s : ActiveSegment) : Staging ColumnStore := do
  let rows ← s.timestamps.zipIdx.mapM fun (timestamp,row) => s.scanRow row timestamp
  Except.mapError .columns (ColumnStoreBuilder.build schema rows)

def ActiveSegment.alive (s : ActiveSegment) : Staging AliveSet :=
  match toU32 s.docIds.length with
  | none => .error (.store .activeRowOverflow)
  | some rowCount => s.tombstones.foldlM (fun alive row =>
      match alive.tombstone row with
      | none => .error (.store .activeRowOverflow)
      | some (_,next) => .ok next) (AliveSet.new rowCount)

def activeScanRows (schema : Schema) (s : ActiveSegment) (predicate : Predicate) :
    Staging DocBitmap := do
  let alive ← s.alive
  let columns ← activeScanColumns schema s
  Except.mapError .scan (evaluate predicate columns alive)

def sealedScanRows {schema : Schema} (segment : SealedSegment schema) (predicate : Predicate) :
    Staging DocBitmap :=
  if segmentMayMatch segment.clusteringKeyRange predicate = false then .ok ∅
  else Except.mapError .scan (evaluate predicate segment.columns segment.alive)

def bitmapRows (rowCount : ℕ) (bitmap : DocBitmap) : List U32 :=
  ((List.range rowCount).map (BitVec.ofNat 32)).filter fun row => row ∈ bitmap

def scannedId (versions : U32 → Option DocumentVersion) (row : U32) : Staging DocId :=
  match versions row with
  | none => .error (.missingIdentity row)
  | some version => .ok version.docId

/-- `sort_unstable` and `dedup` -/
def sortIds (ids : List DocId) : List DocId :=
  (ids.mergeSort fun a b => decide (a ≤ b)).dedup

def sealedIdsMatching {schema : Schema} (segments : List (SealedSegment schema))
    (predicate : Predicate) : Staging (List DocId) := do
  let found ← segments.mapM fun segment => do
    let bitmap ← sealedScanRows segment predicate
    (bitmapRows segment.rows.length bitmap).mapM (scannedId fun row => segment.versions[row.toNat]?)
  return found.flatten

def activeIdsMatching (schema : Schema) (s : ActiveSegment) (predicate : Predicate) :
    Staging (List DocId) := do
  let bitmap ← activeScanRows schema s predicate
  (bitmapRows s.rowCount bitmap).mapM (scannedId fun row => s.document row.toNat)

def liveDocumentIdsMatching (schema : Schema) (s : ActiveSegment)
    (segments : List (SealedSegment schema)) (predicate : Predicate) : Staging (List DocId) := do
  let inSegments ← sealedIdsMatching segments predicate
  let inRows ← activeIdsMatching schema s predicate
  return sortIds (inSegments++inRows)

structure Stage (schema : Schema) where
  active : ActiveState
  segments : List (SealedSegment schema × Bool)
  records : List (U16 × Bytes)
  rows : List (List ℕ)

section Engine
variable (quantizeBit4 : List U32 → Bytes → Except QuantError (Bytes × Bit4Factors))
  (analyze : String → List Token) (schema : Schema)

def validateDocument (d : IngestDocument) : Staging Unit :=
  match (ColumnStoreBuilder.new schema).pushRow ⟨d.timestamp,columnInputs d.columns⟩ with
  | .error error => .error (.columns error)
  | .ok _ => .ok ()

def stagedSegment (current : ActiveSegment) (progress : RevisionProgress) : Staging ActiveSegment :=
  match progress.working with
  | some working => .ok working
  | none => do
    let (copy,_) ← Except.mapError .ingest (current.tombstone [])
    return copy

def stagedGeneration (generation : U64) (records : List (ℕ × U16 × Bytes)) : Staging U64 :=
  if records = [] then .ok generation else Except.mapError .store (addGeneration generation 1)

def predicateDeletes (segments : List (SealedSegment schema)) (segment : ActiveSegment)
    (changed deletes : List DocId) (predicate : Predicate) : Staging (List DocId) := do
  Except.mapError .plan (validatePredicate schema predicate)
  let (provisional,_) ← Except.mapError .ingest (segment.tombstone deletes)
  let sealedIds ← liveDocumentIdsMatching schema .empty segments predicate
  let activeIds ← liveDocumentIdsMatching schema provisional [] predicate
  return sealedIds.filter (fun id => id ∉ changed ∧ id ∉ deletes)++activeIds

def stageDeletes (segments : List (SealedSegment schema)) (segment : ActiveSegment)
    (changed : List DocId) (mutation : NamespaceMutation) : Staging (List DocId) := do
  match mutation.deleteWhere with
  | none => return sortIds mutation.deletes
  | some predicate =>
    let more ← predicateDeletes schema segments segment changed mutation.deletes predicate
    return sortIds (mutation.deletes++more)

def recordDeletes (segment : ActiveSegment) (generation : U64) (deletes : List DocId) :
    Staging (ActiveState × List ((U16 × Bytes) × List ℕ)) :=
  if deletes = [] then .ok (⟨generation,segment⟩,[])
  else do
    let (next,rows) ← Except.mapError .ingest (segment.tombstone deletes)
    let payload ← Except.mapError (fun error => .ingest (.payload error)) (encodeDelete deletes)
    let generation ← Except.mapError .store (addGeneration generation 1)
    return (⟨generation,next⟩,[((deleteV1,payload),rows)])

def stageNamespace (mutation : NamespaceMutation) (current : ActiveState)
    (segments : List (SealedSegment schema)) (absorbedThrough : U64) : Staging (Stage schema) := do
  mutation.upserts.forM (validateDocument schema)
  let found:=sealedDocumentMatches segments (mutation.upserts.map fun d => d.version.docId)
  let sealedView:=sealedViewOf segments absorbedThrough found
  Except.mapError .ingest (checkRevisionConditions current.segment sealedView
    (mutation.upserts.zipIdx.map fun (d,index) => (index,d.version.docId,d.expectedRevision)))
  let progress ← Except.mapError .ingest
    (applyRevisions quantizeBit4 analyze current.segment sealedView mutation.upserts .start)
  let segment ← stagedSegment current.segment progress
  let generation ← stagedGeneration current.generation progress.records
  let deletes ← stageDeletes schema segments segment progress.sealedTombstones mutation
  let (active,deleted) ← recordDeletes segment generation deletes
  let changed:=progress.sealedTombstones++deletes
  let replaced ← prepareSealedTombstones segments (sealedDocumentMatches segments changed) changed
  return ⟨active,replaced,
    progress.records.map (fun record => record.2)++deleted.map Prod.fst,
    progress.records.map (fun record => [record.1])++deleted.map Prod.snd⟩

end Engine

structure SealedRows where
  versions : List DocumentVersion
  rows : List MetaRow
  alive : DocBitmap

def SealedSegment.content {schema : Schema} (segment : SealedSegment schema) : SealedRows :=
  ⟨segment.versions,segment.rows,segment.alive.alive⟩

structure Collection where
  active : ActiveSegment
  segments : List SealedRows

def Collection.start {schema : Schema} (active : ActiveSegment)
    (segments : List (SealedSegment schema)) : Collection :=
  ⟨active,segments.map SealedSegment.content⟩

def SealedRows.kill (dead : DocId → Bool) (s : SealedRows) : SealedRows :=
  { s with alive := s.alive.filter fun row =>
      !(s.versions[row.toNat]?).any fun version => dead version.docId }

def ActiveSegment.kill (dead : DocId → Bool) (s : ActiveSegment) : ActiveSegment :=
  { s with tombstones := s.tombstones++
      (s.docIds.zipIdx.filter fun entry => dead entry.1).map fun entry => BitVec.ofNat 32 entry.2 }

def Collection.delete (dead : DocId → Bool) (c : Collection) : Collection :=
  ⟨c.active.kill dead,c.segments.map (SealedRows.kill dead)⟩

def Collection.copies (c : Collection) (docId : DocId) : List Revision :=
  ((c.active.existing docId).map fun found => found.2.1.revision).toList++
    c.segments.flatMap fun s =>
      (s.versions.filter fun version => version.docId = docId).map DocumentVersion.revision

def ActiveSegment.metaRow (s : ActiveSegment) (row : ℕ) : Option MetaRow := do
  let timestamp ← s.timestamps[row]?
  (s.scanRow row timestamp).toOption

def ActiveSegment.matches (s : ActiveSegment) (predicate : Predicate) (docId : DocId) : Bool :=
  (List.range s.docIds.length).any fun row =>
    s.docIds[row]? = some docId && !s.isTombstoned row &&
      (s.metaRow row).any fun r => naiveMatches r.value predicate

def SealedRows.matches (s : SealedRows) (predicate : Predicate) (docId : DocId) : Bool :=
  (List.range s.rows.length).any fun row =>
    BitVec.ofNat 32 row ∈ s.alive && ((s.versions[row]?).any fun version => version.docId = docId) &&
      (s.rows[row]?).any fun r => naiveMatches r.value predicate

def Collection.matches (c : Collection) (predicate : Predicate) (docId : DocId) : Bool :=
  c.active.matches predicate docId || c.segments.any fun s => s.matches predicate docId

section Engine
variable (quantizeBit4 : List U32 → Bytes → Except QuantError (Bytes × Bit4Factors))
  (analyze : String → List Token)

/-- No row may be newer than the document; one of the same revision is left as it is. -/
def Collection.upsert (c : Collection) (d : IngestDocument) : Option Collection :=
  if (c.copies d.version.docId).any fun revision => d.version.revision < revision then none
  else if d.version.revision ∈ c.copies d.version.docId then some c
  else match writeRow quantizeBit4 analyze c.active (c.active.rowIndex.lookup d.version.docId) d with
    | .error _ => none
    | .ok (active,_) => some ⟨active,c.segments.map (SealedRows.kill fun id => id = d.version.docId)⟩

def Collection.prepare (mutation : NamespaceMutation) (c : Collection) : Option Collection := do
  let c ← mutation.upserts.foldlM (Collection.upsert quantizeBit4 analyze) c
  return c.delete fun id => id ∈ mutation.deletes

end Engine

def Collection.deleteWhere (predicate? : Option Predicate) (c : Collection) : Collection :=
  match predicate? with
  | none => c
  | some predicate => c.delete (c.matches predicate)

structure SameRows (a b : ActiveSegment) : Prop where
  rows : a = { b with tombstones := a.tombstones }
  dead : ∀ row,a.isTombstoned row = b.isTombstoned row

theorem SameRows.refl (a : ActiveSegment) : SameRows a a := ⟨rfl,fun _ => rfl⟩

theorem SameRows.trans {a b c : ActiveSegment} (h : SameRows a b) (h' : SameRows b c) :
    SameRows a c := by
  refine ⟨?_,fun row => (h.dead row).trans (h'.dead row)⟩
  have hrows:=h.rows
  rw [h'.rows] at hrows
  exact hrows

theorem SameRows.symm {a b : ActiveSegment} (h : SameRows a b) : SameRows b a := by
  refine ⟨?_,fun row => (h.dead row).symm⟩
  have hrows:=h.rows
  cases a
  cases b
  simp only [ActiveSegment.mk.injEq] at hrows ⊢
  simp [hrows]

theorem isTombstoned_iff {s : ActiveSegment} {row : ℕ} :
    s.isTombstoned row = true ↔ row < 2^32 ∧ BitVec.ofNat 32 row ∈ s.tombstones := by
  rw [ActiveSegment.isTombstoned,Bool.and_eq_true,decide_eq_true_eq,contains_iff_mem]

theorem SameRows.of_mem {a b : ActiveSegment} (rows : a = { b with tombstones := a.tombstones })
    (h : ∀ row : ℕ,row < 2^32 →
      (BitVec.ofNat 32 row ∈ a.tombstones ↔ BitVec.ofNat 32 row ∈ b.tombstones)) : SameRows a b where
  rows := rows
  dead := by
    intro row
    rw [Bool.eq_iff_iff,isTombstoned_iff,isTombstoned_iff]
    constructor
    · intro ⟨hlt,hmem⟩
      exact ⟨hlt,(h row hlt).mp hmem⟩
    · intro ⟨hlt,hmem⟩
      exact ⟨hlt,(h row hlt).mpr hmem⟩

section Rows
variable {s next : ActiveSegment} {dead : DocId → Bool}

theorem ofNat_inj {a b : ℕ} (ha : a < 2^32) (hb : b < 2^32)
    (h : BitVec.ofNat 32 a = BitVec.ofNat 32 b) : a = b := by
  have hnat:=congrArg BitVec.toNat h
  rw [BitVec.toNat_ofNat,BitVec.toNat_ofNat,Nat.mod_eq_of_lt ha,Nat.mod_eq_of_lt hb] at hnat
  exact hnat

theorem mem_kill (hrows : s.docIds.length ≤ 2^32) {row : ℕ} (hrow : row < 2^32) :
    BitVec.ofNat 32 row ∈ (s.kill dead).tombstones ↔ BitVec.ofNat 32 row ∈ s.tombstones ∨
      ∃ docId,s.docIds[row]? = some docId ∧ dead docId = true := by
  rw [ActiveSegment.kill,mem_append]
  apply or_congr_right
  rw [mem_map]
  constructor
  · intro ⟨entry,hentry,heq⟩
    obtain ⟨hmem,hdead⟩ := mem_filter.mp hentry
    have hget:=mem_zipIdx_iff_getElem?.mp hmem
    have hlt:=(List.getElem?_eq_some_iff.mp hget).1
    obtain rfl := ofNat_inj (by omega) hrow heq
    exact ⟨entry.1,hget,hdead⟩
  · intro ⟨docId,hget,hdead⟩
    exact ⟨(docId,row),mem_filter.mpr ⟨mem_zipIdx_iff_getElem?.mpr hget,hdead⟩,rfl⟩

theorem sameRows_kill (hrows : s.docIds.length ≤ 2^32) {t : ActiveSegment} (ht : t = { s with tombstones := t.tombstones })
    (h : ∀ row : ℕ,row < 2^32 → (BitVec.ofNat 32 row ∈ t.tombstones ↔
      BitVec.ofNat 32 row ∈ s.tombstones ∨ ∃ docId,s.docIds[row]? = some docId ∧
        dead docId = true)) : SameRows t (s.kill dead) := by
  refine SameRows.of_mem (b := s.kill dead) ht ?_
  intro row hrow
  rw [h row hrow,mem_kill hrows hrow]

theorem mem_pushTombstones {rows : List ℕ} {tombstones after : List U32}
    (h : ActiveSegment.pushTombstones rows tombstones = .ok after) {dead : U32} :
    dead ∈ after ↔ dead ∈ tombstones ∨ ∃ row ∈ rows,BitVec.ofNat 32 row = dead := by
  induction rows generalizing tombstones with
  | nil =>
    obtain rfl := Except.ok.inj h
    simp
  | cons row rows ih =>
    rw [ActiveSegment.pushTombstones] at h
    split_ifs at h with hoverflow hmem
    · rw [ih h]
      constructor
      · intro hdead
        rcases hdead with hdead | ⟨other,hother,heq⟩
        · exact .inl hdead
        · exact .inr ⟨other,mem_cons_of_mem _ hother,heq⟩
      · intro hdead
        rcases hdead with hdead | ⟨other,hother,rfl⟩
        · exact .inl hdead
        · rcases mem_cons.mp hother with rfl | hother
          · exact .inl (contains_iff_mem.mp hmem)
          · exact .inr ⟨other,hother,rfl⟩
    · rw [ih h,mem_append,mem_singleton,or_assoc]
      apply or_congr_right
      constructor
      · intro hdead
        rcases hdead with rfl | ⟨other,hother,heq⟩
        · exact ⟨row,mem_cons_self,rfl⟩
        · exact ⟨other,mem_cons_of_mem _ hother,heq⟩
      · intro hdead
        obtain ⟨other,hother,heq⟩ := hdead
        rcases mem_cons.mp hother with rfl | hother
        · exact .inl heq.symm
        · exact .inr ⟨other,hother,heq⟩

theorem mem_requestedRows {docIds seen : List DocId} {row : ℕ} :
    row ∈ s.requestedRows seen docIds ↔
      ∃ docId ∈ docIds,docId ∉ seen ∧ s.rowIndex.lookup docId = some row := by
  induction docIds generalizing seen with
  | nil => simp [ActiveSegment.requestedRows]
  | cons docId docIds ih =>
    rw [ActiveSegment.requestedRows]
    split_ifs with hseen
    · rw [ih,exists_mem_cons_iff]
      constructor
      · exact .inr
      · intro hrow
        exact hrow.resolve_left fun h => h.1 hseen
    · rw [mem_append,ih,Option.mem_toList,exists_mem_cons_iff]
      constructor
      · intro hrow
        rcases hrow with hrow | ⟨other,hother,hnot,hrow⟩
        · exact .inl ⟨hseen,hrow⟩
        · exact .inr ⟨other,hother,fun h => hnot (mem_cons_of_mem _ h),hrow⟩
      · intro hrow
        rcases hrow with ⟨-,hrow⟩ | ⟨other,hother,hnot,hrow⟩
        · exact .inl hrow
        · by_cases heq : other = docId
          · rw [heq] at hrow
            exact .inl hrow
          · refine .inr ⟨other,hother,?_,hrow⟩
            intro hmem
            rcases mem_cons.mp hmem with h | h
            · exact heq h
            · exact hnot h

end Rows

section Sound
variable {analyze : String → List Token} {s next : ActiveSegment} {texts : List (Option String)}

theorem ActiveSegment.Sound.withTombstones (h : s.Sound analyze texts) (tombstones : List U32) :
    ActiveSegment.Sound analyze { s with tombstones } texts :=
  ⟨h.nodup,h.rowIndex,h.revisions,h.sequences,h.rows_le,h.textCount,h.stored,h.lexical⟩

theorem tombstone_kills (h : s.Sound analyze texts) {docIds : List DocId} {rows : List ℕ}
    (htombstone : s.tombstone docIds = .ok (next,rows)) :
    SameRows next (s.kill fun id => id ∈ docIds) ∧ next.Sound analyze texts := by
  obtain ⟨tombstones,hpush,htombstone⟩ := bind_eq_ok htombstone
  obtain ⟨rfl,rfl⟩ := Prod.mk.inj (Except.ok.inj htombstone)
  rw [← h.rowIndex]
  refine ⟨sameRows_kill h.rows_le rfl ?_,h.withTombstones tombstones⟩
  intro row hrow
  dsimp only
  rw [mem_pushTombstones hpush]
  apply or_congr_right
  constructor
  · intro ⟨other,hother,heq⟩
    obtain ⟨docId,hdocId,-,hlookup⟩ := mem_requestedRows.mp hother
    have hget:=h.lookup.mp hlookup
    have hlt:=(List.getElem?_eq_some_iff.mp hget).1
    have hbound:=h.rows_le
    obtain rfl := ofNat_inj (by omega) hrow heq
    exact ⟨docId,hget,decide_eq_true hdocId⟩
  · intro ⟨docId,hget,hdead⟩
    exact ⟨row,mem_requestedRows.mpr ⟨docId,of_decide_eq_true hdead,not_mem_nil,
      h.lookup.mpr hget⟩,rfl⟩

theorem tombstone_nil (h : s.Sound analyze texts) : s.tombstone [] = .ok (s,[]) := by
  have hsame : { s with rowIndex := .copy s.docIds,tombstones := s.tombstones } = s := by
    rw [← h.rowIndex]
  exact congrArg (fun next => Except.ok (next,[])) hsame

end Sound

section Sealed
variable {schema : Schema} {segments : List (SealedSegment schema)} {ids : List DocId}

theorem mem_sealedDocumentMatches {found : SealedDocumentMatch} :
    found ∈ sealedDocumentMatches segments ids ↔ ∃ segment,
      segments[found.segmentIndex]? = some segment ∧
        segment.versions[found.row]? = some found.version ∧ found.version.docId ∈ ids := by
  rw [sealedDocumentMatches,mem_flatMap]
  constructor
  · intro ⟨⟨segment,index⟩,hsegment,hfound⟩
    obtain ⟨⟨version,row⟩,hentry,rfl⟩ := mem_map.mp hfound
    obtain ⟨hmem,hid⟩ := mem_filter.mp hentry
    exact ⟨segment,mem_zipIdx_iff_getElem?.mp hsegment,
      mem_zipIdx_iff_getElem?.mp hmem,of_decide_eq_true hid⟩
  · intro ⟨segment,hsegment,hversion,hid⟩
    refine ⟨(segment,found.segmentIndex),mem_zipIdx_iff_getElem?.mpr hsegment,?_⟩
    refine mem_map.mpr ⟨(found.version,found.row),?_,rfl⟩
    exact mem_filter.mpr ⟨mem_zipIdx_iff_getElem?.mpr hversion,decide_eq_true hid⟩

theorem mem_kill_alive {content : SealedRows} {dead : DocId → Bool} {row : U32} :
    row ∈ (content.kill dead).alive ↔ row ∈ content.alive ∧
      ∀ version,content.versions[row.toNat]? = some version → dead version.docId = false := by
  rw [SealedRows.kill,Finset.mem_filter]
  apply and_congr_right
  intro _
  cases content.versions[row.toNat]? with
  | none => simp
  | some version => simp

theorem kill_eq {t content : SealedRows} {dead : DocId → Bool}
    (hversions : t.versions = content.versions) (hrows : t.rows = content.rows)
    (h : ∀ row : U32,row ∈ t.alive ↔ row ∈ (content.kill dead).alive) : t = content.kill dead := by
  obtain ⟨versions,rows,alive⟩ := t
  have halive : alive = (content.kill dead).alive := Finset.ext h
  dsimp only at hversions hrows
  rw [hversions,hrows,halive]
  rfl

theorem kill_kill (content : SealedRows) (dead dead' : DocId → Bool) :
    (content.kill dead).kill dead' = content.kill fun id => dead id || dead' id := by
  refine kill_eq rfl rfl ?_
  intro row
  rw [mem_kill_alive,mem_kill_alive,mem_kill_alive,and_assoc]
  apply and_congr_right
  intro _
  constructor
  · intro ⟨h,h'⟩ version hversion
    rw [Bool.or_eq_false_iff]
    exact ⟨h version hversion,h' version hversion⟩
  · intro h
    constructor
    · intro version hversion
      exact (Bool.or_eq_false_iff.mp (h version hversion)).1
    · intro version hversion
      exact (Bool.or_eq_false_iff.mp (h version hversion)).2

theorem kill_none (content : SealedRows) : content.kill (fun _ => false) = content := by
  symm
  refine kill_eq rfl rfl ?_
  intro row
  rw [mem_kill_alive]
  exact ⟨fun h => ⟨h,fun _ _ => rfl⟩,fun h => h.1⟩

theorem prepareOneSegmentReplacement_kills {segment : SealedSegment schema} {rows : List ℕ}
    {dead : DocId → Bool} {result : SealedSegment schema × Bool}
    (hrows : ∀ row,row ∈ rows ↔ ∃ version,segment.versions[row]? = some version ∧
      dead version.docId = true)
    (h : prepareOneSegmentReplacement segment rows = .ok result) :
    result.1.content = segment.content.kill dead := by
  have hlive : ∀ row : U32,row ∈ segment.alive.alive →
      (row.toNat ∈ rows.filter (fun row => row < 2^32 ∧
        BitVec.ofNat 32 row ∈ segment.alive.alive) ↔
      ∃ version,segment.versions[row.toNat]? = some version ∧ dead version.docId = true) := by
    intro row hrow
    rw [mem_filter,hrows]
    have hword : row.toNat < 2^32 ∧ BitVec.ofNat 32 row.toNat ∈ segment.alive.alive := by
      rw [BitVec.ofNat_toNat,BitVec.setWidth_eq]
      exact ⟨row.isLt,hrow⟩
    exact and_iff_left (decide_eq_true hword)
  unfold prepareOneSegmentReplacement at h
  dsimp only at h
  split_ifs at h with hnone
  · obtain rfl := Except.ok.inj h
    refine kill_eq rfl rfl ?_
    intro row
    rw [mem_kill_alive]
    refine ⟨fun hrow => ⟨hrow,?_⟩,fun hrow => hrow.1⟩
    intro version hversion
    by_contra hdead
    have hmem:=(hlive row hrow).mpr ⟨version,hversion,Bool.eq_true_of_not_eq_false hdead⟩
    rw [hnone] at hmem
    exact not_mem_nil hmem
  · obtain ⟨replacement,hrewrite,rfl⟩ := bind_pure_eq_ok h
    unfold SealedSegment.rewrite at hrewrite
    dsimp only at hrewrite
    split at hrewrite
    · cases hrewrite
    · obtain rfl := Except.ok.inj hrewrite
      refine kill_eq rfl rfl ?_
      intro row
      rw [mem_kill_alive]
      dsimp only [SealedSegment.content,AliveSet.retain]
      rw [Finset.mem_inter,Finset.mem_filter]
      constructor
      · intro ⟨hrow,_,hnot⟩
        refine ⟨hrow,?_⟩
        intro version hversion
        by_contra hdead
        exact hnot ((hlive row hrow).mpr ⟨version,hversion,Bool.eq_true_of_not_eq_false hdead⟩)
      · intro ⟨hrow,hkeeps⟩
        refine ⟨hrow,hrow,?_⟩
        intro hmem
        obtain ⟨version,hversion,hdead⟩ := (hlive row hrow).mp hmem
        rw [hkeeps version hversion] at hdead
        cases hdead

theorem prepareSealedTombstones_kills {replaced : List (SealedSegment schema × Bool)}
    (h : prepareSealedTombstones segments (sealedDocumentMatches segments ids) ids = .ok replaced) :
    replaced.map (fun result => result.1.content) =
      segments.map fun segment => segment.content.kill fun id => id ∈ ids := by
  have heach : List.Forall₂ (fun (entry : SealedSegment schema × ℕ) result =>
      result.1.content = entry.1.content.kill fun id => id ∈ ids) segments.zipIdx replaced := by
    have hall:=(forall₂_and_left segments.zipIdx replaced).mpr
      ⟨fun entry hentry => hentry,mapM_forall₂ h⟩
    refine hall.imp ?_
    intro ⟨segment,index⟩ result ⟨hmem,hresult⟩
    have hsegment : segments[index]? = some segment := mem_zipIdx_iff_getElem?.mp hmem
    refine prepareOneSegmentReplacement_kills ?_ hresult
    intro row
    rw [List.mem_dedup,mem_map]
    constructor
    · intro ⟨found,hfound,hrow⟩
      obtain ⟨hmatch,hkeep⟩ := mem_filter.mp hfound
      obtain ⟨hid,hindex⟩ := of_decide_eq_true hkeep
      obtain ⟨other,hother,hversion,-⟩ := mem_sealedDocumentMatches.mp hmatch
      rw [hindex,hsegment] at hother
      obtain rfl := Option.some.inj hother
      rw [hrow] at hversion
      exact ⟨found.version,hversion,decide_eq_true hid⟩
    · intro ⟨version,hversion,hdead⟩
      have hid:=of_decide_eq_true hdead
      refine ⟨⟨index,row,version⟩,mem_filter.mpr ⟨?_,decide_eq_true ⟨hid,rfl⟩⟩,rfl⟩
      exact mem_sealedDocumentMatches.mpr ⟨segment,hsegment,hversion,hid⟩
  have hmap : List.Forall₂ (fun a b => a = b)
      (replaced.map fun result => result.1.content)
      (segments.zipIdx.map fun entry => entry.1.content.kill fun id => id ∈ ids) := by
    rw [forall₂_map_left_iff,forall₂_map_right_iff]
    exact heach.flip
  rw [forall₂_eq_eq_eq] at hmap
  rw [hmap]
  have hfst : segments.zipIdx.map Prod.fst = segments := zipIdx_map_fst 0 segments
  calc segments.zipIdx.map (fun entry => entry.1.content.kill fun id => id ∈ ids)
      = (segments.zipIdx.map Prod.fst).map fun segment =>
          segment.content.kill fun id => id ∈ ids := by rw [map_map]; rfl
    _ = segments.map fun segment => segment.content.kill fun id => id ∈ ids := by rw [hfst]

end Sealed

end Zeppelin.Ingest
