import Zeppelin.Ingest.ReplayTrails
import Zeppelin.Ingest.StoreInvariant
import Zeppelin.Wal.Staging

namespace Zeppelin.Ingest
open Wal Fts Machine List

theorem commitMany_ok {nextSeq stop : LogSeq} {records : List (U16 × Bytes)}
    (h : commitMany nextSeq records = .ok stop) :
    (∀ record ∈ records,record.2.length < 2^32) ∧ nextSeq.toNat+records.length < 2^64 := by
  unfold commitMany at h
  cases hlengths : encodedLengths records with
  | error e => rw [hlengths] at h; cases h
  | ok lengths =>
    rw [hlengths] at h
    simp only at h
    obtain ⟨hcount,h⟩ := of_ite_error h
    refine ⟨(encodedLengths_eq_ok hlengths).2,?_⟩
    cases hadd : checkedAdd nextSeq (BitVec.ofNat 64 records.length) with
    | none => rw [hadd] at h; cases h
    | some next =>
      have hnat:=checkedAdd_eq_some hadd
      have hlt:=next.isLt
      rw [BitVec.toNat_ofNat,Nat.mod_eq_of_lt (by omega)] at hnat
      omega

variable {records : List (ℕ × U16 × Bytes)} {written : List IngestDocument}
  {framed : List (ℕ × U16 × Bytes)}

theorem frameMembers_rows {count index : U32} (h : frameMembers count index records = .ok framed) :
    framed.map Prod.fst = records.map Prod.fst ∧
      ∀ record ∈ framed,record.2.1 = upsertV2BatchMember := by
  induction records generalizing index framed with
  | nil =>
    obtain rfl := Except.ok.inj h
    exact ⟨rfl,by simp⟩
  | cons record records ih =>
    obtain ⟨row,op,payload⟩ := record
    simp only [frameMembers] at h
    obtain ⟨-,h⟩ := of_ite_error h
    obtain ⟨member,-,h⟩ := bind_eq_ok h
    obtain ⟨members,hmembers,rfl⟩ := bind_pure_eq_ok h
    obtain ⟨hrows,hops⟩ := ih hmembers
    refine ⟨by rw [map_cons,hrows,map_cons],?_⟩
    intro record hrecord
    rcases mem_cons.mp hrecord with rfl | hrecord
    · rfl
    · exact hops record hrecord

theorem frameBatch_rows
    (h : frameBatch records = .ok framed) (hops : ∀ record ∈ records,record.2.1 = upsertV2) :
    framed.map Prod.fst = records.map Prod.fst ∧ records.length < 2^32 ∧
      ∀ record ∈ framed,record.2.1 = upsertV2 ∨ record.2.1 = upsertV2BatchMember := by
  unfold frameBatch at h
  split at h
  · obtain rfl := Except.ok.inj h
    exact ⟨rfl,by omega,fun record hrecord => .inl (hops record hrecord)⟩
  · obtain ⟨count,hcount,h⟩ := bind_eq_ok h
    obtain ⟨hrows,hmembers⟩ := frameMembers_rows h
    exact ⟨hrows,(lengthField_ok hcount).1,fun record hrecord => .inr (hmembers record hrecord)⟩

def writtenBatch (records : List (ℕ × U16 × Bytes)) (written : List IngestDocument) :
    List (ℕ × Member) :=
  (records.zip written).map fun entry =>
    (entry.1.1,⟨entry.1.2.1,entry.1.2.2,.upsert entry.2.persisted⟩)

theorem writtenBatch_records (h : records.length = written.length) :
    (writtenBatch records written).map (fun r => (r.1,r.2.op,r.2.payload)) = records := by
  rw [writtenBatch,map_map]
  exact map_fst_zip (Nat.le_of_eq h)

theorem writtenBatch_mutations (h : records.length = written.length) :
    (writtenBatch records written).map (fun r => r.2.mutation) =
      written.map fun d => .upsert d.persisted := by
  have hmap : (records.zip written).map (fun entry => MutationPayload.upsert entry.2.persisted) =
      ((records.zip written).map Prod.snd).map fun d => .upsert d.persisted := by
    rw [map_map]
    rfl
  rw [writtenBatch,map_map]
  exact hmap.trans (by rw [map_snd_zip (Nat.le_of_eq h.symm)])

theorem writtenBatch_decodes
    (h : List.Forall₂ Encodes records written) : ∀ m ∈ writtenBatch records written,
      m.2.op = upsertV2 ∧ ∃ document,m.2.mutation = .upsert document ∧
        decodeUpsertV2 m.2.payload = .ok document := by
  intro m hm
  obtain ⟨⟨record,d⟩,hmem,rfl⟩ := mem_map.mp hm
  have hencodes : Encodes record d := (forall₂_iff_zip.mp h).2 hmem
  exact ⟨hencodes.1,d.persisted,rfl,decodeUpsertV2_encode hencodes.2⟩

theorem encodes_ops
    (h : List.Forall₂ Encodes records written) : ∀ record ∈ records,record.2.1 = upsertV2 := by
  intro record hrecord
  rw [← writtenBatch_records h.length_eq] at hrecord
  obtain ⟨m,hm,rfl⟩ := mem_map.mp hrecord
  exact (writtenBatch_decodes h m hm).1

theorem replaySteps_upserts (op : U16) (seq lastSeq : LogSeq) (written : List IngestDocument) :
    replaySteps ⟨lastSeq,membersFrom seq (written.map fun d => (op,.upsert d.persisted))⟩ =
      upsertSteps op seq written := by
  induction written generalizing seq with
  | nil => rfl
  | cons d written ih =>
    have hrest:=ih (seq+1)
    simp only [replaySteps] at hrest
    simp only [replaySteps,map_cons,membersFrom,filterMap_cons,upsertSteps,hrest]

/-- A document that a record carries passes the checks of the working copy. -/
def Storable (d : IngestDocument) : Prop :=
  d.vector ≠ [] ∧ ∃ bytes,encodeColumnValues d.columns = .ok bytes

theorem storable_of_encode {d : IngestDocument} {payload : Bytes}
    (h : encodeUpsertV2 d = .ok payload) : Storable d.persisted := by
  obtain ⟨⟨⟩,hvector,h⟩ := bind_eq_ok h
  obtain ⟨dims,-,h⟩ := bind_eq_ok h
  obtain ⟨text,-,h⟩ := bind_eq_ok h
  obtain ⟨timestamp,-,h⟩ := bind_eq_ok h
  obtain ⟨metadata,-,h⟩ := bind_eq_ok h
  obtain ⟨columns,hcolumns,-⟩ := bind_eq_ok h
  refine ⟨(validateVector_ok hvector).1,?_⟩
  have hpersisted : d.persisted.columns = d.columns?.getD [] := rfl
  rw [hpersisted]
  cases hvalue : d.columns? with
  | none => exact ⟨_,rfl⟩
  | some value =>
    rw [hvalue] at hcolumns
    exact ⟨columns,hcolumns⟩

section Engine
variable (quantizeBit4 : List U32 → Bytes → Except QuantError (Bytes × Bit4Factors))
  (analyze : String → List Token)
  (pushRow : U64 → List (ColumnId × PredicateValue) → Except String Unit) (xxh3 : Bytes → U64)
  (validateEnvelope : Bytes → Except GraphWalError Unit)

def liveBatches (first : LogSeq) (log : List Appended) : List CommittedBatch :=
  expectedBatches (decisionIn []) first log

def liveSteps (first : LogSeq) (log : List Appended) : List (LogSeq × U16 × ReplayStep) :=
  (liveBatches first log).flatMap replaySteps

theorem liveBatches_local (seq : LogSeq) {a : Appended} (hwhole : a.present = a.frames.length)
    (hdecided : a.batch.Decided (decisionIn [])) :
    liveBatches seq [a] =
      [⟨seq+BitVec.ofNat 64 (a.present-1),membersFrom seq a.batch.members⟩] := by
  rw [liveBatches,expectedBatches,if_pos ⟨hwhole,hdecided⟩]
  rfl

structure LiveInv (generation : U64) (s : LiveStore) (log : List Appended) (r : ReplayState)
    (texts : List (Option String)) : Prop where
  records : logRecords log = s.log
  valid : ValidLog validateEnvelope (decisionIn []) s.first log
  fits : FitsRecord log
  room : s.first.toNat+s.log.length < 2^64
  ops : ∀ f ∈ s.log,f.1 ≠ graphCommitV1 ∧ f.1 ≠ mixedBatchMemberV1
  generation : s.active.generation.toNat = generation.toNat+(liveBatches s.first log).length
  replayable : ∀ b ∈ liveBatches s.first log,
    Replayable (validateDocumentColumns pushRow) false b
  documents : ∀ d ∈ replayDocuments (liveSteps s.first log),Storable d
  replays : (liveSteps s.first log).foldlM (replayStep quantizeBit4) ⟨.empty,[],[]⟩ = .ok r
  trails : Trails r s.active.segment []
  sound : s.active.segment.Sound analyze texts

theorem LiveInv.start (generation : U64) (first : LogSeq) :
    LiveInv quantizeBit4 analyze pushRow validateEnvelope generation (.start generation first) []
      ⟨.empty,[],[]⟩ [] where
  records := rfl
  valid := trivial
  fits := by simp [FitsRecord,logRecords]
  room := first.isLt
  ops := by simp [LiveStore.start]
  generation := rfl
  replayable := by simp [liveBatches,expectedBatches]
  documents := by simp [replayDocuments,liveSteps,liveBatches,expectedBatches]
  replays := rfl
  trails := .start
  sound := .empty analyze

variable {quantizeBit4 analyze pushRow validateEnvelope} {generation : U64} {s : LiveStore}
  {log : List Appended} {r : ReplayState} {texts : List (Option String)}

theorem LiveInv.nextSeq_toNat
    (h : LiveInv quantizeBit4 analyze pushRow validateEnvelope generation s log r texts) :
    s.nextSeq.toNat = s.first.toNat+s.log.length :=
  add_ofNat_toNat h.room

variable {segment : ActiveSegment} {documents : List IngestDocument} {next : LiveStore}
  {r' : ReplayState} {texts' : List (Option String)} {sealedView : SealedView} {ack : IngestAck}
  {steps : List (LogSeq × U16 × ReplayStep)}

theorem LiveInv.append
    (h : LiveInv quantizeBit4 analyze pushRow validateEnvelope generation s log r texts)
    {a : Appended} {b : CommittedBatch} {next : U64}
    (hvalid : a.Valid validateEnvelope (decisionIn []) s.nextSeq)
    (hbatch : liveBatches s.nextSeq [a] = [b]) (hcommit : (∀ f ∈ a.records,f.2.length < 2^32) ∧
      s.nextSeq.toNat+a.records.length < 2^64)
    (hops : ∀ f ∈ a.records,f.1 ≠ graphCommitV1 ∧ f.1 ≠ mixedBatchMemberV1)
    (hnext : addGeneration s.active.generation 1 = .ok next)
    (hreplayable : Replayable (validateDocumentColumns pushRow) false b)
    (hdocuments : ∀ d ∈ replayDocuments (replaySteps b),Storable d)
    (hreplays : (replaySteps b).foldlM (replayStep quantizeBit4) r = .ok r')
    (htrails : Trails r' segment []) (hsound : segment.Sound analyze texts') :
    LiveInv quantizeBit4 analyze pushRow validateEnvelope generation
      ⟨⟨next,segment⟩,s.first,s.log++a.records⟩ (log++[a]) r' texts' := by
  have hseq:=h.nextSeq_toNat
  have hbatches : liveBatches s.first (log++[a]) = liveBatches s.first log++[b] := by
    rw [← hbatch,liveBatches,expectedBatches_append,← h.valid.records_length,h.records]
    rfl
  have hsteps : liveSteps s.first (log++[a]) = liveSteps s.first log++replaySteps b := by
    rw [liveSteps,hbatches,flatMap_append,flatMap_singleton,liveSteps]
  have hrecords : logRecords (log++[a]) = s.log++a.records := by
    rw [logRecords_append,h.records,logRecords,flatMap_singleton]
  refine ⟨hrecords,h.valid.concat ?_,?_,?_,?_,?_,?_,?_,?_,htrails,hsound⟩
  · rw [h.records]
    exact hvalid
  · intro f hf
    rw [hrecords] at hf
    rcases mem_append.mp hf with hf | hf
    · exact h.fits f (h.records ▸ hf)
    · exact hcommit.1 f hf
  · simp only [length_append]
    omega
  · intro f hf
    exact (mem_append.mp hf).elim (h.ops f) (hops f)
  · have hone:=checkedAdd_eq_some (a := s.active.generation) (b := 1) (c := next) (by
      unfold addGeneration at hnext
      cases hadd : checkedAdd s.active.generation 1 with
      | none => rw [hadd] at hnext; cases hnext
      | some value => rw [hadd] at hnext; rw [Except.ok.inj hnext])
    have hgeneration:=h.generation
    have hunit : (1 : U64).toNat = 1 := rfl
    rw [hbatches,length_append,length_singleton]
    simp only
    omega
  · intro batch hmem
    rw [hbatches] at hmem
    rcases mem_append.mp hmem with hmem | hmem
    · exact h.replayable batch hmem
    · rw [mem_singleton.mp hmem]
      exact hreplayable
  · intro d hd
    rw [hsteps,replayDocuments,filterMap_append] at hd
    exact (mem_append.mp hd).elim (h.documents d) (hdocuments d)
  · rw [hsteps]
    exact (foldlM_append_ok h.replays).trans hreplays

theorem validateDocuments_ok (h : validateDocuments pushRow documents = .ok ()) :
    ∀ d ∈ documents,validateDocumentColumns pushRow d = .ok () := by
  induction documents with
  | nil => simp
  | cons d documents ih =>
    obtain ⟨⟨⟩,hone,hrest⟩ := bind_eq_ok h
    intro e he
    rcases mem_cons.mp he with rfl | he
    · exact mapError_eq_ok hone
    · exact ih hrest e he

theorem membersFrom_mutation {seq : LogSeq} {ms : List (U16 × MutationPayload)}
    {m : LogSeq × U16 × MutationPayload} (h : m ∈ membersFrom seq ms) : (m.2.1,m.2.2) ∈ ms := by
  induction ms generalizing seq with
  | nil => cases h
  | cons a ms ih =>
    rcases mem_cons.mp h with rfl | h
    · exact mem_cons_self ..
    · exact mem_cons_of_mem _ (ih h)

theorem upsertSteps_documents (op : U16) (seq : LogSeq) (written : List IngestDocument) :
    replayDocuments (upsertSteps op seq written) = written.map IngestDocument.persisted := by
  induction written generalizing seq with
  | nil => rfl
  | cons d written ih =>
    have hrest:=ih (seq+1)
    simp only [replayDocuments] at hrest
    simp only [replayDocuments,upsertSteps,filterMap_cons,map_cons,hrest]

theorem LiveInv.appendUpserts
    (h : LiveInv quantizeBit4 analyze pushRow validateEnvelope generation s log r texts)
    {records framed : List (ℕ × U16 × Bytes)} {written : List IngestDocument}
    {stop : LogSeq} {next : U64}
    (hencodes : List.Forall₂ Encodes records written) (hne : records ≠ [])
    (hwritten : ∀ d ∈ written,d ∈ documents)
    (hcolumns : ∀ d ∈ documents,validateDocumentColumns pushRow d = .ok ())
    (hframe : frameBatch records = .ok framed)
    (hcommit : commitMany s.nextSeq (framed.map Prod.snd) = .ok stop)
    (hnext : addGeneration s.active.generation 1 = .ok next)
    (hreplays : ∀ op,(upsertSteps op s.nextSeq written).foldlM (replayStep quantizeBit4) r =
      .ok r')
    (htrails : Trails r' segment []) (hsound : segment.Sound analyze texts') :
    ∃ a,LiveInv quantizeBit4 analyze pushRow validateEnvelope generation
      ⟨⟨next,segment⟩,s.first,s.log++framed.map Prod.snd⟩ (log++[a]) r' texts' := by
  have hlen:=hencodes.length_eq
  have hdecodes:=writtenBatch_decodes hencodes
  have hcopy:=writtenBatch_records hlen
  obtain ⟨-,hsmall,hframedOps⟩ := frameBatch_rows hframe (encodes_ops hencodes)
  -- the appended batch
  obtain ⟨a,ha⟩ : ∃ a : Appended,a = ⟨.upserts (writtenBatch records written),
    framed.map Prod.snd,(framed.map Prod.snd).length⟩ := ⟨_,rfl⟩
  obtain ⟨op,hop⟩ : ∃ op,op = if (writtenBatch records written).length < 2 then upsertV2
    else upsertV2BatchMember := ⟨_,rfl⟩
  have hrecords : a.records = framed.map Prod.snd := by rw [ha]; exact take_length
  have hmembers : a.batch.members = written.map fun d => (op,.upsert d.persisted) := by
    have hmap:=congrArg (List.map fun mutation => (op,mutation)) (writtenBatch_mutations hlen)
    rw [map_map,map_map] at hmap
    rw [ha,Batch.members,← hop]
    exact hmap
  have hvalid : a.Valid validateEnvelope (decisionIn []) s.nextSeq := by
    refine ⟨?_,?_,?_,?_,?_,?_⟩
    · rw [ha,Batch.frames,hcopy,hframe]
      rfl
    · rw [ha]
      exact hdecodes
    · rw [hmembers]
      intro hnil
      rw [map_eq_nil_iff.mp hnil] at hlen
      exact hne (length_eq_zero_iff.mp hlen)
    · rw [hmembers,length_map,← hlen]
      exact hsmall
    · rw [ha]
    · intro b ms hb
      rw [ha] at hb
      cases hb
  have hbatch : liveBatches s.nextSeq [a] = [⟨s.nextSeq+BitVec.ofNat 64 (a.present-1),
      membersFrom s.nextSeq (written.map fun d => (op,.upsert d.persisted))⟩] := by
    rw [← hmembers]
    exact liveBatches_local s.nextSeq (by rw [ha]) (by rw [ha]; trivial)
  refine ⟨a,?_⟩
  rw [← hrecords]
  rw [← hrecords] at hcommit
  refine h.append hvalid hbatch (commitMany_ok hcommit) ?_ hnext ?_ ?_ ?_ htrails hsound
  · intro f hf
    rw [hrecords] at hf
    obtain ⟨record,hrecord,rfl⟩ := mem_map.mp hf
    rcases hframedOps record hrecord with hupsert | hmember
    · rw [hupsert]
      decide
    · rw [hmember]
      decide
  · intro m hm
    obtain ⟨d,hd,heq⟩ := mem_map.mp (membersFrom_mutation hm)
    rw [← (Prod.mk.inj heq).2]
    exact hcolumns d (hwritten d hd)
  · intro d hd
    rw [replaySteps_upserts,upsertSteps_documents] at hd
    obtain ⟨e,he,rfl⟩ := mem_map.mp hd
    obtain ⟨record,hrecord⟩ : ∃ record,(record,e) ∈ records.zip written := by
      obtain ⟨i,hi,rfl⟩ := mem_iff_getElem.mp he
      exact ⟨records[i],by
        rw [mem_iff_getElem]
        exact ⟨i,by rw [length_zip]; omega,by rw [getElem_zip]⟩⟩
    exact storable_of_encode ((forall₂_iff_zip.mp hencodes).2 hrecord).2
  · rw [replaySteps_upserts]
    exact hreplays op

theorem LiveInv.ingest
    (h : LiveInv quantizeBit4 analyze pushRow validateEnvelope generation s log r texts)
    (hingest : s.ingest quantizeBit4 analyze pushRow sealedView documents = .ok (ack,next)) :
    next.first = s.first ∧ ∃ added : Option Appended,∃ r' texts',LiveInv quantizeBit4 analyze
      pushRow validateEnvelope generation next (log++added.toList) r' texts' := by
  unfold LiveStore.ingest at hingest
  obtain ⟨-,hingest⟩ := of_ite_error hingest
  obtain ⟨⟨⟩,hcolumns,hingest⟩ := bind_eq_ok hingest
  obtain ⟨⟨⟩,-,hingest⟩ := bind_eq_ok hingest
  obtain ⟨progress,hprogress,hingest⟩ := bind_eq_ok hingest
  have hstart : (RevisionProgress.start.working.getD s.active.segment) = s.active.segment := rfl
  obtain ⟨records,written,r',texts',hrecords,hencodes,hwritten,hreplays,htrails,hsound,
    hworking⟩ := applyRevisions_trails s.nextSeq (hstart ▸ h.trails) (hstart ▸ h.sound)
      (by simp [RevisionProgress.start]) hprogress
  have hrecords : progress.records = records := hrecords
  cases hnext : progress.working with
  | none =>
    simp only [hnext] at hingest
    cases hreplay : progress.replaySeq with
    | none =>
      simp only [hreplay] at hingest
      cases hingest
    | some seq =>
      simp only [hreplay] at hingest
      obtain ⟨-,rfl⟩ := Prod.mk.inj (Except.ok.inj hingest)
      exact ⟨rfl,none,r,texts,by rwa [Option.toList_none,append_nil]⟩
  | some working =>
    simp only [hnext] at hingest
    obtain ⟨framed,hframe,hingest⟩ := bind_eq_ok hingest
    obtain ⟨counted,hcounted,hingest⟩ := bind_eq_ok hingest
    obtain ⟨stop,hcommit,hingest⟩ := bind_eq_ok hingest
    obtain ⟨segment,hset,hingest⟩ := bind_eq_ok hingest
    obtain ⟨-,rfl⟩ := Prod.mk.inj (Except.ok.inj hingest)
    have hne : records ≠ [] := by
      intro hnil
      rw [← hrecords] at hnil
      rw [hworking.mpr hnil] at hnext
      cases hnext
    have hframe:=mapError_eq_ok hframe
    rw [hrecords] at hframe
    rw [hnext,nil_append,← (frameBatch_rows hframe (encodes_ops hencodes)).1] at htrails
    rw [hnext] at hsound
    have hset:=mapError_eq_ok hset
    obtain ⟨a,ha⟩ := h.appendUpserts hencodes hne hwritten
      (validateDocuments_ok hcolumns) hframe (mapError_eq_ok hcommit) (mapError_eq_ok hcounted)
      hreplays (htrails.settle hset) (setSequences_sound hset hsound)
    exact ⟨rfl,some a,r',texts',ha⟩

theorem decodeMutation_delete (validateEnvelope : Bytes → Except GraphWalError Unit)
    (payload : Bytes) : decodeMutation validateEnvelope deleteV1 payload =
      (.delete <$> decodeDelete payload) := by
  rfl

theorem LiveInv.delete
    (h : LiveInv quantizeBit4 analyze pushRow validateEnvelope generation s log r texts)
    {docIds : List DocId} {expected : List (Option ExpectedRevision)}
    (hdelete : s.delete sealedView docIds expected = .ok (ack,next)) :
    next.first = s.first ∧ ∃ added : Option Appended,∃ r' texts',LiveInv quantizeBit4 analyze
      pushRow validateEnvelope generation next (log++added.toList) r' texts' := by
  unfold LiveStore.delete at hdelete
  obtain ⟨-,hdelete⟩ := of_ite_error hdelete
  obtain ⟨⟨⟩,-,hdelete⟩ := bind_eq_ok hdelete
  obtain ⟨counted,hcounted,hdelete⟩ := bind_eq_ok hdelete
  obtain ⟨⟨tombstoned,rows⟩,htombstone,hdelete⟩ := bind_eq_ok hdelete
  obtain ⟨payload,hpayload,hdelete⟩ := bind_eq_ok hdelete
  obtain ⟨stop,hcommit,hdelete⟩ := bind_eq_ok hdelete
  obtain ⟨segment,hset,hdelete⟩ := bind_eq_ok hdelete
  obtain ⟨-,rfl⟩ := Prod.mk.inj (Except.ok.inj hdelete)
  obtain ⟨r',hreplay,htrails,hsound⟩ :
      ∃ r',replayStep quantizeBit4 r (s.nextSeq,deleteV1,.delete docIds) = .ok r' ∧
        Trails r' segment [] ∧ segment.Sound analyze texts :=
    h.trails.delete h.sound htombstone (mapError_eq_ok hset)
  have hdecode : decodeMutation validateEnvelope deleteV1 payload = .ok (.delete docIds) := by
    rw [decodeMutation_delete,decodeDelete_encode (mapError_eq_ok hpayload)]
    rfl
  obtain ⟨a,ha⟩ : ∃ a : Appended,a = ⟨.standalone ⟨deleteV1,payload,.delete docIds⟩,
    [(deleteV1,payload)],1⟩ := ⟨_,rfl⟩
  have hrecords : a.records = [(deleteV1,payload)] := by rw [ha]; rfl
  have hop : deleteV1 ≠ preparedMutationV1 ∧ deleteV1 ≠ upsertV2BatchMember ∧
      deleteV1 ≠ mixedBatchMemberV1 ∧ deleteV1 ≠ graphCommitV1 := by decide
  have hvalid : a.Valid validateEnvelope (decisionIn []) s.nextSeq := by
    rw [ha]
    exact ⟨rfl,⟨hop.1,hop.2.1,hop.2.2.1,hdecode⟩,by simp [Batch.members],
      by simp [Batch.members],Nat.le_refl _,nofun⟩
  have hbatch:=liveBatches_local s.nextSeq (a := a) (by rw [ha]; rfl) (by rw [ha]; trivial)
  have hcommit:=commitMany_ok (mapError_eq_ok hcommit)
  rw [← hrecords] at hcommit
  refine ⟨rfl,some a,r',texts,?_⟩
  rw [Option.toList_some]
  rw [← hrecords]
  refine h.append hvalid hbatch hcommit ?_ (mapError_eq_ok hcounted) ?_ ?_ ?_ htrails hsound
  · rw [hrecords]
    intro f hf
    rw [mem_singleton.mp hf]
    exact ⟨hop.2.2.2,hop.2.2.1⟩
  · intro m hm
    rw [ha] at hm
    rw [mem_singleton.mp hm]
    trivial
  · rw [ha]
    simp [replaySteps,Batch.members,membersFrom,replayDocuments]
  · rw [ha]
    simp only [replaySteps,Batch.members,membersFrom,filterMap_cons,filterMap_nil,
      foldlM_cons,foldlM_nil,hreplay]
    rfl

theorem liveStep_added
    (h : LiveInv quantizeBit4 analyze pushRow validateEnvelope generation s log r texts)
    {operation : Operation}
    (hstep : liveStep quantizeBit4 analyze pushRow s operation = some next) :
    next.first = s.first ∧ ∃ added : Option Appended,∃ r' texts',LiveInv quantizeBit4 analyze
      pushRow validateEnvelope generation next (log++added.toList) r' texts' := by
  cases operation with
  | ingest sealedView documents =>
    obtain ⟨⟨ack,next⟩,hingest,rfl⟩ := Option.map_eq_some_iff.mp hstep
    exact h.ingest (toOption_eq_some hingest)
  | delete sealedView docIds expected =>
    obtain ⟨⟨ack,next⟩,hdelete,rfl⟩ := Option.map_eq_some_iff.mp hstep
    exact h.delete (toOption_eq_some hdelete)

theorem liveStep_inv
    (h : LiveInv quantizeBit4 analyze pushRow validateEnvelope generation s log r texts)
    {operation : Operation}
    (hstep : liveStep quantizeBit4 analyze pushRow s operation = some next) :
    next.first = s.first ∧ ∃ log' r' texts',
      LiveInv quantizeBit4 analyze pushRow validateEnvelope generation next log' r' texts' := by
  obtain ⟨hfirst,added,hnext⟩ := liveStep_added h hstep
  exact ⟨hfirst,_,hnext⟩

theorem encodeAll_storable (h : ∀ d ∈ documents,Storable d) :
    ActiveSegment.encodeAll documents = .ok () := by
  induction documents with
  | nil => rfl
  | cons d documents ih =>
    obtain ⟨bytes,hbytes⟩ := (h d (mem_cons_self ..)).2
    simp only [ActiveSegment.encodeAll,hbytes]
    exact ih fun e he => h e (mem_cons_of_mem _ he)

theorem workingSegment_empty
    (h : ∀ d ∈ replayDocuments steps,Storable d) : workingSegment steps = .ok .empty := by
  unfold workingSegment
  split
  · rename_i first _ _ _ hfirst _
    have hlength : first.vector.length ≠ 0 := by
      have hvector:=(h first (mem_of_mem_head? hfirst)).1
      simpa using hvector
    have hcheck : ActiveSegment.empty.checkBatch first (replayDocuments steps) = .ok () := by
      simp [ActiveSegment.checkBatch,ActiveSegment.empty,hlength,encodeAll_storable h]
    simp only [ActiveSegment.copyForBatch,hcheck]
    rfl
  · rfl

theorem indexReplayed_ok {live : ActiveSegment}
    (hlive : live.Sound analyze texts) (hsegment : segment = { live with lexical := .new })
    (hnil : steps = [] → segment = .empty) :
    ∃ lexical,indexReplayed analyze steps segment = .ok { live with lexical } ∧
      ∀ term field,lexical.postingList term field = live.lexical.postingList term field := by
  have htracks : segment.tracksText = live.tracksText := by rw [hsegment]; rfl
  have huntracked : live.tracksText = false → live.lexical = .new := by
    intro hfalse
    have hlexical:=hlive.lexical
    rwa [ActiveSegment.IndexesText,hfalse,if_neg (by simp)] at hlexical
  unfold indexReplayed
  split
  · rename_i hlast
    have hempty:=hnil (getLast?_eq_none_iff.mp hlast)
    have hfalse : live.tracksText = false := by rw [← htracks,hempty]; rfl
    refine ⟨.new,by rw [hsegment],?_⟩
    intro term field
    rw [huntracked hfalse]
  · cases htext : live.tracksText with
    | false =>
      rw [if_neg (by simp [htracks,htext])]
      refine ⟨.new,by rw [hsegment],?_⟩
      intro term field
      rw [huntracked htext]
    | true =>
      rw [if_pos (htracks.trans htext)]
      have hstored : ActiveSegment.StoresText (segment.textPresent,segment.texts) texts := by
        rw [hsegment]
        exact hlive.stored
      have hcount : texts.length = segment.docIds.length := by
        rw [hsegment]
        exact hlive.textCount
      obtain ⟨lexical,hbuild,hindexes⟩ := ActiveSegment.rebuildLexical_indexes analyze hstored hcount
        (hlive.textCount ▸ hlive.rows_le)
      have hlexical:=hlive.lexical
      rw [ActiveSegment.IndexesText,htext,if_pos rfl] at hlexical
      refine ⟨lexical,?_,hindexes.postingList_eq hlexical⟩
      rw [hbuild,hsegment]
      rfl

theorem LiveInv.committed
    (h : LiveInv quantizeBit4 analyze pushRow validateEnvelope generation s log r texts)
    {mark : U64} (hmark : mark < s.first) :
    committedBatches xxh3 validateEnvelope (decisionIn [])
        ((numbered s.first s.log).map (showRecord xxh3)) mark = .ok (liveBatches s.first log) ∧
      ∀ b ∈ liveBatches s.first log,Behind mark b := by
  have hroom:=h.room
  rw [← h.records] at hroom ⊢
  have hlt:=BitVec.lt_def.mp hmark
  have hzero : s.first+BitVec.ofNat 64 (logRecords []).length = s.first := BitVec.add_zero _
  constructor
  · have hpost : ∀ r ∈ numbered (s.first+BitVec.ofNat 64 (logRecords []).length) (logRecords log),
        mark < r.seq := by
      intro b hb
      rw [hzero] at hb
      have hrange:=numbered_range hb hroom.le
      exact BitVec.lt_def.mpr (by omega)
    have hvalid : ValidLog validateEnvelope (decisionIn []) s.first ([]++log) := h.valid
    have hshown:=committedBatches_shown xxh3 validateEnvelope (decisionIn []) hvalid
      (storeRecords_shows xxh3 h.fits hroom.le) (by simp [logRecords,numbered]) hpost
    rw [hzero] at hshown
    exact hshown
  · intro b hb
    exact (expectedBatches_within h.valid hroom b hb).behind hlt

theorem LiveInv.replays_live
    (h : LiveInv quantizeBit4 analyze pushRow validateEnvelope generation s log r texts)
    {absorbedThrough graphAbsorbedThrough : U64} (hdoc : absorbedThrough < s.first)
    (hgraph : graphAbsorbedThrough < s.first) :
    ∃ recovered lexical,
      replay quantizeBit4 analyze xxh3 validateEnvelope pushRow generation absorbedThrough
        graphAbsorbedThrough none false ((numbered s.first s.log).map (showRecord xxh3)) s.nextSeq
        [] = .ok recovered ∧
      recovered.active = ⟨s.active.generation,{ s.active.segment with lexical }⟩ ∧
      ∀ term field,
        lexical.postingList term field = s.active.segment.lexical.postingList term field := by
  have hmin : minWord absorbedThrough graphAbsorbedThrough < s.first := by
    unfold minWord
    split
    · exact hdoc
    · exact hgraph
  have hrefuse : refuseGraphRecords false ((numbered s.first s.log).map (showRecord xxh3)) =
      .ok () := by
    refine refuseGraphRecords_ok (.inr ?_)
    intro v hv
    obtain ⟨record,hrecord,rfl⟩ := mem_map.mp hv
    exact h.ops _ (numbered_range hrecord h.room.le).2.2
  have hlt:=s.active.generation.isLt
  rw [h.generation] at hlt
  obtain ⟨tail,htail,hgeneration,hsteps⟩ : ∃ tail,
      replayCommitted (validateDocumentColumns pushRow) generation absorbedThrough
        graphAbsorbedThrough none false ((numbered s.first s.log).map (showRecord xxh3)) s.nextSeq
        (liveBatches s.first log) = .ok tail ∧
      tail.generation.toNat = generation.toNat+(liveBatches s.first log).length ∧
      tail.steps = liveSteps s.first log := by
    have hstart : startGeneration generation absorbedThrough graphAbsorbedThrough none
        ((numbered s.first s.log).map (showRecord xxh3)) s.nextSeq (liveBatches s.first log) =
          .ok generation := rfl
    have hbehind:=(h.committed xxh3 (maxWord_lt hdoc hgraph)).2
    obtain ⟨tail,htail,hgeneration,-,hsteps⟩ := (replayCommitted_counts _ _ _ _
      (show liveBatches s.first log = []++liveBatches s.first log from rfl)
      hstart (fun _ hb => nomatch hb) hbehind h.replayable (Nat.zero_le _)).of_lt hlt
    exact ⟨tail,htail,hgeneration,hsteps rfl⟩
  have hsegment : r.segment = { s.active.segment with lexical := .new } := h.trails.segment
  have hempty : liveSteps s.first log = [] → r.segment = .empty := by
    intro hnil
    have hreplays:=h.replays
    rw [hnil] at hreplays
    rw [← Except.ok.inj hreplays]
  obtain ⟨lexical,hindex,hpostings⟩ := indexReplayed_ok h.sound hsegment hempty
  refine ⟨⟨⟨tail.generation,{ s.active.segment with lexical }⟩,r.sealedTombstones,tail.graph⟩,
    lexical,?_,?_,hpostings⟩
  · rw [replay,replayTail,hrefuse,ok_bind,(h.committed xxh3 hmin).1,ok_bind,htail,ok_bind,
      hsteps,replaySegment,workingSegment_empty h.documents,ok_bind,h.replays,ok_bind,hindex]
    rfl
  · have hlive : tail.generation = s.active.generation :=
      BitVec.eq_of_toNat_eq (hgeneration.trans h.generation.symm)
    rw [hlive]

/-- Replaying the records of any acknowledged operations restores the live
segment: every array of it, and an index with the same postings. -/
theorem replay_eq_live {operations : List Operation} {first : LogSeq}
    (run : Run (liveStep quantizeBit4 analyze pushRow) anyEvent (.start generation first) operations s)
    {absorbedThrough graphAbsorbedThrough : U64} (hdoc : absorbedThrough < first)
    (hgraph : graphAbsorbedThrough < first) :
    ∃ recovered lexical,
      replay quantizeBit4 analyze xxh3 validateEnvelope pushRow generation absorbedThrough
        graphAbsorbedThrough none false ((numbered first s.log).map (showRecord xxh3)) s.nextSeq
        [] = .ok recovered ∧
      recovered.active = ⟨s.active.generation,{ s.active.segment with lexical }⟩ ∧
      ∀ term field,
        lexical.postingList term field = s.active.segment.lexical.postingList term field := by
  obtain ⟨hfirst,log,r,texts,hinv⟩ := run.invariant
    (fun s => s.first = first ∧ ∃ log r texts,
      LiveInv quantizeBit4 analyze pushRow validateEnvelope generation s log r texts)
    ⟨rfl,[],_,[],.start quantizeBit4 analyze pushRow validateEnvelope generation first⟩
    (by
      rintro s operation next ⟨hfirst,log,r,texts,hinv⟩-hstep
      obtain ⟨hsame,hnext⟩ := liveStep_inv hinv hstep
      exact ⟨hsame.trans hfirst,hnext⟩)
  rw [← hfirst] at hdoc hgraph ⊢
  exact hinv.replays_live xxh3 hdoc hgraph

end Engine

def nothingSealed : SealedView := ⟨[],fun _ => none,0⟩

/-- `quantize_bit4` on the vector `[0.0]`: level 0 in the high nibble, no scale. -/
def quantizeZero (vector : List U32) (_ : Bytes) : Except QuantError (Bytes × Bit4Factors) :=
  if vector = [0] then .ok ([0x80],⟨0,0,0⟩) else .error .allocation

def revisedTwice : List Operation :=
  [.ingest nothingSealed [.new ⟨1,1⟩ [0]],
    .ingest nothingSealed [.new ⟨1,2⟩ [0],.new ⟨2,1⟩ [0],.new ⟨1,3⟩ [0]],
    .delete nothingSealed [2,2] [none,none]]

theorem replay_revisedTwice :
    ∃ s : LiveStore,s.active.segment.revisions = [3,1] ∧ s.active.segment.sequences = [4,5] ∧
      s.active.segment.tombstones = [1] ∧ ∃ recovered lexical,
        replay quantizeZero (fun _ => []) (fun _ => 0) (fun _ => .ok ()) (fun _ _ => .ok ()) 1 0 0
          none false ((numbered 1 s.log).map (showRecord fun _ => 0)) s.nextSeq [] = .ok recovered ∧
        recovered.active = ⟨s.active.generation,{ s.active.segment with lexical }⟩ := by
  have hsome : (execute (liveStep quantizeZero (fun _ => []) fun _ _ => .ok ()) anyEvent
      (.start 1 1) revisedTwice).map (fun s => (s.active.segment.revisions,
        s.active.segment.sequences,s.active.segment.tombstones)) =
      some ([3,1],[4,5],[1]) := by decide +kernel
  obtain ⟨s,hs,hrows⟩ := Option.map_eq_some_iff.mp hsome
  obtain ⟨hrevisions,hrows⟩ := Prod.mk.inj hrows
  obtain ⟨hsequences,htombstones⟩ := Prod.mk.inj hrows
  have hlt : (0 : U64) < 1 := by decide
  obtain ⟨recovered,lexical,hreplay,hactive,-⟩ :=
    replay_eq_live (fun _ => 0) (Run.of_execute hs) hlt hlt
  exact ⟨s,hrevisions,hsequences,htombstones,recovered,lexical,hreplay,hactive⟩

end Zeppelin.Ingest
