import Zeppelin.Ingest.LiveRuns
import Zeppelin.Ingest.RevisionRuns

namespace Zeppelin.Ingest
open Wal Fts List

theorem numberedRows_concat (seq : LogSeq) (rows : List ℕ) (row : ℕ) :
    numberedRows seq (rows++[row]) =
      numberedRows seq rows++[(row,seq+BitVec.ofNat 64 rows.length)] := by
  induction rows generalizing seq with
  | nil =>
    have hzero : seq+BitVec.ofNat 64 0 = seq := BitVec.add_zero seq
    rw [length_nil,hzero]
    rfl
  | cons first rows ih =>
    have hunit : (1 : U64).toNat = 1 := rfl
    have hnext : seq+1+BitVec.ofNat 64 rows.length =
        seq+BitVec.ofNat 64 (rows.length+1) := by
      apply BitVec.eq_of_toNat_eq
      simp only [BitVec.toNat_add,BitVec.toNat_ofNat,hunit]
      omega
    rw [cons_append,numberedRows,ih,hnext]
    rfl

theorem numberedRows_lt {rows : List ℕ} : ∀ {seq : LogSeq},seq.toNat+rows.length < 2^64 →
    ∀ entry ∈ numberedRows seq rows,entry.2.toNat < seq.toNat+rows.length := by
  induction rows with
  | nil => nofun
  | cons row rows ih =>
    intro seq hroom entry hentry
    rw [length_cons] at hroom ⊢
    have hunit : (1 : U64).toNat = 1 := rfl
    have hnext : (seq+1).toNat = seq.toNat+1 := by
      rw [BitVec.toNat_add,hunit]
      omega
    rcases mem_cons.mp hentry with rfl | hentry
    · dsimp only
      omega
    · have hlater:=ih (by omega) entry hentry
      omega

theorem mem_assignSequences {sequences : List LogSeq} {pending : List (ℕ × LogSeq)} {seq : LogSeq}
    (h : seq ∈ assignSequences sequences pending) :
    seq ∈ sequences ∨ ∃ entry ∈ pending,entry.2 = seq := by
  induction pending generalizing sequences with
  | nil => exact .inl h
  | cons entry pending ih =>
    rcases ih h with hold | ⟨later,hlater,hseq⟩
    · rcases mem_or_eq_of_mem_set hold with hold | rfl
      · exact .inl hold
      · exact .inr ⟨entry,mem_cons_self,rfl⟩
    · exact .inr ⟨later,mem_cons_of_mem _ hlater,hseq⟩

theorem resolveRevision_seq {s : ActiveSegment} {sealedView : SealedView} {docId : DocId}
    {resolved : ResolvedRevision} (h : resolveRevision s sealedView docId = some resolved) :
    resolved.seq = sealedView.absorbedThrough ∨ resolved.seq ∈ s.sequences := by
  have hfold : ∀ (versions : List DocumentVersion) (activeRow : Option ℕ)
      (start : Option ResolvedRevision),(∀ found,start = some found →
        found.seq = sealedView.absorbedThrough ∨ found.seq ∈ s.sequences) → ∀ found,
      versions.foldl (ResolvedRevision.newer sealedView.absorbedThrough activeRow) start =
        some found → found.seq = sealedView.absorbedThrough ∨ found.seq ∈ s.sequences := by
    intro versions activeRow
    induction versions with
    | nil => exact fun start hstart => hstart
    | cons version versions ih =>
      intro start hstart
      apply ih
      unfold ResolvedRevision.newer
      split
      · intro found hfound
        rw [← Option.some.inj hfound]
        exact .inl rfl
      · exact hstart
  rw [resolveRevision_eq] at h
  apply hfold _ _ _ _ resolved h
  intro found hfound
  obtain ⟨⟨row,version,seq⟩,hexisting,rfl⟩ := Option.map_eq_some_iff.mp hfound
  obtain ⟨_,-,hexisting⟩ := Option.bind_eq_some_iff.mp hexisting
  obtain ⟨_,-,hexisting⟩ := Option.bind_eq_some_iff.mp hexisting
  obtain ⟨seq',hseq,hexisting⟩ := Option.bind_eq_some_iff.mp hexisting
  obtain ⟨-,hrest⟩ := Prod.mk.inj (Option.some.inj hexisting)
  obtain ⟨-,rfl⟩ := Prod.mk.inj hrest
  exact .inr (mem_of_getElem? hseq)

section Engine
variable {quantizeBit4 : List U32 → Bytes → Except QuantError (Bytes × Bit4Factors)}
  {analyze : String → List Token}
  {pushRow : U64 → List (ColumnId × PredicateValue) → Except String Unit}

structure Ingested (quantizeBit4 : List U32 → Bytes → Except QuantError (Bytes × Bit4Factors))
    (analyze : String → List Token)
    (pushRow : U64 → List (ColumnId × PredicateValue) → Except String Unit) (s : LiveStore)
    (sealedView : SealedView) (documents : List IngestDocument) (progress : RevisionProgress) :
    Prop where
  nonempty : documents ≠ []
  columns : validateDocuments pushRow documents = .ok ()
  decided : applyRevisions quantizeBit4 analyze s.active.segment sealedView documents .start =
    .ok progress

structure Committed (s : LiveStore) (progress : RevisionProgress) (ack : IngestAck)
    (next : LiveStore) (working segment : ActiveSegment) (framed : List (ℕ × U16 × Bytes))
    (generation : U64) (stop : LogSeq) : Prop where
  working_eq : progress.working = some working
  framed_eq : frameBatch progress.records = .ok framed
  generation_eq : addGeneration s.active.generation 1 = .ok generation
  commit : commitMany s.nextSeq (framed.map Prod.snd) = .ok stop
  numbered : setSequences s.nextSeq (framed.map Prod.fst) working = .ok segment
  ack_eq : ack = ⟨BitVec.ofNat 64 (stop.toNat-1),generation⟩
  next_eq : next = ⟨⟨generation,segment⟩,s.first,s.log++framed.map Prod.snd⟩

theorem ingest_ok {s next : LiveStore} {sealedView : SealedView} {documents : List IngestDocument}
    {ack : IngestAck}
    (h : s.ingest quantizeBit4 analyze pushRow sealedView documents = .ok (ack,next)) :
    ∃ progress,Ingested quantizeBit4 analyze pushRow s sealedView documents progress ∧
      ((progress.working = none ∧ progress.replaySeq = some ack.seq ∧
        ack.generation = s.active.generation ∧ next = s) ∨
      ∃ working segment framed generation stop,
        Committed s progress ack next working segment framed generation stop) := by
  unfold LiveStore.ingest at h
  obtain ⟨hnonempty,h⟩ := of_ite_error h
  obtain ⟨⟨⟩,hcolumns,h⟩ := bind_eq_ok h
  obtain ⟨⟨⟩,-,h⟩ := bind_eq_ok h
  obtain ⟨progress,hprogress,h⟩ := bind_eq_ok h
  refine ⟨progress,⟨hnonempty,hcolumns,hprogress⟩,?_⟩
  cases hworking : progress.working with
  | none =>
    simp only [hworking] at h
    cases hreplay : progress.replaySeq with
    | none =>
      simp only [hreplay] at h
      cases h
    | some seq =>
      simp only [hreplay] at h
      obtain ⟨rfl,rfl⟩ := Prod.mk.inj (Except.ok.inj h)
      exact .inl ⟨rfl,rfl,rfl,rfl⟩
  | some working =>
    simp only [hworking] at h
    obtain ⟨framed,hframe,h⟩ := bind_eq_ok h
    obtain ⟨generation,hgeneration,h⟩ := bind_eq_ok h
    obtain ⟨stop,hcommit,h⟩ := bind_eq_ok h
    obtain ⟨segment,hset,h⟩ := bind_eq_ok h
    obtain ⟨rfl,rfl⟩ := Prod.mk.inj (Except.ok.inj h)
    exact .inr ⟨working,segment,framed,generation,stop,hworking,mapError_eq_ok hframe,
      mapError_eq_ok hgeneration,mapError_eq_ok hcommit,mapError_eq_ok hset,rfl,rfl⟩

theorem checkRevisionConditions_free (active : ActiveSegment) (sealedView : SealedView)
    {conditions : List (ℕ × DocId × Option ExpectedRevision)}
    (h : ∀ condition ∈ conditions,condition.2.2 = none) :
    checkRevisionConditions active sealedView conditions = .ok () := by
  induction conditions with
  | nil => rfl
  | cons condition conditions ih =>
    obtain ⟨index,docId,expected⟩ := condition
    have hnone : expected = none := h _ mem_cons_self
    rw [hnone,checkRevisionConditions]
    exact ih fun other hother => h other (mem_cons_of_mem _ hother)

theorem ingest_replay {s : LiveStore} {sealedView : SealedView} {documents : List IngestDocument}
    {progress : RevisionProgress} {seq : LogSeq}
    (hingested : Ingested quantizeBit4 analyze pushRow s sealedView documents progress)
    (hfree : ∀ d ∈ documents,d.expectedRevision = none) (hworking : progress.working = none)
    (hseq : progress.replaySeq = some seq) :
    s.ingest quantizeBit4 analyze pushRow sealedView documents =
      .ok (⟨seq,s.active.generation⟩,s) := by
  unfold LiveStore.ingest
  rw [if_neg hingested.nonempty,hingested.columns,ok_bind,checkRevisionConditions_free,ok_bind,
    hingested.decided,ok_bind]
  · simp only [hworking,hseq]
    rfl
  · intro condition hcondition
    obtain ⟨⟨d,index⟩,hd,rfl⟩ := mem_map.mp hcondition
    exact hfree d (fst_mem_of_mem_zipIdx hd)

structure Served where
  store : LiveStore
  sealedView : SealedView

/-- Sealing absorbs the log so far; maintenance changes what is sealed, but not the boundary. -/
inductive Reached (quantizeBit4 : List U32 → Bytes → Except QuantError (Bytes × Bit4Factors))
    (analyze : String → List Token)
    (pushRow : U64 → List (ColumnId × PredicateValue) → Except String Unit) : Served → Prop
  | opened (generation : U64) {first : LogSeq} {sealedView : SealedView}
      (h : sealedView.absorbedThrough < first) :
      Reached quantizeBit4 analyze pushRow ⟨.start generation first,sealedView⟩
  | ingested {s : Served} {documents : List IngestDocument} {ack : IngestAck} {next : LiveStore}
      (live : DocId → Option Revision) (h : Reached quantizeBit4 analyze pushRow s)
      (hack : s.store.ingest quantizeBit4 analyze pushRow s.sealedView documents =
        .ok (ack,next)) :
      Reached quantizeBit4 analyze pushRow ⟨next,{ s.sealedView with liveRevision := live }⟩
  | deleted {s : Served} {docIds : List DocId} {expected : List (Option ExpectedRevision)}
      {ack : IngestAck} {next : LiveStore} (live : DocId → Option Revision)
      (h : Reached quantizeBit4 analyze pushRow s)
      (hack : s.store.delete s.sealedView docIds expected = .ok (ack,next)) :
      Reached quantizeBit4 analyze pushRow ⟨next,{ s.sealedView with liveRevision := live }⟩
  | sealed {s : Served} (generation : U64) (versions : List DocumentVersion)
      (live : DocId → Option Revision) (h : Reached quantizeBit4 analyze pushRow s) :
      Reached quantizeBit4 analyze pushRow
        ⟨.start generation s.store.nextSeq,⟨versions,live,s.store.nextSeq-1⟩⟩
  | maintained {s : Served} (versions : List DocumentVersion) (live : DocId → Option Revision)
      (h : Reached quantizeBit4 analyze pushRow s) :
      Reached quantizeBit4 analyze pushRow
        ⟨s.store,⟨versions,live,s.sealedView.absorbedThrough⟩⟩

structure Coherent (analyze : String → List Token) (s : Served) : Prop where
  sound : ∃ texts,s.store.active.segment.Sound analyze texts
  absorbed : s.sealedView.absorbedThrough.toNat < s.store.first.toNat
  room : s.store.first.toNat+s.store.log.length < 2^64
  sequences : ∀ seq ∈ s.store.active.segment.sequences,
    seq.toNat < s.store.first.toNat+s.store.log.length

variable {s : Served} {documents : List IngestDocument} {progress : RevisionProgress}
  {ack : IngestAck} {next : LiveStore} {working segment : ActiveSegment}
  {framed : List (ℕ × U16 × Bytes)} {generation : U64} {stop : LogSeq}

theorem Coherent.nextSeq_toNat (h : Coherent analyze s) :
    s.store.nextSeq.toNat = s.store.first.toNat+s.store.log.length :=
  add_ofNat_toNat h.room

theorem Coherent.deciding (h : Coherent analyze s)
    (hingested : Ingested quantizeBit4 analyze pushRow s.store s.sealedView documents progress) :
    Deciding analyze s.store.active.segment s.sealedView
      (s.store.first.toNat+s.store.log.length) documents progress := by
  obtain ⟨texts,hsound⟩ := h.sound
  have habsorbed:=h.absorbed
  exact applyRevisions_deciding (by omega) (.start hsound h.sequences) hingested.decided

theorem commitMany_stop {nextSeq stop : LogSeq} {records : List (U16 × Bytes)}
    (h : commitMany nextSeq records = .ok stop) :
    stop.toNat = nextSeq.toNat+records.length := by
  have hroom:=(commitMany_ok h).2
  unfold commitMany at h
  split at h
  · cases h
  · split at h
    · cases h
    · split at h
      · cases h
      · rename_i next hadd
        rw [← Except.ok.inj h,checkedAdd_eq_some hadd,BitVec.toNat_ofNat,
          Nat.mod_eq_of_lt (by omega)]

theorem Committed.sequenced (h : Coherent analyze s)
    (hcommitted : Committed s.store progress ack next working segment framed generation stop) :
    next.first = s.store.first ∧
      next.first.toNat+next.log.length = s.store.nextSeq.toNat+framed.length ∧
      next.active.segment = { working with
        sequences := assignSequences working.sequences
          (numberedRows s.store.nextSeq (framed.map Prod.fst)) } ∧
      next.first.toNat+next.log.length < 2^64 := by
  have hnext:=hcommitted.next_eq
  have hroom:=(commitMany_ok hcommitted.commit).2
  rw [length_map] at hroom
  subst hnext
  refine ⟨rfl,?_,setSequences_ok hcommitted.numbered,?_⟩
  · dsimp only
    rw [length_append,length_map,h.nextSeq_toNat]
    omega
  · dsimp only
    rw [length_append,length_map]
    have hseq:=h.nextSeq_toNat
    omega

theorem Coherent.ingested (h : Coherent analyze s) (live : DocId → Option Revision)
    (hack : s.store.ingest quantizeBit4 analyze pushRow s.sealedView documents = .ok (ack,next)) :
    Coherent analyze ⟨next,{ s.sealedView with liveRevision := live }⟩ := by
  obtain ⟨progress,hingested,⟨-,-,-,rfl⟩ | ⟨working,segment,framed,generation,stop,
    hcommitted⟩⟩ := ingest_ok hack
  · exact ⟨h.sound,h.absorbed,h.room,h.sequences⟩
  · have hdeciding:=h.deciding hingested
    obtain ⟨hfirst,hend,hsegment,hroom⟩ := hcommitted.sequenced h
    have hworking : progress.working.getD s.store.active.segment = working := by
      rw [hcommitted.working_eq]
      rfl
    obtain ⟨texts,hsound⟩ := hdeciding.sound
    have hbound:=hdeciding.sequences
    rw [hworking] at hsound hbound
    have hseq:=h.nextSeq_toNat
    refine ⟨⟨texts,?_⟩,?_,hroom,?_⟩
    · have hnumbered:=setSequences_sound hcommitted.numbered hsound
      rw [hcommitted.next_eq]
      exact hnumbered
    · rw [hfirst]
      exact h.absorbed
    · intro seq hmem
      dsimp only at hmem ⊢
      rw [hend]
      rw [hsegment] at hmem
      rcases mem_assignSequences hmem with hold | ⟨entry,hentry,rfl⟩
      · have hlt:=hbound seq hold
        omega
      · have hlt:=numberedRows_lt (by rw [length_map]; omega) entry hentry
        rw [length_map] at hlt
        exact hlt

theorem Coherent.deleted {docIds : List DocId} {expected : List (Option ExpectedRevision)}
    (h : Coherent analyze s) (live : DocId → Option Revision)
    (hack : s.store.delete s.sealedView docIds expected = .ok (ack,next)) :
    Coherent analyze ⟨next,{ s.sealedView with liveRevision := live }⟩ := by
  unfold LiveStore.delete at hack
  obtain ⟨-,hack⟩ := of_ite_error hack
  obtain ⟨⟨⟩,-,hack⟩ := bind_eq_ok hack
  obtain ⟨generation,-,hack⟩ := bind_eq_ok hack
  obtain ⟨⟨tombstoned,rows⟩,htombstone,hack⟩ := bind_eq_ok hack
  obtain ⟨payload,-,hack⟩ := bind_eq_ok hack
  obtain ⟨stop,hcommit,hack⟩ := bind_eq_ok hack
  obtain ⟨final,hset,hack⟩ := bind_eq_ok hack
  obtain ⟨-,rfl⟩ := Prod.mk.inj (Except.ok.inj hack)
  obtain ⟨tombstones,-,htombstone⟩ := bind_eq_ok htombstone
  obtain ⟨rfl,rfl⟩ := Prod.mk.inj (Except.ok.inj htombstone)
  have hfinal:=setSequence_rows (mapError_eq_ok hset)
  have hroom:=(commitMany_ok (mapError_eq_ok hcommit)).2
  have hseq:=h.nextSeq_toNat
  rw [length_singleton] at hroom
  have hlength : s.store.first.toNat+(s.store.log++[(deleteV1,payload)]).length < 2^64 := by
    rw [length_append,length_singleton]
    omega
  obtain ⟨texts,hsound⟩ := h.sound
  refine ⟨⟨texts,?_⟩,h.absorbed,hlength,?_⟩
  · rw [hfinal]
    exact ⟨hsound.nodup,rfl,hsound.revisions,
      (assignSequences_length _ _).trans hsound.sequences,hsound.rows_le,hsound.textCount,
      hsound.stored,hsound.lexical⟩
  · intro seq hmem
    dsimp only at hmem ⊢
    rw [length_append,length_singleton]
    rw [hfinal] at hmem
    rcases mem_assignSequences hmem with hold | ⟨entry,hentry,rfl⟩
    · have hlt:=h.sequences seq hold
      omega
    · obtain ⟨row,-,rfl⟩ := mem_map.mp hentry
      dsimp only
      omega

theorem Reached.coherent (h : Reached quantizeBit4 analyze pushRow s) : Coherent analyze s := by
  induction h with
  | opened generation h =>
    refine ⟨⟨[],.empty analyze⟩,BitVec.lt_def.mp h,?_,nofun⟩
    exact BitVec.isLt _
  | ingested live h hack ih => exact ih.ingested live hack
  | deleted live h hack ih => exact ih.deleted live hack
  | @sealed s generation versions live h ih =>
    have habsorbed:=ih.absorbed
    have hseq:=ih.nextSeq_toNat
    have hunit : (1 : U64).toNat = 1 := rfl
    have hbefore : (s.store.nextSeq-1).toNat = s.store.nextSeq.toNat-1 := by
      rw [BitVec.toNat_sub_of_le,hunit]
      rw [BitVec.le_def,hunit]
      omega
    refine ⟨⟨[],.empty analyze⟩,?_,?_,nofun⟩
    · dsimp only [LiveStore.start]
      rw [hbefore]
      omega
    · exact BitVec.isLt _
  | maintained versions live h ih => exact ⟨ih.sound,ih.absorbed,ih.room,ih.sequences⟩

theorem oneRevision_of_settled {segment : ActiveSegment} {sealedView : SealedView}
    (h : ∀ d ∈ documents,Settled segment sealedView d.version) : OneRevision documents := by
  intro d hd e he hid
  obtain ⟨resolved,hresolved,hrevision⟩ := h d hd
  obtain ⟨other,hother,hrevision'⟩ := h e he
  rw [hid,hother] at hresolved
  obtain rfl := Option.some.inj hresolved
  exact hrevision.symm.trans hrevision'

theorem frameBatch_fst {records framed : List (ℕ × U16 × Bytes)}
    (h : frameBatch records = .ok framed) : framed.map Prod.fst = records.map Prod.fst := by
  unfold frameBatch at h
  split at h
  · rw [Except.ok.inj h]
  · obtain ⟨count,-,h⟩ := bind_eq_ok h
    exact (frameMembers_rows h).1

theorem Committed.last (h : Coherent analyze s)
    (hingested : Ingested quantizeBit4 analyze pushRow s.store s.sealedView documents progress)
    (hcommitted : Committed s.store progress ack next working segment framed generation stop) :
    ∃ d ∈ documents,∃ row,InRow next.active.segment s.sealedView d.version row ∧
      next.active.segment.sequences[row]? = some ack.seq ∧
      ack.seq.toNat+1 = next.first.toNat+next.log.length := by
  have hdeciding:=h.deciding hingested
  obtain ⟨-,hend,hsegment,hroom⟩ := hcommitted.sequenced h
  have hworking : progress.working.getD s.store.active.segment = working := by
    rw [hcommitted.working_eq]
    rfl
  obtain ⟨texts,hsound⟩ := hdeciding.sound
  have hlast:=hdeciding.last
  rw [hworking] at hsound hlast
  rcases eq_nil_or_concat progress.records with hnil | ⟨records,record,hrecords⟩
  · rw [← hdeciding.untouched,hcommitted.working_eq] at hnil
    cases hnil
  · rw [concat_eq_append] at hrecords
    obtain ⟨d,hd,hrow⟩ := hlast records record hrecords
    have hrows : framed.map Prod.fst = records.map Prod.fst++[record.1] := by
      rw [frameBatch_fst hcommitted.framed_eq,hrecords,map_append]
      rfl
    have hcount : framed.length = records.length+1 := by
      have hlengths:=congrArg List.length hrows
      rw [length_map,length_append,length_map] at hlengths
      exact hlengths
    have hstop:=commitMany_stop hcommitted.commit
    rw [length_map] at hstop
    have hlt : record.1 < (assignSequences working.sequences (numberedRows s.store.nextSeq
        (records.map Prod.fst))).length := by
      rw [assignSequences_length,hsound.sequences]
      exact (List.getElem?_eq_some_iff.mp hrow.docId).1
    have hack : ack.seq = s.store.nextSeq+BitVec.ofNat 64 records.length := by
      apply BitVec.eq_of_toNat_eq
      rw [hcommitted.ack_eq,add_ofNat_toNat (by omega),BitVec.toNat_ofNat,
        Nat.mod_eq_of_lt (by omega)]
      omega
    refine ⟨d,hd,record.1,⟨?_,?_,hrow.newest⟩,?_,?_⟩
    · rw [hsegment]
      exact hrow.docId
    · rw [hsegment]
      exact hrow.revision
    · rw [hsegment]
      dsimp only
      rw [hrows,numberedRows_concat,assignSequences_concat,getElem?_set_self hlt,
        length_map,hack]
    · rw [hack,add_ofNat_toNat (by omega)]
      omega

theorem Committed.answers (h : Coherent analyze s)
    (hack : s.store.ingest quantizeBit4 analyze pushRow s.sealedView documents = .ok (ack,next))
    (hingested : Ingested quantizeBit4 analyze pushRow s.store s.sealedView documents progress)
    (hcommitted : Committed s.store progress ack next working segment framed generation stop)
    (hone : OneRevision documents) :
    (∀ d ∈ documents,Settled next.active.segment s.sealedView d.version) ∧
      (∀ d ∈ documents,seqOf next.active.segment s.sealedView d.version.docId ≤ ack.seq) ∧
      ∃ d ∈ documents,seqOf next.active.segment s.sealedView d.version.docId = ack.seq := by
  have hdeciding:=h.deciding hingested
  obtain ⟨hfirst,-,hsegment,-⟩ := hcommitted.sequenced h
  have hworking : progress.working.getD s.store.active.segment = working := by
    rw [hcommitted.working_eq]
    rfl
  obtain ⟨texts,hsound⟩ := hdeciding.sound
  have hsettled:=hdeciding.settled hone
  rw [hworking] at hsound hsettled
  have hcoherent:=h.ingested s.sealedView.liveRevision hack
  obtain ⟨texts',hsound'⟩ := hcoherent.sound
  obtain ⟨last,hlast,row,hrow,hseq,hend⟩ := hcommitted.last h hingested
  have hall : ∀ d ∈ documents,Settled next.active.segment s.sealedView d.version := by
    intro d hd
    dsimp only at hsound'
    rw [hsegment] at hsound' ⊢
    exact (hsettled d hd).sequenced hsound hsound'
  refine ⟨hall,?_,last,hlast,?_⟩
  · intro d hd
    obtain ⟨resolved,hresolved,-⟩ := hall d hd
    have hanswer : seqOf next.active.segment s.sealedView d.version.docId = resolved.seq := by
      rw [seqOf,hresolved]
      rfl
    rw [hanswer,BitVec.le_def]
    rcases resolveRevision_seq hresolved with habsorbed | hmem
    · have hbefore:=hcoherent.absorbed
      dsimp only at hbefore
      rw [habsorbed]
      omega
    · have hlt:=hcoherent.sequences _ hmem
      dsimp only at hlt
      omega
  · rw [seqOf,hrow.resolve hsound' hseq]
    rfl

theorem addGeneration_ne (generation : U64) :
    addGeneration generation 1 ≠ .ok generation := by
  intro h
  have hunit : (1 : U64).toNat = 1 := rfl
  unfold addGeneration at h
  split at h
  · cases h
  · rename_i next hadd
    have hnat:=checkedAdd_eq_some hadd
    rw [Except.ok.inj h] at hnat
    omega

/-- A batch without conditions that was acknowledged can be repeated without a change, exactly where
it names no id at two revisions. -/
theorem retry_iff_oneRevision (hreached : Reached quantizeBit4 analyze pushRow s)
    (hfree : ∀ d ∈ documents,d.expectedRevision = none)
    (hack : s.store.ingest quantizeBit4 analyze pushRow s.sealedView documents = .ok (ack,next))
    (live : DocId → Option Revision) :
    next.ingest quantizeBit4 analyze pushRow { s.sealedView with liveRevision := live } documents =
      .ok (ack,next) ↔ OneRevision documents := by
  have hcoherent:=hreached.coherent
  have hnext:=hcoherent.ingested live hack
  obtain ⟨texts,hsound⟩ := hnext.sound
  have habsorbed:=hnext.absorbed
  dsimp only at hsound habsorbed
  have hpositive : 0 < next.first.toNat+next.log.length := by omega
  constructor
  · intro hretry
    obtain ⟨again,hagain,⟨huntouched,-,-,-⟩ | ⟨working,segment,framed,generation,stop,
      hcommitted⟩⟩ := ingest_ok hretry
    · exact oneRevision_of_settled (applyRevisions_untouched hpositive
        (.start hsound hnext.sequences) hagain.decided huntouched).2
    · -- a retry that writes has a new generation
      have hgeneration:=hcommitted.generation_eq
      have hsame : next.active.generation = generation :=
        congrArg (fun s => s.active.generation) hcommitted.next_eq
      rw [hsame] at hgeneration
      exact absurd hgeneration (addGeneration_ne generation)
  · intro hone
    obtain ⟨progress,hingested,houtcome⟩ := ingest_ok hack
    have hretry : ∀ seq,(∀ d ∈ documents,Settled next.active.segment s.sealedView d.version) →
        (replayAll next.active.segment s.sealedView documents .start).replaySeq = some seq →
        next.ingest quantizeBit4 analyze pushRow { s.sealedView with liveRevision := live }
          documents = .ok (⟨seq,next.active.generation⟩,next) := by
      intro seq hsettled hseq
      have hdecided : applyRevisions quantizeBit4 analyze next.active.segment
          { s.sealedView with liveRevision := live } documents .start =
          .ok (replayAll next.active.segment s.sealedView documents .start) :=
        applyRevisions_replays rfl hsettled
      exact ingest_replay ⟨hingested.nonempty,hingested.columns,hdecided⟩ hfree
        (replayAll_working _ _ _ _) hseq
    rcases houtcome with ⟨huntouched,hseq,hgeneration,rfl⟩ |
      ⟨working,segment,framed,generation,stop,hcommitted⟩
    · obtain ⟨texts',hsound'⟩ := hcoherent.sound
      have hsettled:=(applyRevisions_untouched hpositive
        (.start hsound' hcoherent.sequences) hingested.decided huntouched).2
      have hreplays:=hingested.decided.symm.trans (applyRevisions_replays rfl hsettled)
      rw [Except.ok.inj hreplays] at hseq
      rw [hretry ack.seq hsettled hseq,← hgeneration]
    · obtain ⟨hsettled,hle,hlast⟩ := hcommitted.answers hcoherent hack hingested hone
      rw [hretry ack.seq hsettled (replayAll_seq hle nofun (.inr hlast)),hcommitted.next_eq,
        hcommitted.ack_eq]

end Engine

def firstIngest (documents : List IngestDocument) : Except IngestError (IngestAck × LiveStore) :=
  (LiveStore.start 1 1).ingest quantizeZero (fun _ => []) (fun _ _ => .ok ()) nothingSealed documents

def repeated : List IngestDocument := [.new ⟨1,2⟩ [0],.new ⟨2,1⟩ [0],.new ⟨1,2⟩ [0]]

theorem retry_repeated : ∃ ack next,firstIngest repeated = .ok (ack,next) ∧
    next.ingest quantizeZero (fun _ => []) (fun _ _ => .ok ()) nothingSealed repeated =
      .ok (ack,next) := by
  have hok : (firstIngest repeated).isOk = true := by decide +kernel
  have hone : OneRevision repeated := by decide +kernel
  cases hack : firstIngest repeated with
  | error e =>
    rw [hack] at hok
    cases hok
  | ok result =>
    have hreached : Reached quantizeZero (fun _ => []) (fun _ _ => .ok ())
        ⟨.start 1 1,nothingSealed⟩ := .opened 1 (by decide)
    exact ⟨result.1,result.2,rfl,
      (retry_iff_oneRevision hreached (by decide +kernel) hack fun _ => none).mpr hone⟩

def raised : List IngestDocument := [.new ⟨1,1⟩ [0],.new ⟨1,2⟩ [0]]

theorem retry_raised_stale :
    ¬ ∀ (s : Served) (documents : List IngestDocument) (ack : IngestAck) (next : LiveStore),
      Reached quantizeZero (fun _ => []) (fun _ _ => .ok ()) s →
      (∀ d ∈ documents,d.expectedRevision = none) →
      s.store.ingest quantizeZero (fun _ => []) (fun _ _ => .ok ()) s.sealedView documents =
        .ok (ack,next) →
      next.ingest quantizeZero (fun _ => []) (fun _ _ => .ok ()) s.sealedView documents =
        .ok (ack,next) := by
  intro hclaim
  have hok : (firstIngest raised).isOk = true := by decide +kernel
  have hstale : (firstIngest raised >>= fun result => result.2.ingest quantizeZero (fun _ => [])
      (fun _ _ => .ok ()) nothingSealed raised) = .error (.staleRevision 1 2 1) := by
    decide +kernel
  cases hack : firstIngest raised with
  | error e =>
    rw [hack] at hok
    cases hok
  | ok result =>
    have hretry:=hclaim ⟨.start 1 1,nothingSealed⟩ raised result.1 result.2
      (.opened 1 (by decide)) (by decide +kernel) hack
    rw [hack,ok_bind] at hstale
    exact absurd (hstale.symm.trans hretry) nofun

end Zeppelin.Ingest
