import Zeppelin.Ingest.ReplayTrails

namespace Zeppelin.Ingest
open Wal Fts ActiveSegment List

section Engine
variable {quantizeBit4 : List U32 → Bytes → Except QuantError (Bytes × Bit4Factors)}
  {analyze : String → List Token} {s next : ActiveSegment} {texts texts' : List (Option String)}
  {d : IngestDocument} {row : ℕ} {sealedView : SealedView}

structure Written (s : ActiveSegment) (d : IngestDocument) (next : ActiveSegment) (row : ℕ) :
    Prop where
  self : next.docIds[row]? = some d.version.docId ∧ next.revisions[row]? = some d.version.revision
  others : ∀ (docId : DocId) (other : ℕ),docId ≠ d.version.docId →
    (next.docIds[other]? = some docId ↔ s.docIds[other]? = some docId)
  kept : ∀ (docId : DocId) (other : ℕ),docId ≠ d.version.docId →
    s.docIds[other]? = some docId → next.revisions[other]? = s.revisions[other]? ∧
      next.sequences[other]? = s.sequences[other]?
  sequences : ∀ seq ∈ next.sequences,seq ∈ s.sequences ∨ seq = 0

theorem Written.append (hsound : s.Sound analyze texts) (happend : Appends s d next) :
    Written s d next s.docIds.length where
  self := by
    rw [happend.docIds,happend.revisions,getElem?_concat_length,← hsound.revisions,
      getElem?_concat_length]
    exact ⟨rfl,rfl⟩
  others := by
    intro docId other hne
    rw [happend.docIds]
    rcases Nat.lt_trichotomy other s.docIds.length with hlt | rfl | hgt
    · rw [getElem?_append_left hlt]
    · rw [getElem?_concat_length,getElem?_eq_none (Nat.le_refl _)]
      constructor
      · intro hsame
        exact absurd (Option.some.inj hsame).symm hne
      · nofun
    · rw [getElem?_eq_none (by rw [length_append,length_singleton]; omega),
        getElem?_eq_none hgt.le]
  kept := by
    intro docId other _ hother
    have hlt:=(List.getElem?_eq_some_iff.mp hother).1
    rw [happend.revisions,happend.sequences,
      getElem?_append_left (hsound.revisions.symm ▸ hlt),
      getElem?_append_left (hsound.sequences.symm ▸ hlt)]
    exact ⟨rfl,rfl⟩
  sequences := by
    intro seq hseq
    rw [happend.sequences,mem_append,mem_singleton] at hseq
    exact hseq

theorem Written.overwrite (hsound : s.Sound analyze texts)
    (hrow : s.rowIndex.lookup d.version.docId = some row) (hover : Overwrites s row d next) :
    Written s d next row where
  self := by
    rw [hsound.overwritten_ids hover hrow,hover.revisions]
    refine ⟨hsound.lookup.mp hrow,getElem?_set_self ?_⟩
    rw [hsound.revisions]
    exact (hsound.row hrow).1
  others := by
    intro docId other _
    rw [hsound.overwritten_ids hover hrow]
  kept := by
    intro docId other hne hother
    have hdiffer : row ≠ other := by
      rintro rfl
      rw [hsound.lookup.mp hrow] at hother
      exact hne (Option.some.inj hother).symm
    rw [hover.revisions,hover.sequences,getElem?_set_ne hdiffer,
      getElem?_set_ne hdiffer]
    exact ⟨rfl,rfl⟩
  sequences := by
    intro seq hseq
    rw [hover.sequences] at hseq
    exact mem_or_eq_of_mem_set hseq

theorem Writes.written (hwrites : Writes quantizeBit4 analyze s d next row)
    (hsound : s.Sound analyze texts) :
    ∃ texts',next.Sound analyze texts' ∧ Written s d next row := by
  cases hwrites with
  | insert new wrote =>
    obtain ⟨rows,hrows,hnext,hsound'⟩ := hsound.insertInPlace new wrote
    obtain ⟨rfl,-,happend⟩ := insertRowInPlace_ok hrows
    refine ⟨_,hsound',?_⟩
    rw [hnext]
    exact .append hsound ⟨happend.rows_lt,happend.docIds,happend.rowIndex,happend.revisions,
      happend.sequences,happend.text⟩
  | replace old document newer wrote =>
    obtain ⟨rows,hrows,hnext,hsound'⟩ := hsound.replaceInPlace old wrote
    obtain ⟨-,hover⟩ := replaceRowInPlace_ok hrows
    refine ⟨_,hsound',?_⟩
    rw [hnext]
    exact .overwrite hsound old ⟨hover.row_lt,hover.docIds,hover.rowIndex,hover.revisions,
      hover.sequences,hover.text⟩

variable {docId : DocId} {seq : LogSeq} {version : DocumentVersion}

theorem existing_eq_some (hsound : s.Sound analyze texts) {revision : Revision} :
    s.existing docId = some (row,⟨docId,revision⟩,seq) ↔
      s.docIds[row]? = some docId ∧ s.revisions[row]? = some revision ∧
        s.sequences[row]? = some seq := by
  constructor
  · intro h
    obtain ⟨found,hfound,h⟩ := Option.bind_eq_some_iff.mp h
    obtain ⟨version,hversion,h⟩ := Option.bind_eq_some_iff.mp h
    obtain ⟨found',hseq,h⟩ := Option.bind_eq_some_iff.mp h
    obtain ⟨rfl,hrest⟩ := Prod.mk.inj (Option.some.inj h)
    obtain ⟨rfl,rfl⟩ := Prod.mk.inj hrest
    obtain ⟨id,hid,hversion⟩ := Option.bind_eq_some_iff.mp hversion
    obtain ⟨found',hrevision,hversion⟩ := Option.bind_eq_some_iff.mp hversion
    obtain ⟨rfl,rfl⟩ := DocumentVersion.mk.inj (Option.some.inj hversion)
    exact ⟨hid,hrevision,hseq⟩
  · rintro ⟨hid,hrevision,hseq⟩
    rw [ActiveSegment.existing,hsound.lookup.mpr hid]
    simp only [Option.bind_eq_bind,Option.bind_some,ActiveSegment.document,hid,hrevision,hseq]
    rfl

theorem existing_cases (hsound : s.Sound analyze texts) (docId : DocId) :
    (docId ∉ s.docIds ∧ s.existing docId = none) ∨ ∃ row revision seq,
      s.existing docId = some (row,⟨docId,revision⟩,seq) := by
  cases hlookup : s.rowIndex.lookup docId with
  | none =>
    refine .inl ⟨hsound.not_mem hlookup,?_⟩
    rw [ActiveSegment.existing,hlookup]
    rfl
  | some row =>
    obtain ⟨-,revision,seq,-,hexisting⟩ := hsound.row hlookup
    exact .inr ⟨row,revision,seq,hexisting⟩

theorem Written.existing_of_ne (h : Written s d next row) (hsound : s.Sound analyze texts)
    (hsound' : next.Sound analyze texts') (hne : docId ≠ d.version.docId) :
    next.existing docId = s.existing docId := by
  rcases existing_cases hsound docId with ⟨hnot,hnone⟩ | ⟨other,revision,seq,hexisting⟩
  · rcases existing_cases hsound' docId with ⟨-,hnone'⟩ | ⟨other,revision,seq,hexisting⟩
    · rw [hnone,hnone']
    · have hid:=((existing_eq_some hsound').mp hexisting).1
      exact absurd (mem_of_getElem? ((h.others docId other hne).mp hid)) hnot
  · obtain ⟨hid,hrevision,hseq⟩ := (existing_eq_some hsound).mp hexisting
    obtain ⟨hrevisions,hsequences⟩ := h.kept docId other hne hid
    rw [hexisting]
    apply (existing_eq_some hsound').mpr
    exact ⟨(h.others docId other hne).mpr hid,hrevisions.trans hrevision,hsequences.trans hseq⟩

def Settled (s : ActiveSegment) (sealedView : SealedView) (version : DocumentVersion) : Prop :=
  ∃ resolved,resolveRevision s sealedView version.docId = some resolved ∧
    resolved.version.revision = version.revision

structure InRow (s : ActiveSegment) (sealedView : SealedView) (version : DocumentVersion) (row : ℕ) :
    Prop where
  docId : s.docIds[row]? = some version.docId
  revision : s.revisions[row]? = some version.revision
  newest : sealedView.AtMost version

theorem InRow.resolve (h : InRow s sealedView d.version row) (hsound : s.Sound analyze texts)
    (hseq : s.sequences[row]? = some seq) :
    resolveRevision s sealedView d.version.docId = some ⟨d.version,seq,some row⟩ := by
  have hexisting : s.existing d.version.docId = some (row,d.version,seq) :=
    (existing_eq_some hsound).mpr ⟨h.docId,h.revision,hseq⟩
  rw [resolveRevision_eq,hexisting]
  apply foldl_newer_settled
  intro version hversion
  obtain ⟨hmem,hid⟩ := mem_filter.mp hversion
  exact h.newest version hmem (of_decide_eq_true hid)

theorem InRow.settled (h : InRow s sealedView d.version row) (hsound : s.Sound analyze texts) :
    Settled s sealedView d.version := by
  have hlt : row < s.sequences.length := by
    rw [hsound.sequences]
    exact (List.getElem?_eq_some_iff.mp h.docId).1
  exact ⟨_,h.resolve hsound (getElem?_eq_getElem hlt),rfl⟩

theorem foldl_newer_revision {seq' : LogSeq} {activeRow activeRow' : Option ℕ}
    (versions : List DocumentVersion) : ∀ {start start' : Option ResolvedRevision},
    start.map (fun resolved => resolved.version.revision) =
      start'.map (fun resolved => resolved.version.revision) →
    (versions.foldl (ResolvedRevision.newer seq activeRow) start).map
        (fun resolved => resolved.version.revision) =
      (versions.foldl (ResolvedRevision.newer seq' activeRow') start').map
        fun resolved => resolved.version.revision := by
  induction versions with
  | nil => exact id
  | cons version versions ih =>
    intro start start' hstart
    rw [foldl_cons,foldl_cons]
    apply ih
    have hall : ∀ option : Option ResolvedRevision,
        (option.all fun current => version.revision > current.version.revision) =
          (option.map fun current => current.version.revision).all
            fun revision => version.revision > revision := by
      intro option
      cases option <;> rfl
    unfold ResolvedRevision.newer
    rw [hall start,hall start',hstart]
    split
    · rfl
    · exact hstart

theorem Settled.sequenced (h : Settled s sealedView version)
    (hsound : s.Sound analyze texts) {sequences : List LogSeq}
    (hsound' : ({ s with sequences } : ActiveSegment).Sound analyze texts') :
    Settled { s with sequences } sealedView version := by
  obtain ⟨resolved,hresolved,hrevision⟩ := h
  have hversion : (s.existing version.docId).map (fun found => found.2.1.revision) =
      (ActiveSegment.existing { s with sequences } version.docId).map
        fun found => found.2.1.revision := by
    rcases existing_cases hsound version.docId with ⟨hnot,hnone⟩ | ⟨row,revision,seq,hexisting⟩
    · rcases existing_cases hsound' version.docId with ⟨-,hnone'⟩ | ⟨row,revision,seq,hexisting⟩
      · rw [hnone,hnone']
      · exact absurd (mem_of_getElem? ((existing_eq_some hsound').mp hexisting).1) hnot
    · obtain ⟨hid,hrevision,-⟩ := (existing_eq_some hsound).mp hexisting
      have hlt:=(List.getElem?_eq_some_iff.mp hid).1
      have hseq : sequences[row]? = some (sequences.getD row 0) := by
        have hlength : row < sequences.length := hsound'.sequences.symm ▸ hlt
        rw [getD_eq_getElem?_getD,getElem?_eq_getElem hlength]
        rfl
      rw [hexisting,(existing_eq_some hsound').mpr ⟨hid,hrevision,hseq⟩]
      rfl
  have hsame : (resolveRevision s sealedView version.docId).map
        (fun resolved => resolved.version.revision) =
      (resolveRevision { s with sequences } sealedView version.docId).map
        fun resolved => resolved.version.revision := by
    rw [resolveRevision_eq,resolveRevision_eq]
    apply foldl_newer_revision
    rw [Option.map_map,Option.map_map]
    exact hversion
  rw [hresolved,Option.map_some] at hsame
  obtain ⟨other,hother,hequal⟩ := Option.map_eq_some_iff.mp hsame.symm
  exact ⟨other,hother,hequal.trans hrevision⟩

theorem Settled.written (h : Settled s sealedView version)
    (hwritten : Written s d next row) (hsound : s.Sound analyze texts)
    (hsound' : next.Sound analyze texts') (hne : version.docId ≠ d.version.docId) :
    Settled next sealedView version := by
  obtain ⟨resolved,hresolved,hrevision⟩ := h
  refine ⟨resolved,?_,hrevision⟩
  rw [resolveRevision_eq,hwritten.existing_of_ne hsound hsound' hne]
  exact hresolved

variable {current : ActiveSegment} {documents : List IngestDocument}
  {progress progress' : RevisionProgress} {bound : ℕ}

def OneRevision (documents : List IngestDocument) : Prop :=
  ∀ d ∈ documents,∀ e ∈ documents,d.version.docId = e.version.docId →
    d.version.revision = e.version.revision

instance (documents : List IngestDocument) : Decidable (OneRevision documents) :=
  inferInstanceAs (Decidable (∀ d ∈ documents,∀ e ∈ documents,
    d.version.docId = e.version.docId → d.version.revision = e.version.revision))

/-- What holds of a batch under way: `done` are the documents decided so far. -/
structure Deciding (analyze : String → List Token) (current : ActiveSegment)
    (sealedView : SealedView) (bound : ℕ) (done : List IngestDocument)
    (progress : RevisionProgress) : Prop where
  sound : ∃ texts,(progress.working.getD current).Sound analyze texts
  untouched : progress.working = none ↔ progress.records = []
  sequences : ∀ seq ∈ (progress.working.getD current).sequences,seq.toNat < bound
  settled : OneRevision done → ∀ d ∈ done,
    Settled (progress.working.getD current) sealedView d.version
  last : ∀ records record,progress.records = records++[record] → ∃ d ∈ done,
    InRow (progress.working.getD current) sealedView d.version record.1

theorem Deciding.start (hsound : current.Sound analyze texts)
    (hsequences : ∀ seq ∈ current.sequences,seq.toNat < bound) :
    Deciding analyze current sealedView bound [] .start where
  sound := ⟨texts,hsound⟩
  untouched := ⟨fun _ => rfl,fun _ => rfl⟩
  sequences := hsequences
  settled := nofun
  last := by
    intro records record h
    exact absurd h.symm (append_ne_nil_of_right_ne_nil _ (cons_ne_nil _ _))

variable {done : List IngestDocument}

theorem OneRevision.of_append {rest : List IngestDocument}
    (h : OneRevision (done++rest)) : OneRevision done :=
  fun d hd e he => h d (mem_append_left _ hd) e (mem_append_left _ he)

theorem Deciding.replayed
    (h : Deciding analyze current sealedView bound done progress) {seq : LogSeq}
    (hsettled : Settled (progress.working.getD current) sealedView d.version) :
    Deciding analyze current sealedView bound (done++[d]) (progress.replayed seq) where
  sound := h.sound
  untouched := h.untouched
  sequences := h.sequences
  settled := by
    intro hone e he
    rcases mem_append.mp he with he | he
    · exact h.settled hone.of_append e he
    · rw [mem_singleton.mp he]
      exact hsettled
  last := by
    intro records record hrecords
    obtain ⟨e,he,hrow⟩ := h.last records record hrecords
    exact ⟨e,mem_append_left _ he,hrow⟩

theorem Deciding.wrote (hpositive : 0 < bound)
    (h : Deciding analyze current sealedView bound done progress) {payload : Bytes}
    (hnewest : sealedView.AtMost d.version)
    (hwrote : Wrote quantizeBit4 analyze current d progress progress' row payload next) :
    Deciding analyze current sealedView bound (done++[d]) progress' := by
  obtain ⟨texts,hsound⟩ := h.sound
  obtain ⟨texts',hsound',hwritten⟩ := hwrote.writes.written hsound
  have hnext : progress'.working.getD current = next := by
    rw [hwrote.working]
    rfl
  have hrow : InRow next sealedView d.version row := ⟨hwritten.self.1,hwritten.self.2,hnewest⟩
  constructor
  · exact ⟨texts',hnext.symm ▸ hsound'⟩
  · rw [hwrote.working,hwrote.records]
    simp
  · rw [hnext]
    intro seq hseq
    rcases hwritten.sequences seq hseq with hold | rfl
    · exact h.sequences seq hold
    · exact hpositive
  · rw [hnext]
    intro hone e he
    by_cases hid : e.version.docId = d.version.docId
    · have hsame : e.version = d.version := by
        have hrevision:=hone e he d (mem_append_right _ (mem_singleton_self d)) hid
        cases hversion : e.version
        cases hversion' : d.version
        rw [hversion,hversion'] at hid hrevision
        dsimp only at hid hrevision
        rw [hid,hrevision]
      rw [hsame]
      exact hrow.settled hsound'
    · rcases mem_append.mp he with he | he
      · exact (h.settled hone.of_append e he).written hwritten hsound hsound' hid
      · exact absurd (congrArg (fun d => d.version.docId) (mem_singleton.mp he)) hid
  · rw [hnext]
    intro records record hrecords
    rw [hwrote.records] at hrecords
    obtain ⟨-,hlast⟩ := append_inj' hrecords rfl
    obtain rfl := head_eq_of_cons_eq hlast
    exact ⟨d,mem_append_right _ (mem_singleton_self d),hrow⟩

theorem Deciding.decide (hpositive : 0 < bound) {remaining : List IngestDocument}
    (h : Deciding analyze current sealedView bound done progress)
    (hdecide : applyRevisionDecision quantizeBit4 analyze current sealedView d remaining progress =
      .ok progress') : Deciding analyze current sealedView bound (done++[d]) progress' := by
  obtain ⟨texts,hsound⟩ := h.sound
  rcases applyRevisionDecision_ok hsound hdecide with ⟨resolved,hresolved,hrevision,rfl⟩ |
    ⟨hnewest,row,payload,next,hwrote⟩
  · exact h.replayed ⟨resolved,hresolved,hrevision⟩
  · exact h.wrote hpositive hnewest hwrote

theorem applyRevisions_deciding (hpositive : 0 < bound)
    (h : Deciding analyze current sealedView bound done progress)
    (happly : applyRevisions quantizeBit4 analyze current sealedView documents progress =
      .ok progress') :
    Deciding analyze current sealedView bound (done++documents) progress' := by
  induction documents generalizing progress done with
  | nil =>
    obtain rfl := Except.ok.inj happly
    rw [append_nil]
    exact h
  | cons d documents ih =>
    obtain ⟨middle,hone,hrest⟩ := bind_eq_ok happly
    have hall:=ih (h.decide hpositive hone) hrest
    rw [append_assoc,singleton_append] at hall
    exact hall

theorem applyRevisions_untouched (hpositive : 0 < bound)
    (h : Deciding analyze current sealedView bound done progress)
    (happly : applyRevisions quantizeBit4 analyze current sealedView documents progress =
      .ok progress') (huntouched : progress'.working = none) :
    progress.working = none ∧ ∀ d ∈ documents,Settled current sealedView d.version := by
  induction documents generalizing progress done with
  | nil =>
    obtain rfl := Except.ok.inj happly
    exact ⟨huntouched,nofun⟩
  | cons d documents ih =>
    obtain ⟨middle,hone,hrest⟩ := bind_eq_ok happly
    obtain ⟨hmiddle,hsettled⟩ := ih (h.decide hpositive hone) hrest
    obtain ⟨texts,hsound⟩ := h.sound
    rcases applyRevisionDecision_ok hsound hone with ⟨resolved,hresolved,hrevision,rfl⟩ |
      ⟨-,row,payload,next,hwrote⟩
    · have hnone : progress.working = none := hmiddle
      rw [hnone] at hresolved
      refine ⟨hnone,?_⟩
      intro e he
      rcases mem_cons.mp he with rfl | he
      · exact ⟨resolved,hresolved,hrevision⟩
      · exact hsettled e he
    · rw [hwrote.working] at hmiddle
      cases hmiddle

def seqOf (s : ActiveSegment) (sealedView : SealedView) (docId : DocId) : LogSeq :=
  ((resolveRevision s sealedView docId).map ResolvedRevision.seq).getD 0

def replayAll (s : ActiveSegment) (sealedView : SealedView) (documents : List IngestDocument)
    (progress : RevisionProgress) : RevisionProgress :=
  documents.foldl (fun progress d => progress.replayed (seqOf s sealedView d.version.docId)) progress

theorem applyRevisions_replays (hworking : progress.working = none)
    (hsettled : ∀ d ∈ documents,Settled current sealedView d.version) :
    applyRevisions quantizeBit4 analyze current sealedView documents progress =
      .ok (replayAll current sealedView documents progress) := by
  induction documents generalizing progress with
  | nil => rfl
  | cons d documents ih =>
    obtain ⟨resolved,hresolved,hrevision⟩ := hsettled d mem_cons_self
    have hdecision : applyRevisionDecision quantizeBit4 analyze current sealedView d
        (d::documents) progress = .ok (progress.replayed resolved.seq) := by
      have hsegment : progress.working.getD current = current := by
        rw [hworking]
        rfl
      unfold applyRevisionDecision
      dsimp only
      rw [hsegment,hresolved,Option.map_some,classifyRevision,hrevision,
        if_neg (BitVec.lt_irrefl _),if_pos rfl]
      rfl
    have hseq : seqOf current sealedView d.version.docId = resolved.seq := by
      rw [seqOf,hresolved]
      rfl
    have hnext : (progress.replayed resolved.seq).working = none := hworking
    rw [applyRevisions,hdecision,ok_bind,
      ih hnext fun e he => hsettled e (mem_cons_of_mem _ he),← hseq]
    rfl

theorem replayAll_working (s : ActiveSegment) (sealedView : SealedView)
    (documents : List IngestDocument) (progress : RevisionProgress) :
    (replayAll s sealedView documents progress).working = progress.working := by
  induction documents generalizing progress with
  | nil => rfl
  | cons d documents ih => exact ih _

theorem replayAll_seq {last : LogSeq}
    (hle : ∀ d ∈ documents,seqOf s sealedView d.version.docId ≤ last)
    (hprogress : ∀ seq,progress.replaySeq = some seq → seq ≤ last)
    (hlast : progress.replaySeq = some last ∨
      ∃ d ∈ documents,seqOf s sealedView d.version.docId = last) :
    (replayAll s sealedView documents progress).replaySeq = some last := by
  induction documents generalizing progress with
  | nil =>
    rcases hlast with hlast | ⟨d,hd,-⟩
    · exact hlast
    · cases hd
  | cons d documents ih =>
    have hfirst:=hle d mem_cons_self
    have hnext : ∀ seq,(progress.replayed (seqOf s sealedView d.version.docId)).replaySeq =
        some seq → seq ≤ last := by
      intro seq hseq
      rw [← Option.some.inj hseq]
      cases hold : progress.replaySeq with
      | none => exact hfirst
      | some old =>
        have hold:=BitVec.le_def.mp (hprogress old hold)
        rw [BitVec.le_def,Option.elim_some,maxWord_toNat]
        exact Nat.max_le.mpr ⟨hold,BitVec.le_def.mp hfirst⟩
    apply ih (fun e he => hle e (mem_cons_of_mem _ he)) hnext
    have hreached : (progress.replaySeq = some last ∨ seqOf s sealedView d.version.docId = last) →
        (progress.replayed (seqOf s sealedView d.version.docId)).replaySeq = some last := by
      intro hreached
      obtain ⟨seq,hseq⟩ : ∃ seq,
        (progress.replayed (seqOf s sealedView d.version.docId)).replaySeq = some seq := ⟨_,rfl⟩
      have hupper:=hnext seq hseq
      rw [hseq]
      congr 1
      apply BitVec.eq_of_toNat_eq
      apply Nat.le_antisymm (BitVec.le_def.mp hupper)
      rw [← Option.some.inj hseq]
      rcases hreached with hold | hnew
      · rw [hold,Option.elim_some,maxWord_toNat]
        exact Nat.le_max_left _ _
      · cases hold : progress.replaySeq with
        | none => rw [Option.elim_none,hnew]
        | some old =>
          rw [Option.elim_some,maxWord_toNat,hnew]
          exact Nat.le_max_right _ _
    rcases hlast with hold | ⟨e,he,hseq⟩
    · exact .inl (hreached (.inl hold))
    · rcases mem_cons.mp he with rfl | he
      · exact .inl (hreached (.inr hseq))
      · exact .inr ⟨e,he,hseq⟩

end Engine

end Zeppelin.Ingest
