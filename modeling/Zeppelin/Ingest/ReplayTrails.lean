import Zeppelin.Ingest.LiveStore
import Zeppelin.Ingest.SegmentText

namespace Zeppelin.Ingest
open Wal Fts List

def assignSequences (sequences : List LogSeq) (pending : List (ℕ × LogSeq)) : List LogSeq :=
  pending.foldl (fun sequences entry => sequences.set entry.1 entry.2) sequences

theorem assignSequences_concat (sequences : List LogSeq) (pending : List (ℕ × LogSeq))
    (entry : ℕ × LogSeq) : assignSequences sequences (pending++[entry]) =
      (assignSequences sequences pending).set entry.1 entry.2 := by
  rw [assignSequences,foldl_append]
  rfl

@[simp] theorem assignSequences_length (sequences : List LogSeq) (pending : List (ℕ × LogSeq)) :
    (assignSequences sequences pending).length = sequences.length := by
  induction pending generalizing sequences with
  | nil => rfl
  | cons entry pending ih =>
    rw [assignSequences,foldl_cons]
    exact (ih _).trans length_set

theorem assignSequences_append {sequences : List LogSeq} {pending : List (ℕ × LogSeq)}
    (h : ∀ entry ∈ pending,entry.1 < sequences.length) (more : List LogSeq) :
    assignSequences (sequences++more) pending = assignSequences sequences pending++more := by
  induction pending generalizing sequences with
  | nil => rfl
  | cons entry pending ih =>
    have hlt:=h entry (mem_cons_self ..)
    have hrest : assignSequences (sequences.set entry.1 entry.2++more) pending =
        assignSequences (sequences.set entry.1 entry.2) pending++more := ih fun e he => by
      rw [length_set]
      exact h e (mem_cons_of_mem _ he)
    simp only [assignSequences,foldl_cons] at hrest ⊢
    rw [set_append_left _ _ hlt,hrest]

theorem assignSequences_set (sequences : List LogSeq) (pending : List (ℕ × LogSeq)) (row : ℕ)
    (before after : LogSeq) :
    (assignSequences (sequences.set row before) pending).set row after =
      (assignSequences sequences pending).set row after := by
  induction pending generalizing sequences with
  | nil => exact set_set ..
  | cons entry pending ih =>
    simp only [assignSequences,foldl_cons] at ih ⊢
    by_cases hrow : entry.1 = row
    · rw [hrow,set_set]
    · rw [set_comm _ _ (Ne.symm hrow),ih]

def numberedRows : LogSeq → List ℕ → List (ℕ × LogSeq)
  | _,[] => []
  | seq,row::rows => (row,seq)::numberedRows (seq+1) rows

theorem setSequences_ok {seq : LogSeq} {rows : List ℕ} {s next : ActiveSegment}
    (h : setSequences seq rows s = .ok next) :
    next = { s with sequences := assignSequences s.sequences (numberedRows seq rows) } := by
  induction rows generalizing seq s with
  | nil =>
    obtain rfl := Except.ok.inj h
    rfl
  | cons row rows ih =>
    obtain ⟨one,hone,h⟩ := bind_eq_ok h
    unfold ActiveSegment.setSequence at hone
    split at hone
    · obtain rfl := Except.ok.inj hone
      rw [ih h]
      rfl
    · cases hone

structure Trails (r : ReplayState) (s : ActiveSegment) (pending : List (ℕ × LogSeq)) : Prop where
  segment : r.segment =
    { s with lexical := .new,sequences := assignSequences s.sequences pending }
  rows : r.rows = s.rowIndex
  pending_lt : ∀ entry ∈ pending,entry.1 < s.sequences.length

theorem Trails.start : Trails ⟨.empty,[],[]⟩ .empty [] := ⟨rfl,rfl,by simp⟩

section Engine
variable {quantizeBit4 : List U32 → Bytes → Except QuantError (Bytes × Bit4Factors)}
  {analyze : String → List Token} {r : ReplayState} {s next : ActiveSegment}
  {texts : List (Option String)} {pending : List (ℕ × LogSeq)} {d : IngestDocument} {row : ℕ}

theorem Trails.insert (h : Trails r s pending) (hsound : s.Sound analyze texts)
    (hnew : s.rowIndex.lookup d.version.docId = none)
    (hinsert : s.insertInPlace quantizeBit4 analyze d = .ok (next,row)) (seq : LogSeq) :
    ∃ r',(∀ op,replayUpsert quantizeBit4 seq op r d.persisted = .ok r') ∧
      Trails r' next (pending++[(row,seq)]) := by
  obtain ⟨rows,hrows,hnext,-⟩ := hsound.insertInPlace hnew hinsert
  obtain ⟨hrow,-,happend⟩ := ActiveSegment.insertRowInPlace_ok hrows
  have hreplay:=ActiveSegment.insertRowInPlace_with .new (assignSequences s.sequences pending) hrows
  rw [← h.segment] at hreplay
  have hsequences : next.sequences = s.sequences++[0] := by
    rw [hnext]
    exact happend.sequences
  have hin : row < (assignSequences s.sequences pending++[0]).length := by
    rw [length_append,assignSequences_length,hsound.sequences,hrow]
    exact Nat.lt_succ_self _
  have hseq : assignSequences next.sequences (pending++[(row,seq)]) =
      (assignSequences s.sequences pending++[0]).set row seq := by
    rw [assignSequences_concat,hsequences,assignSequences_append h.pending_lt]
  refine ⟨⟨{ rows with
      lexical := .new,sequences := (assignSequences s.sequences pending++[0]).set row seq },
    r.rows.insert d.version.docId row,
    r.sealedTombstones++[⟨d.version.docId,some d.version.revision⟩]⟩,?_,?_,?_,?_⟩
  · intro op
    have hlookup : r.rows.lookup d.persisted.version.docId = none := by
      rw [h.rows]
      exact hnew
    have hreplay' : r.segment.insertRowInPlace quantizeBit4 d.persisted = _ := hreplay
    simp only [replayUpsert,replayRow,hlookup,hreplay',Except.mapError,ok_bind,
      ActiveSegment.setSequence]
    simp only [pure,Except.pure,ok_bind,if_pos hin]
    rfl
  · rw [hseq,hnext]
  · rw [hnext,h.rows,hrow]
    exact happend.rowIndex.symm
  · intro entry hentry
    rw [hsequences,length_append,length_singleton]
    rcases mem_append.mp hentry with hentry | hentry
    · exact Nat.lt_succ_of_lt (h.pending_lt entry hentry)
    · rw [mem_singleton.mp hentry,hrow,hsound.sequences]
      exact Nat.lt_succ_self _

theorem Trails.replace (h : Trails r s pending) (hsound : s.Sound analyze texts)
    (hold : s.rowIndex.lookup d.version.docId = some row) {revision : Revision}
    (hdocument : s.document row = some ⟨d.version.docId,revision⟩)
    (hnewer : revision < d.version.revision)
    (hreplace : s.replaceInPlace quantizeBit4 analyze row d = .ok next) (seq : LogSeq) :
    ∃ r',(∀ op,replayUpsert quantizeBit4 seq op r d.persisted = .ok r') ∧
      Trails r' next (pending++[(row,seq)]) := by
  obtain ⟨rows,hrows,hnext,hsound'⟩ := hsound.replaceInPlace hold hreplace
  obtain ⟨-,hover⟩ := ActiveSegment.replaceRowInPlace_ok hrows
  have hreplay:=ActiveSegment.replaceRowInPlace_with .new
    (assignSequences_length s.sequences pending) hrows
  rw [← h.segment] at hreplay
  have hsequences : next.sequences = s.sequences.set row 0 := by
    rw [hnext]
    exact hover.sequences
  have hlt : row < s.sequences.length := by
    rw [hsound.sequences]
    exact (hsound.row hold).1
  have hin : row < ((assignSequences s.sequences pending).set row 0).length := by
    rw [length_set,assignSequences_length]
    exact hlt
  have hseq : assignSequences next.sequences (pending++[(row,seq)]) =
      ((assignSequences s.sequences pending).set row 0).set row seq := by
    rw [assignSequences_concat,hsequences,assignSequences_set,set_set]
  have hids : rows.docIds = s.docIds := hsound.overwritten_ids hover hold
  have hids' : next.docIds = s.docIds := (congrArg ActiveSegment.docIds hnext).trans hids
  have hindex : next.rowIndex = s.rowIndex := by
    rw [hsound'.rowIndex,hsound.rowIndex,hids']
  refine ⟨⟨{ rows with
      lexical := .new,sequences := ((assignSequences s.sequences pending).set row 0).set row seq },
    r.rows,r.sealedTombstones++[⟨d.version.docId,some d.version.revision⟩]⟩,?_,?_,?_,?_⟩
  · intro op
    have hlookup : r.rows.lookup d.persisted.version.docId = some row := by
      rw [h.rows]
      exact hold
    have hcurrent : r.segment.document row = some ⟨d.version.docId,revision⟩ := by
      rw [h.segment]
      exact hdocument
    have hnot : ¬ d.persisted.version.revision ≤ revision := BitVec.not_le.mpr hnewer
    have hreplay' : r.segment.replaceRowInPlace quantizeBit4 row d.persisted = _ := hreplay
    simp only [replayUpsert,replayRow,hlookup,hcurrent,if_neg hnot,hreplay',Except.mapError,
      ok_bind,ActiveSegment.setSequence]
    simp only [pure,Except.pure,ok_bind,if_pos hin]
    rfl
  · rw [hseq,hnext]
  · rw [hindex,h.rows]
  · intro entry hentry
    rw [hsequences,length_set]
    rcases mem_append.mp hentry with hentry | hentry
    · exact h.pending_lt entry hentry
    · rw [mem_singleton.mp hentry]
      exact hlt

theorem Trails.settle {seq : LogSeq} {rows : List ℕ} (h : Trails r s (numberedRows seq rows))
    (hset : setSequences seq rows s = .ok next) : Trails r next [] := by
  rw [setSequences_ok hset]
  exact ⟨h.segment,h.rows,by simp⟩

theorem setSequences_sound {seq : LogSeq} {rows : List ℕ} (hset : setSequences seq rows s = .ok next)
    (hsound : s.Sound analyze texts) : next.Sound analyze texts := by
  induction rows generalizing seq s with
  | nil =>
    obtain rfl := Except.ok.inj hset
    exact hsound
  | cons row rows ih =>
    obtain ⟨one,hone,hset⟩ := bind_eq_ok hset
    exact ih hset (hsound.setSequence hone)

def ResolvedRevision.newer (seq : LogSeq) (activeRow : Option ℕ)
    (resolved : Option ResolvedRevision) (version : DocumentVersion) : Option ResolvedRevision :=
  if resolved.all fun current => version.revision > current.version.revision then
    some ⟨version,seq,activeRow⟩
  else resolved

section Newer
variable (seq : LogSeq) (activeRow : Option ℕ)

theorem ResolvedRevision.newer_le (start : Option ResolvedRevision) (version : DocumentVersion) :
    ∃ best,newer seq activeRow start version = some best ∧
      version.revision ≤ best.version.revision ∧
      ∀ resolved,start = some resolved → resolved.version.revision ≤ best.version.revision := by
  unfold newer
  split
  · rename_i hnewer
    refine ⟨_,rfl,BitVec.le_refl _,?_⟩
    rintro resolved rfl
    simp only [Option.all_some,gt_iff_lt,decide_eq_true_eq] at hnewer
    exact BitVec.le_of_lt hnewer
  · rename_i hkept
    cases start with
    | none => simp at hkept
    | some resolved =>
      simp only [Option.all_some,gt_iff_lt,decide_eq_true_eq] at hkept
      refine ⟨resolved,rfl,BitVec.not_lt.mp hkept,?_⟩
      rintro other ⟨⟩
      exact BitVec.le_refl _

theorem foldl_newer_le (versions : List DocumentVersion) (resolved : ResolvedRevision) :
    ∃ best,versions.foldl (ResolvedRevision.newer seq activeRow) (some resolved) = some best ∧
      resolved.version.revision ≤ best.version.revision := by
  induction versions generalizing resolved with
  | nil => exact ⟨resolved,rfl,BitVec.le_refl _⟩
  | cons version versions ih =>
    obtain ⟨middle,hmiddle,-,hle⟩ := ResolvedRevision.newer_le seq activeRow (some resolved) version
    obtain ⟨best,hbest,hlater⟩ := ih middle
    refine ⟨best,?_,BitVec.le_trans (hle resolved rfl) hlater⟩
    rw [foldl_cons,hmiddle]
    exact hbest

theorem foldl_newer_newest (versions : List DocumentVersion) (start : Option ResolvedRevision) :
    ∀ version ∈ versions,∃ best,
      versions.foldl (ResolvedRevision.newer seq activeRow) start = some best ∧
        version.revision ≤ best.version.revision := by
  induction versions generalizing start with
  | nil => nofun
  | cons first versions ih =>
    intro version hversion
    rw [foldl_cons]
    rcases mem_cons.mp hversion with rfl | hversion
    · obtain ⟨middle,hmiddle,hle,-⟩ := ResolvedRevision.newer_le seq activeRow start version
      obtain ⟨best,hbest,hlater⟩ := foldl_newer_le seq activeRow versions middle
      exact ⟨best,hmiddle ▸ hbest,BitVec.le_trans hle hlater⟩
    · exact ih _ version hversion

theorem foldl_newer_row (versions : List DocumentVersion) (start : Option ResolvedRevision)
    (hstart : ∀ resolved,start = some resolved → resolved.activeRow = activeRow) :
    ∀ resolved,versions.foldl (ResolvedRevision.newer seq activeRow) start = some resolved →
      resolved.activeRow = activeRow := by
  induction versions generalizing start with
  | nil => exact hstart
  | cons version versions ih =>
    rw [foldl_cons]
    apply ih
    unfold ResolvedRevision.newer
    split
    · intro resolved hresolved
      rw [← Option.some.inj hresolved]
    · exact hstart

theorem foldl_newer_settled (versions : List DocumentVersion) (resolved : ResolvedRevision)
    (h : ∀ version ∈ versions,version.revision ≤ resolved.version.revision) :
    versions.foldl (ResolvedRevision.newer seq activeRow) (some resolved) = some resolved := by
  induction versions with
  | nil => rfl
  | cons version versions ih =>
    have hfirst:=h version mem_cons_self
    have hkept : ResolvedRevision.newer seq activeRow (some resolved) version = some resolved := by
      unfold ResolvedRevision.newer
      rw [if_neg]
      simp only [Option.all_some,gt_iff_lt,decide_eq_true_eq]
      exact BitVec.not_lt.mpr hfirst
    rw [foldl_cons,hkept]
    exact ih fun other hother => h other (mem_cons_of_mem _ hother)

end Newer

theorem resolveRevision_eq (s : ActiveSegment) (sealedView : SealedView) (docId : DocId) :
    resolveRevision s sealedView docId =
      (sealedView.versions.filter fun version => version.docId = docId).foldl
        (ResolvedRevision.newer sealedView.absorbedThrough
          ((s.existing docId).map fun found => found.1))
        ((s.existing docId).map fun found =>
          ⟨found.2.1,found.2.2,(s.existing docId).map fun found => found.1⟩) := rfl

theorem resolveRevision_newest (s : ActiveSegment) (sealedView : SealedView) (docId : DocId) :
    ∀ version ∈ sealedView.versions,version.docId = docId → ∃ best,
      resolveRevision s sealedView docId = some best ∧
        version.revision ≤ best.version.revision := by
  intro version hversion hid
  rw [resolveRevision_eq]
  apply foldl_newer_newest
  exact mem_filter.mpr ⟨hversion,decide_eq_true hid⟩

/-- How one document changes the segment: its id is new, or it is newer than the
row of its id. -/
inductive Writes (quantizeBit4 : List U32 → Bytes → Except QuantError (Bytes × Bit4Factors))
    (analyze : String → List Token) (s : ActiveSegment) (d : IngestDocument) (next : ActiveSegment)
    (row : ℕ) : Prop where
  | insert (new : s.rowIndex.lookup d.version.docId = none)
      (wrote : s.insertInPlace quantizeBit4 analyze d = .ok (next,row))
  | replace {revision : Revision} (old : s.rowIndex.lookup d.version.docId = some row)
      (document : s.document row = some ⟨d.version.docId,revision⟩)
      (newer : revision < d.version.revision)
      (wrote : s.replaceInPlace quantizeBit4 analyze row d = .ok next)

theorem Trails.write (h : Trails r s pending) (hsound : s.Sound analyze texts)
    (hwrites : Writes quantizeBit4 analyze s d next row) (seq : LogSeq) :
    ∃ r',(∀ op,replayUpsert quantizeBit4 seq op r d.persisted = .ok r') ∧
      Trails r' next (pending++[(row,seq)]) := by
  cases hwrites with
  | insert new wrote => exact h.insert hsound new wrote seq
  | replace old document newer wrote => exact h.replace hsound old document newer wrote seq

theorem Writes.sound (hwrites : Writes quantizeBit4 analyze s d next row)
    (hsound : s.Sound analyze texts) : ∃ texts',next.Sound analyze texts' := by
  cases hwrites with
  | insert new wrote =>
    obtain ⟨-,-,-,hnext⟩ := hsound.insertInPlace new wrote
    exact ⟨_,hnext⟩
  | replace old document newer wrote =>
    obtain ⟨-,-,-,hnext⟩ := hsound.replaceInPlace old wrote
    exact ⟨_,hnext⟩

theorem resolveRevision_spec (hsound : s.Sound analyze texts) (sealedView : SealedView)
    (docId : DocId) :
    (∀ resolved,resolveRevision s sealedView docId = some resolved →
      resolved.activeRow = s.rowIndex.lookup docId) ∧
    ∀ row,s.rowIndex.lookup docId = some row → ∃ revision best,
      s.document row = some ⟨docId,revision⟩ ∧
      resolveRevision s sealedView docId = some best ∧ revision ≤ best.version.revision := by
  rw [resolveRevision_eq]
  cases hlookup : s.rowIndex.lookup docId with
  | none =>
    have hexisting : s.existing docId = none := by
      rw [ActiveSegment.existing,hlookup]
      rfl
    rw [hexisting]
    exact ⟨foldl_newer_row _ _ _ _ fun _ hnone => (by cases hnone),
      fun _ hnone => (by cases hnone)⟩
  | some found =>
    obtain ⟨-,revision,seq,hdocument,hexisting⟩ := hsound.row hlookup
    rw [hexisting]
    constructor
    · apply foldl_newer_row
      intro resolved hresolved
      rw [← Option.some.inj hresolved]
    · rintro row ⟨⟩
      obtain ⟨best,hbest,hle⟩ := foldl_newer_le sealedView.absorbedThrough (some found)
        (sealedView.versions.filter fun version => version.docId = docId)
        ⟨⟨docId,revision⟩,seq,some found⟩
      exact ⟨revision,best,hdocument,hbest,hle⟩

variable {current : ActiveSegment} {sealedView : SealedView} {remaining : List IngestDocument}
  {progress progress' : RevisionProgress}

theorem workingCopy_ok (hsound : (progress.working.getD current).Sound analyze texts)
    (h : progress.workingCopy current d remaining = .ok s) : s = progress.working.getD current := by
  unfold RevisionProgress.workingCopy at h
  cases hworking : progress.working with
  | some working =>
    rw [hworking] at h
    exact (Except.ok.inj h).symm
  | none =>
    rw [hworking] at h hsound
    exact hsound.copyForBatch h

structure Wrote (quantizeBit4 : List U32 → Bytes → Except QuantError (Bytes × Bit4Factors))
    (analyze : String → List Token) (current : ActiveSegment) (d : IngestDocument)
    (progress progress' : RevisionProgress) (row : ℕ) (payload : Bytes) (next : ActiveSegment) :
    Prop where
  writes : Writes quantizeBit4 analyze (progress.working.getD current) d next row
  encoded : encodeUpsertV2 d = .ok payload
  working : progress'.working = some next
  records : progress'.records = progress.records++[(row,upsertV2,payload)]

theorem write_ok (hsound : (progress.working.getD current).Sound analyze texts) {target : Option ℕ}
    (htarget : target = (progress.working.getD current).rowIndex.lookup d.version.docId)
    (hnewer : ∀ row,target = some row → ∃ revision,
      (progress.working.getD current).document row = some ⟨d.version.docId,revision⟩ ∧
      revision < d.version.revision)
    (h : progress.write quantizeBit4 analyze current d remaining target = .ok progress') :
    ∃ row payload next,Wrote quantizeBit4 analyze current d progress progress' row payload next := by
  obtain ⟨working,hcopy,h⟩ := bind_eq_ok h
  obtain rfl := workingCopy_ok hsound hcopy
  obtain ⟨⟨next,row⟩,hwrite,h⟩ := bind_eq_ok h
  obtain ⟨payload,hpayload,rfl⟩ := bind_pure_eq_ok h
  refine ⟨row,payload,next,?_,mapError_eq_ok hpayload,rfl,rfl⟩
  cases target with
  | none => exact .insert htarget.symm hwrite
  | some old =>
    obtain ⟨segment,hreplace,hwrite⟩ := bind_eq_ok hwrite
    obtain ⟨rfl,rfl⟩ := Prod.mk.inj (Except.ok.inj hwrite)
    obtain ⟨revision,hdocument,hlt⟩ := hnewer old rfl
    exact .replace htarget.symm hdocument hlt hreplace

def RevisionProgress.replayed (progress : RevisionProgress) (seq : LogSeq) : RevisionProgress :=
  { progress with
    replaySeq := some (progress.replaySeq.elim seq fun current => maxWord current seq) }

def SealedView.AtMost (sealedView : SealedView) (version : DocumentVersion) : Prop :=
  ∀ other ∈ sealedView.versions,other.docId = version.docId → other.revision ≤ version.revision

theorem applyRevisionDecision_ok (hsound : (progress.working.getD current).Sound analyze texts)
    (h : applyRevisionDecision quantizeBit4 analyze current sealedView d remaining progress =
      .ok progress') :
    (∃ resolved,resolveRevision (progress.working.getD current) sealedView d.version.docId =
      some resolved ∧ resolved.version.revision = d.version.revision ∧
        progress' = progress.replayed resolved.seq) ∨
      sealedView.AtMost d.version ∧ ∃ row payload next,
        Wrote quantizeBit4 analyze current d progress progress' row payload next := by
  obtain ⟨hrow,hactive⟩ := resolveRevision_spec hsound sealedView d.version.docId
  have hnewest:=resolveRevision_newest (progress.working.getD current) sealedView d.version.docId
  simp only [applyRevisionDecision] at h
  cases hresolved : resolveRevision (progress.working.getD current) sealedView d.version.docId with
  | none =>
    rw [hresolved] at h
    refine .inr ⟨?_,write_ok hsound ?_ (by simp) h⟩
    · intro other hother hid
      obtain ⟨best,hbest,-⟩ := hnewest other hother hid
      rw [hresolved] at hbest
      cases hbest
    -- a row of the id would have been resolved
    cases hlookup : (progress.working.getD current).rowIndex.lookup d.version.docId with
    | none => rfl
    | some row =>
      obtain ⟨-,best,-,hbest,-⟩ := hactive row hlookup
      rw [hresolved] at hbest
      cases hbest
  | some resolved =>
    rw [hresolved] at h
    simp only [Option.map_some,classifyRevision,Option.bind_some] at h
    by_cases hless : d.version.revision < resolved.version.revision
    · rw [if_pos hless] at h
      cases h
    · rw [if_neg hless] at h
      by_cases hequal : d.version.revision = resolved.version.revision
      · rw [if_pos hequal] at h
        exact .inl ⟨resolved,rfl,hequal.symm,(Except.ok.inj h).symm⟩
      · rw [if_neg hequal] at h
        have hlater : resolved.version.revision ≤ d.version.revision := by
          have hnot : ¬ d.version.revision.toNat < resolved.version.revision.toNat := hless
          exact BitVec.le_def.mpr (Nat.le_of_not_lt hnot)
        have hatMost : sealedView.AtMost d.version := by
          intro other hother hid
          obtain ⟨best,hbest,hle⟩ := hnewest other hother hid
          rw [hresolved] at hbest
          obtain rfl := Option.some.inj hbest
          exact BitVec.le_trans hle hlater
        obtain ⟨written,hwrite,rfl⟩ := bind_pure_eq_ok h
        have hwrote:=write_ok hsound (hrow resolved hresolved) ?_ hwrite
        · obtain ⟨row,payload,next,hwrote⟩ := hwrote
          refine .inr ⟨hatMost,row,payload,next,hwrote.writes,hwrote.encoded,?_,?_⟩
          · unfold RevisionProgress.tombstoneSealed
            split
            · exact hwrote.working
            · exact hwrote.working
          · unfold RevisionProgress.tombstoneSealed
            split
            · exact hwrote.records
            · exact hwrote.records
        · intro row htarget
          rw [hrow resolved hresolved] at htarget
          obtain ⟨revision,best,hdocument,hbest,hle⟩ := hactive row htarget
          rw [hresolved] at hbest
          obtain rfl := Option.some.inj hbest
          refine ⟨revision,hdocument,BitVec.lt_def.mpr ?_⟩
          have h1:=BitVec.le_def.mp hle
          have h2 : ¬ d.version.revision.toNat < resolved.version.revision.toNat := hless
          have h3 : d.version.revision.toNat ≠ resolved.version.revision.toNat :=
            fun heq => hequal (BitVec.eq_of_toNat_eq heq)
          omega

def upsertSteps (op : U16) : LogSeq → List IngestDocument → List (LogSeq × U16 × ReplayStep)
  | _,[] => []
  | seq,d::ds => (seq,op,.upsert d.persisted)::upsertSteps op (seq+1) ds

def Encodes (record : ℕ × U16 × Bytes) (d : IngestDocument) : Prop :=
  record.2.1 = upsertV2 ∧ encodeUpsertV2 d = .ok record.2.2

theorem applyRevisions_trails {documents : List IngestDocument} (seq : LogSeq)
    (h : Trails r (progress.working.getD current) pending)
    (hsound : (progress.working.getD current).Sound analyze texts)
    (hworking : progress.working = none ↔ progress.records = [])
    (happly : applyRevisions quantizeBit4 analyze current sealedView documents progress =
      .ok progress') :
    ∃ records written r' texts',progress'.records = progress.records++records ∧
      List.Forall₂ Encodes records written ∧ (∀ d ∈ written,d ∈ documents) ∧
      (∀ op,(upsertSteps op seq written).foldlM (replayStep quantizeBit4) r = .ok r') ∧
      Trails r' (progress'.working.getD current)
        (pending++numberedRows seq (records.map Prod.fst)) ∧
      (progress'.working.getD current).Sound analyze texts' ∧
      (progress'.working = none ↔ progress'.records = []) := by
  induction documents generalizing progress r seq pending texts with
  | nil =>
    obtain rfl := Except.ok.inj happly
    exact ⟨[],[],r,texts,by simp,.nil,by simp,fun _ => rfl,by simpa [numberedRows] using h,
      hsound,hworking⟩
  | cons d documents ih =>
    obtain ⟨middle,hone,hrest⟩ := bind_eq_ok happly
    rcases applyRevisionDecision_ok hsound hone with ⟨resolved,-,-,hreplayed⟩ |
      ⟨-,row,payload,next,hwrote⟩
    · subst hreplayed
      have hsame : Trails r ((progress.replayed resolved.seq).working.getD current) pending := h
      obtain ⟨records,written,r',texts',h1,h2,h3,h4⟩ := ih seq hsame hsound hworking hrest
      exact ⟨records,written,r',texts',h1,h2,
        fun d hd => mem_cons_of_mem _ (h3 d hd),h4⟩
    · obtain ⟨r1,hreplay,htrails⟩ := h.write hsound hwrote.writes seq
      obtain ⟨texts1,hsound1⟩ := hwrote.writes.sound hsound
      have hnext : middle.working.getD current = next := by rw [hwrote.working]; rfl
      rw [← hnext] at htrails hsound1
      have hworking1 : middle.working = none ↔ middle.records = [] := by
        rw [hwrote.working,hwrote.records]
        simp
      obtain ⟨records,written,r',texts',h1,h2,h3,h4,h5,h6⟩ :=
        ih (seq+1) htrails hsound1 hworking1 hrest
      refine ⟨(row,upsertV2,payload)::records,d::written,r',texts',?_,
        .cons ⟨rfl,hwrote.encoded⟩ h2,?_,?_,?_,h6⟩
      · rw [h1,hwrote.records,append_assoc,singleton_append]
      · intro e he
        rcases mem_cons.mp he with rfl | he
        · exact mem_cons_self ..
        · exact mem_cons_of_mem _ (h3 e he)
      · intro op
        rw [upsertSteps,foldlM_cons]
        have hstep : replayStep quantizeBit4 r (seq,op,.upsert d.persisted) = .ok r1 := hreplay op
        rw [hstep,ok_bind,h4 op]
      · rw [append_assoc,singleton_append] at h5
        exact h5

theorem setSequence_rows {rows : List ℕ} {seq : LogSeq}
    (h : rows.foldlM (fun s row => ActiveSegment.setSequence s row seq) s = .ok next) :
    next = { s with sequences := assignSequences s.sequences (rows.map fun row => (row,seq)) } := by
  induction rows generalizing s with
  | nil =>
    obtain rfl := Except.ok.inj h
    rfl
  | cons row rows ih =>
    rw [foldlM_cons] at h
    obtain ⟨one,hone,h⟩ := bind_eq_ok h
    unfold ActiveSegment.setSequence at hone
    split at hone
    · obtain rfl := Except.ok.inj hone
      rw [ih h]
      rfl
    · cases hone

def Deleted (s : ActiveSegment) (seq : LogSeq) (seen : List DocId) (tombstones : List U32)
    (sequences : List LogSeq) : Prop :=
  ∀ docId ∈ seen,∀ row,s.rowIndex.lookup docId = some row →
    BitVec.ofNat 32 row ∈ tombstones ∧ sequences[row]? = some seq

theorem replayDeleteIds {docIds seen : List DocId} {seq : LogSeq} {tombstones after : List U32}
    {sequences : List LogSeq} (hsound : s.Sound analyze texts)
    (hlen : sequences.length = s.docIds.length)
    (hdeleted : Deleted s seq seen tombstones sequences)
    (hpush : ActiveSegment.pushTombstones (s.requestedRows seen docIds) tombstones = .ok after)
    (hrows : r.rows = s.rowIndex)
    (hsegment : r.segment = { s with lexical := .new,sequences,tombstones }) :
    docIds.foldlM (replayDeleteId seq) r = .ok { r with segment := { s with
      lexical := .new
      sequences := assignSequences sequences ((s.requestedRows seen docIds).map fun row => (row,seq))
      tombstones := after } } := by
  induction docIds generalizing seen tombstones sequences r with
  | nil =>
    obtain rfl := Except.ok.inj hpush
    rw [foldlM_nil,ActiveSegment.requestedRows,map_nil,assignSequences,foldl_nil,
      ← hsegment]
    rfl
  | cons docId docIds ih =>
    rw [foldlM_cons]
    cases hlookup : s.rowIndex.lookup docId with
    | none =>
      have hskip : replayDeleteId seq r docId = .ok r := by
        rw [replayDeleteId,hrows,hlookup]
      rw [hskip,ok_bind]
      by_cases hseen : docId ∈ seen
      · rw [ActiveSegment.requestedRows,if_pos hseen] at hpush ⊢
        exact ih hlen hdeleted hpush hrows hsegment
      · rw [ActiveSegment.requestedRows,if_neg hseen,hlookup,Option.toList_none,
          nil_append] at hpush ⊢
        refine ih hlen ?_ hpush hrows hsegment
        intro id hid row hrow
        rcases mem_cons.mp hid with rfl | hid
        · rw [hlookup] at hrow
          cases hrow
        · exact hdeleted id hid row hrow
    | some row =>
      have hlt:=(hsound.row hlookup).1
      have hfits : ¬ 2^32 ≤ row := by
        have := hsound.rows_le
        omega
      have hone : replayDeleteId seq r docId = .ok { r with segment := { s with
          lexical := .new
          sequences := sequences.set row seq
          tombstones := if tombstones.contains (BitVec.ofNat 32 row) then tombstones
            else tombstones++[BitVec.ofNat 32 row] } } := by
        have hin : row < sequences.length := by omega
        simp only [replayDeleteId,hrows,hlookup,if_neg hfits,hsegment,ActiveSegment.setSequence,
          if_pos hin,ok_bind]
        rfl
      rw [hone,ok_bind]
      by_cases hseen : docId ∈ seen
      · -- a repeated id changes nothing
        rw [ActiveSegment.requestedRows,if_pos hseen] at hpush ⊢
        obtain ⟨hmem,hseq⟩ := hdeleted docId hseen row hlookup
        have hsame : sequences.set row seq = sequences := by
          obtain ⟨hin,hget⟩ := List.getElem?_eq_some_iff.mp hseq
          rw [← hget,set_getElem_self]
        rw [hsame,if_pos (contains_iff_mem.mpr hmem)]
        exact ih hlen hdeleted hpush hrows rfl
      · rw [ActiveSegment.requestedRows,if_neg hseen,hlookup] at hpush ⊢
        simp only [Option.toList_some,singleton_append,ActiveSegment.pushTombstones,
          if_neg hfits] at hpush
        refine ih (by rw [length_set,hlen]) ?_ hpush hrows rfl
        intro id hid found hfound
        have hkept : ∀ mark,mark ∈ tombstones → mark ∈
            (if tombstones.contains (BitVec.ofNat 32 row) then tombstones
              else tombstones++[BitVec.ofNat 32 row]) := by
          intro mark hmark
          split
          · exact hmark
          · exact mem_append_left _ hmark
        rcases mem_cons.mp hid with rfl | hid
        · rw [hlookup] at hfound
          obtain rfl := Option.some.inj hfound
          refine ⟨?_,getElem?_set_self (hlen ▸ hlt)⟩
          split
          · rename_i hcontains
            exact contains_iff_mem.mp hcontains
          · exact mem_append_right _ (mem_singleton_self _)
        · obtain ⟨hmem,hseq⟩ := hdeleted id hid found hfound
          refine ⟨hkept _ hmem,?_⟩
          by_cases heq : row = found
          · rw [← heq]
            exact getElem?_set_self (hlen ▸ hlt)
          · rw [← hseq]
            exact getElem?_set_ne heq

theorem Trails.delete (h : Trails r s []) (hsound : s.Sound analyze texts) {docIds : List DocId}
    {rows : List ℕ} {seq : LogSeq} {op : U16} {final : ActiveSegment}
    (htombstone : s.tombstone docIds = .ok (next,rows))
    (hset : rows.foldlM (fun s row => ActiveSegment.setSequence s row seq) next = .ok final) :
    ∃ r',replayStep quantizeBit4 r (seq,op,.delete docIds) = .ok r' ∧ Trails r' final [] ∧
      final.Sound analyze texts := by
  obtain ⟨tombstones,hpush,htombstone⟩ := bind_eq_ok htombstone
  obtain ⟨rfl,rfl⟩ := Prod.mk.inj (Except.ok.inj htombstone)
  have hnone : Deleted s seq [] s.tombstones s.sequences := by simp [Deleted]
  have hdelete:=replayDeleteIds hsound hsound.sequences hnone hpush h.rows h.segment
  have hfinal:=setSequence_rows hset
  rw [← hsound.rowIndex] at hfinal
  have hlength : final.sequences.length = s.docIds.length := by
    rw [hfinal,← hsound.sequences]
    exact assignSequences_length _ _
  refine ⟨⟨{ final with lexical := .new },r.rows,
    r.sealedTombstones++docIds.map fun docId => ⟨docId,none⟩⟩,?_,⟨rfl,?_,by simp⟩,?_⟩
  · simp only [replayStep,hdelete,ok_bind,hfinal]
    rfl
  · rw [hfinal]
    exact h.rows
  · rw [hfinal] at hlength ⊢
    exact ⟨hsound.nodup,hsound.rowIndex,hsound.revisions,hlength,hsound.rows_le,
      hsound.textCount,hsound.stored,hsound.lexical⟩

end Engine

end Zeppelin.Ingest
