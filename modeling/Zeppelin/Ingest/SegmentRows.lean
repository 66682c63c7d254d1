import Mathlib.Data.List.Induction
import Zeppelin.Ingest.ActiveSegment

namespace Zeppelin.Ingest
open Wal Fts List

theorem orOverflow_eq_ok {α : Type} {x : Option α} {a : α} (h : orOverflow x = .ok a) :
    x = some a := by
  cases x with
  | none => cases h
  | some b =>
    obtain rfl := Except.ok.inj h
    rfl

theorem require_eq_ok {holds : Prop} [Decidable holds] {error : StoreError} {u : Unit}
    (h : require holds error = .ok u) : holds := by
  unfold require at h
  split at h
  · assumption
  · cases h

namespace ActiveRows

theorem copy_concat (docIds : List DocId) (docId : DocId) :
    copy (docIds++[docId]) = (copy docIds).insert docId docIds.length := by
  simp [copy,zipIdx_append]

variable {docIds : List DocId} {docId : DocId}

theorem copy_eq_zipIdx (h : docIds.Nodup) : copy docIds = docIds.zipIdx := by
  induction docIds using List.reverseRecOn with
  | nil => rfl
  | append_singleton docIds docId ih =>
    obtain ⟨hnodup,hnot⟩ : docIds.Nodup ∧ docId ∉ docIds := by
      rw [nodup_append] at h
      exact ⟨h.1,fun hmem => h.2.2 docId hmem docId (by simp) rfl⟩
    have hnone : (docIds.zipIdx).lookup docId = none := by
      rw [lookup_eq_none_iff]
      intro entry hentry
      have hin : entry.1 ∈ docIds := (mem_zipIdx' hentry).2 ▸ getElem_mem _
      rw [bne_iff_ne]
      rintro rfl
      exact hnot hin
    rw [copy_concat,ih hnodup,insert,hnone,zipIdx_append]
    simp

theorem lookup_zipIdx (h : docIds.Nodup) {row : ℕ} (n : ℕ) :
    (docIds.zipIdx n).lookup docId = some row ↔ n ≤ row ∧ docIds[row-n]? = some docId := by
  induction docIds generalizing n with
  | nil => simp
  | cons first docIds ih =>
    obtain ⟨hnot,hnodup⟩ := nodup_cons.mp h
    rw [zipIdx_cons,lookup_cons]
    by_cases heq : docId = first
    · subst heq
      simp only [beq_self_eq_true,Option.some.injEq]
      constructor
      · rintro rfl
        simp
      · rintro ⟨hle,hget⟩
        by_contra hne
        obtain ⟨k,hk⟩ : ∃ k,row-n = k+1 := ⟨row-n-1,by omega⟩
        rw [hk,getElem?_cons_succ] at hget
        exact hnot (mem_of_getElem? hget)
    · have hbeq : (docId == first) = false := beq_false_of_ne heq
      rw [hbeq]
      simp only [ih hnodup]
      constructor
      · rintro ⟨hle,hget⟩
        refine ⟨by omega,?_⟩
        rw [show row-n = row-(n+1)+1 by omega,getElem?_cons_succ]
        exact hget
      · rintro ⟨hle,hget⟩
        cases hk : row-n with
        | zero =>
          rw [hk,getElem?_cons_zero] at hget
          exact absurd (Option.some.inj hget).symm heq
        | succ k =>
          rw [hk,getElem?_cons_succ] at hget
          exact ⟨by omega,by rw [show row-(n+1) = k by omega]; exact hget⟩

theorem lookup_copy (h : docIds.Nodup) {row : ℕ} :
    (copy docIds).lookup docId = some row ↔ docIds[row]? = some docId := by
  rw [copy_eq_zipIdx h,lookup_zipIdx h 0]
  simp

end ActiveRows

namespace ActiveSegment

section Quantizer
variable {quantizeBit4 : List U32 → Bytes → Except QuantError (Bytes × Bit4Factors)}
  {s next : ActiveSegment} {d : IngestDocument} {row : ℕ}

theorem appendedRow_ok (h : s.appendedRow d = .ok row) :
    row = s.docIds.length ∧ s.docIds.length < 2^32 := by
  unfold appendedRow at h
  obtain ⟨-,h⟩ := of_ite_error h
  obtain ⟨-,h⟩ := of_ite_error h
  split at h
  · rename_i hlt
    exact ⟨(Except.ok.inj h).symm,hlt⟩
  · cases h

structure Appends (s : ActiveSegment) (d : IngestDocument) (next : ActiveSegment) : Prop where
  rows_lt : s.docIds.length < 2^32
  docIds : next.docIds = s.docIds++[d.version.docId]
  rowIndex : next.rowIndex = s.rowIndex.insert d.version.docId s.docIds.length
  revisions : next.revisions = s.revisions++[d.version.revision]
  sequences : next.sequences = s.sequences++[0]
  text : (next.textPresent,next.texts) = s.appendText s.docIds.length d.text

theorem insertRowInPlace_ok (h : s.insertRowInPlace quantizeBit4 d = .ok (next,row)) :
    row = s.docIds.length ∧ next.lexical = s.lexical ∧ Appends s d next := by
  obtain ⟨taken,htaken,h⟩ := bind_eq_ok h
  obtain ⟨rfl,hlt⟩ := appendedRow_ok htaken
  obtain ⟨columns,-,h⟩ := bind_eq_ok h
  obtain ⟨-,-,h⟩ := bind_eq_ok h
  obtain ⟨⟨encoded,factor⟩,-,h⟩ := bind_eq_ok h
  obtain ⟨rfl,rfl⟩ := Prod.mk.inj (Except.ok.inj h)
  exact ⟨rfl,rfl,hlt,rfl,rfl,rfl,rfl,rfl⟩

theorem insertRowInPlace_with (lexical : SegmentIndex) (sequences : List LogSeq)
    (h : s.insertRowInPlace quantizeBit4 d = .ok (next,row)) :
    ActiveSegment.insertRowInPlace quantizeBit4 { s with lexical,sequences } d =
      .ok ({ next with lexical,sequences := sequences++[0] },row) := by
  obtain ⟨taken,htaken,h⟩ := bind_eq_ok h
  obtain ⟨columns,hcolumns,h⟩ := bind_eq_ok h
  obtain ⟨⟨⟩,hroom,h⟩ := bind_eq_ok h
  obtain ⟨⟨encoded,factor⟩,hquantize,h⟩ := bind_eq_ok h
  obtain ⟨rfl,rfl⟩ := Prod.mk.inj (Except.ok.inj h)
  have htaken' : ActiveSegment.appendedRow { s with lexical,sequences } d = .ok taken := htaken
  have hcolumns' : ActiveSegment.appendColumns { s with lexical,sequences } taken
      d.columns?.isSome d.columns = .ok columns := hcolumns
  simp only [insertRowInPlace,htaken',hcolumns',ok_bind,hroom,hquantize]
  rfl

structure Overwrites (s : ActiveSegment) (row : ℕ) (d : IngestDocument) (next : ActiveSegment) :
    Prop where
  row_lt : row < 2^32
  docIds : next.docIds = s.docIds.set row d.version.docId
  rowIndex : s.reindexRow row d.version.docId = .ok next.rowIndex
  revisions : next.revisions = s.revisions.set row d.version.revision
  sequences : next.sequences = s.sequences.set row 0
  text : s.replaceText row d.text = .ok (next.textPresent,next.texts)

theorem replaceRowInPlace_ok (h : s.replaceRowInPlace quantizeBit4 row d = .ok next) :
    next.lexical = s.lexical ∧ Overwrites s row d next := by
  obtain ⟨dims,-,h⟩ := bind_eq_ok h
  obtain ⟨-,-,h⟩ := bind_eq_ok h
  obtain ⟨rowIndex,hindex,h⟩ := bind_eq_ok h
  obtain ⟨-,-,h⟩ := bind_eq_ok h
  obtain ⟨metadata,-,h⟩ := bind_eq_ok h
  obtain ⟨text,htext,h⟩ := bind_eq_ok h
  obtain ⟨columns,-,h⟩ := bind_eq_ok h
  obtain ⟨-,-,h⟩ := bind_eq_ok h
  obtain ⟨-,-,h⟩ := bind_eq_ok h
  obtain ⟨⟨encoded,factor⟩,-,h⟩ := bind_eq_ok h
  obtain ⟨⟨⟩,hlast,rfl⟩ := bind_pure_eq_ok h
  exact ⟨rfl,(require_eq_ok hlast).2,rfl,hindex,rfl,rfl,htext⟩

theorem replaceRowInPlace_with (lexical : SegmentIndex) {sequences : List LogSeq}
    (hlen : sequences.length = s.sequences.length)
    (h : s.replaceRowInPlace quantizeBit4 row d = .ok next) :
    ActiveSegment.replaceRowInPlace quantizeBit4 { s with lexical,sequences } row d =
      .ok { next with lexical,sequences := sequences.set row 0 } := by
  obtain ⟨dims,hdims,h⟩ := bind_eq_ok h
  obtain ⟨⟨⟩,hsame,h⟩ := bind_eq_ok h
  obtain ⟨rowIndex,hindex,h⟩ := bind_eq_ok h
  obtain ⟨⟨⟩,hscalars,h⟩ := bind_eq_ok h
  obtain ⟨metadata,hmetadata,h⟩ := bind_eq_ok h
  obtain ⟨text,htext,h⟩ := bind_eq_ok h
  obtain ⟨columns,hcolumns,h⟩ := bind_eq_ok h
  obtain ⟨⟨⟩,hvectors,h⟩ := bind_eq_ok h
  obtain ⟨⟨⟩,hcodes,h⟩ := bind_eq_ok h
  obtain ⟨⟨encoded,factor⟩,hquantize,h⟩ := bind_eq_ok h
  obtain ⟨⟨⟩,hfactors,rfl⟩ := bind_pure_eq_ok h
  have hindex' : ActiveSegment.reindexRow { s with lexical,sequences } row d.version.docId =
      .ok rowIndex := hindex
  have htext' : ActiveSegment.replaceText { s with lexical,sequences } row d.text = .ok text :=
    htext
  have hcolumns' : ActiveSegment.replaceColumns { s with lexical,sequences } row
      d.columns?.isSome d.columns = .ok columns := hcolumns
  simp only [← hlen] at hscalars
  simp only [replaceRowInPlace,hdims,ok_bind,hsame,hindex',hscalars,hmetadata,htext',
    hcolumns',hvectors,hcodes,hquantize,hfactors]
  rfl

end Quantizer

end ActiveSegment

end Zeppelin.Ingest
