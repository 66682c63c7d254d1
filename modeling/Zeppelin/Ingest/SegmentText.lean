import Zeppelin.Fts.RowPostings
import Zeppelin.Ingest.SegmentRows

namespace Zeppelin.Ingest
open Wal Fts List

namespace ActiveSegment

def storedText (texts : List (Option String)) : List U8 × PackedRows U8 :=
  (texts.map fun text => flag text.isSome,.pack (texts.map textBytes))

def StoresText (stored : List U8 × PackedRows U8) (texts : List (Option String)) : Prop :=
  (stored = ([],.empty) ∧ ∀ text ∈ texts,text = none) ∨ (texts ≠ [] ∧ stored = storedText texts)

theorem pack_replicate_nil (n : ℕ) :
    (PackedRows.pack (List.replicate n []) : PackedRows U8) = ⟨List.replicate n 0,[]⟩ := by
  induction n with
  | zero => rfl
  | succ n ih =>
    rw [replicate_succ',PackedRows.pack_concat,ih,replicate_succ']
    rfl

theorem storedText_none {texts : List (Option String)} (h : ∀ text ∈ texts,text = none) :
    storedText texts = (List.replicate texts.length 0,⟨List.replicate texts.length 0,[]⟩) := by
  obtain ⟨n,rfl⟩ : ∃ n,texts = List.replicate n none := ⟨_,eq_replicate_of_mem h⟩
  simp only [storedText,map_replicate,length_replicate,Option.isSome_none,textBytes,
    Option.map_none,Option.getD_none,pack_replicate_nil]
  rfl

section Stored
variable {s : ActiveSegment} {texts : List (Option String)}

theorem StoresText.tracksText (h : StoresText (s.textPresent,s.texts) texts) :
    s.tracksText = true ↔ texts ≠ [] ∧ (s.textPresent,s.texts) = storedText texts := by
  constructor
  · intro htracked
    rcases h with ⟨hempty,-⟩ | h
    · rw [ActiveSegment.tracksText,(Prod.mk.inj hempty).1] at htracked
      cases htracked
    · exact h
  · rintro ⟨hne,hstored⟩
    rw [ActiveSegment.tracksText,(Prod.mk.inj hstored).1]
    cases texts with
    | nil => exact absurd rfl hne
    | cons text texts => rfl

theorem StoresText.padText (h : StoresText (s.textPresent,s.texts) texts) :
    s.padText texts.length = storedText texts := by
  unfold ActiveSegment.padText
  split
  · rename_i htracked
    exact (h.tracksText.mp htracked).2
  · rename_i huntracked
    rcases h with ⟨hempty,hnone⟩ | hstored
    · obtain ⟨hpresent,hitems⟩ := Prod.mk.inj hempty
      rw [hpresent,hitems,storedText_none hnone]
      rfl
    · exact absurd (StoresText.tracksText (.inr hstored) |>.mpr hstored) huntracked

theorem StoresText.untracked (h : StoresText (s.textPresent,s.texts) texts)
    (huntracked : ¬ s.tracksText = true) :
    (s.textPresent,s.texts) = ([],.empty) ∧ ∀ text ∈ texts,text = none := by
  rcases h with h | h
  · exact h
  · exact absurd (StoresText.tracksText (.inr h) |>.mpr h) huntracked

theorem storedText_concat (text : Option String) :
    storedText (texts++[text]) =
      ((storedText texts).1++[flag text.isSome],(storedText texts).2.push (textBytes text)) := by
  simp only [storedText,map_append,map_cons,map_nil,PackedRows.pack_concat]

theorem StoresText.append (h : StoresText (s.textPresent,s.texts) texts) (text : Option String) :
    StoresText (s.appendText texts.length text) (texts++[text]) := by
  unfold ActiveSegment.appendText
  split
  · rename_i hnone
    rw [Bool.and_eq_true,Bool.not_eq_true',Option.isNone_iff_eq_none] at hnone
    obtain ⟨hempty,hall⟩ := h.untracked (by rw [hnone.1]; exact Bool.false_ne_true)
    refine .inl ⟨hempty,?_⟩
    intro t ht
    rcases mem_append.mp ht with ht | ht
    · exact hall t ht
    · rw [mem_singleton.mp ht,hnone.2]
  · refine .inr ⟨by simp,?_⟩
    rw [h.padText,storedText_concat]

theorem StoresText.replace (h : StoresText (s.textPresent,s.texts) texts)
    (hlen : texts.length = s.docIds.length) {row : ℕ} {text : Option String}
    {stored : List U8 × PackedRows U8} (hreplace : s.replaceText row text = .ok stored) :
    row < texts.length ∧ StoresText stored (texts.set row text) := by
  unfold ActiveSegment.replaceText at hreplace
  obtain ⟨hrow,hreplace⟩ := of_ite_error hreplace
  have hlt : row < texts.length := by
    rw [hlen]
    exact Nat.lt_of_not_le hrow
  refine ⟨hlt,?_⟩
  split at hreplace
  · rename_i hnone
    rw [Bool.and_eq_true,Bool.not_eq_true',Option.isNone_iff_eq_none] at hnone
    obtain rfl := Except.ok.inj hreplace
    obtain ⟨hempty,hall⟩ := h.untracked (by rw [hnone.1]; exact Bool.false_ne_true)
    refine .inl ⟨hempty,?_⟩
    intro t ht
    rcases mem_or_eq_of_mem_set ht with ht | rfl
    · exact hall t ht
    · exact hnone.2
  · have hpad : s.padText s.rowCount = storedText texts := by
      rw [ActiveSegment.rowCount,← hlen,h.padText]
    rw [hpad] at hreplace
    obtain ⟨packed,hpacked,hreplace⟩ := bind_eq_ok hreplace
    obtain ⟨-,-,rfl⟩ := bind_pure_eq_ok hreplace
    have hset:=PackedRows.replaceRow_set (texts.map textBytes) (i := row) (by simpa using hlt)
      (textBytes text)
    rw [storedText,hset] at hpacked
    obtain rfl := Option.some.inj (orOverflow_eq_ok hpacked)
    refine .inr ⟨fun hnil => ?_,?_⟩
    · have hzero:=congrArg List.length hnil
      rw [length_set,length_nil] at hzero
      omega
    · simp only [storedText,map_set]

theorem StoresText.text (h : StoresText (s.textPresent,s.texts) texts)
    (hlen : texts.length = s.docIds.length) {row : ℕ} {text : Option String}
    (hrow : texts[row]? = some text) : s.text row = .ok text := by
  have hlt : row < texts.length := (List.getElem?_eq_some_iff.mp hrow).1
  have hin : ¬ s.rowCount ≤ row := by
    rw [ActiveSegment.rowCount,← hlen]
    omega
  unfold ActiveSegment.text
  rw [if_neg hin]
  by_cases htracked : s.tracksText = true
  · obtain ⟨-,hstored⟩ := h.tracksText.mp htracked
    obtain ⟨hpresent,hitems⟩ := Prod.mk.inj hstored
    have hbytes : s.texts.rowItems row = some (textBytes text) := by
      rw [hitems,PackedRows.rowItems_getElem,getElem?_map,hrow]
      rfl
    have hflag : s.textPresent[row]? = some (flag text.isSome) := by
      rw [hpresent,getElem?_map,hrow]
      rfl
    simp only [htracked,Bool.not_true,Bool.false_eq_true,if_false,hbytes,hflag]
    cases text with
    | none => rfl
    | some text => simp [flag,textBytes]
  · obtain ⟨-,hall⟩ := h.untracked htracked
    rw [Bool.not_eq_true] at htracked
    simp only [htracked,Bool.not_false,if_true]
    rw [hall text (mem_of_getElem? hrow)]

end Stored

section Lexical
variable (analyze : String → List Token)

def textTerms (text : Option String) : RowTerms := documentTerms analyze (lexicalDocument text)

theorem lexicalDocument_distinct (text : Option String) : (lexicalDocument text).Distinct := by
  cases text <;> simp [lexicalDocument,Document.Distinct,Document.new,Document.withText]

theorem pushDocument_indexes {index next : SegmentIndex} {rows : List RowTerms}
    (h : Indexes index rows) (hlt : rows.length < 2^32) {text : Option String}
    (hnext : index.pushDocument analyze (lexicalDocument text) = .ok next) :
    Indexes next (rows++[textTerms analyze text]) := by
  obtain ⟨pushed,hpushed,hindexes⟩ := h.push analyze hlt (lexicalDocument_distinct text)
  rw [hpushed] at hnext
  rwa [← Except.ok.inj hnext]

theorem pushEmptyRows_indexes {index next : SegmentIndex} {rows : List RowTerms} {n : ℕ}
    (h : Indexes index rows) (hle : rows.length+n ≤ 2^32)
    (hnext : pushEmptyRows analyze n index = .ok next) :
    Indexes next (rows++List.replicate n (textTerms analyze none)) := by
  induction n generalizing index rows with
  | zero =>
    obtain rfl := Except.ok.inj hnext
    simpa using h
  | succ n ih =>
    obtain ⟨pushed,hpushed,hnext⟩ := bind_eq_ok hnext
    have hone : Indexes pushed (rows++[textTerms analyze none]) :=
      pushDocument_indexes analyze h (by omega) hpushed
    have hrest:=ih hone (by simp; omega) hnext
    rwa [append_assoc,singleton_append,← replicate_succ] at hrest

def IndexesText (s : ActiveSegment) (texts : List (Option String)) : Prop :=
  if s.tracksText then Indexes s.lexical (texts.map (textTerms analyze)) else s.lexical = .new

theorem rebuildLexicalFrom_indexes {s : ActiveSegment} {texts : List (Option String)}
    (hstored : StoresText (s.textPresent,s.texts) texts) (hlen : texts.length = s.docIds.length)
    (hle : texts.length ≤ 2^32) (before after : List (Option String)) {lexical : SegmentIndex}
    (hsplit : texts = before++after)
    (h : Indexes lexical (before.map (textTerms analyze))) :
    ∃ next,s.rebuildLexicalFrom analyze after.length before.length lexical = .ok next ∧
      Indexes next (texts.map (textTerms analyze)) := by
  induction after generalizing before lexical with
  | nil =>
    rw [append_nil] at hsplit
    exact ⟨lexical,rfl,hsplit ▸ h⟩
  | cons text after ih =>
    have hrow : texts[before.length]? = some text := by
      rw [hsplit,getElem?_append_right (Nat.le_refl _),Nat.sub_self,getElem?_cons_zero]
    have hcount:=congrArg List.length hsplit
    rw [length_append,length_cons] at hcount
    obtain ⟨pushed,hpushed,hindexes⟩ := h.push analyze (by rw [length_map]; omega)
      (lexicalDocument_distinct text)
    obtain ⟨next,hnext,hfinal⟩ := ih (before++[text]) (by simpa using hsplit)
      (by rw [map_append]; exact hindexes)
    refine ⟨next,?_,hfinal⟩
    rw [length_append,length_singleton] at hnext
    simp only [length_cons,rebuildLexicalFrom,hstored.text hlen hrow,Except.mapError,ok_bind,
      hpushed]
    exact hnext

theorem rebuildLexical_indexes {s : ActiveSegment} {texts : List (Option String)}
    (hstored : StoresText (s.textPresent,s.texts) texts) (hlen : texts.length = s.docIds.length)
    (hle : texts.length ≤ 2^32) :
    ∃ next,s.rebuildLexical analyze = .ok next ∧
      Indexes next (texts.map (textTerms analyze)) := by
  have h:=rebuildLexicalFrom_indexes analyze hstored hlen hle [] texts rfl Indexes.new
  rwa [hlen] at h

structure Sound (s : ActiveSegment) (texts : List (Option String)) : Prop where
  nodup : s.docIds.Nodup
  rowIndex : s.rowIndex = .copy s.docIds
  revisions : s.revisions.length = s.docIds.length
  sequences : s.sequences.length = s.docIds.length
  rows_le : s.docIds.length ≤ 2^32
  textCount : texts.length = s.docIds.length
  stored : StoresText (s.textPresent,s.texts) texts
  lexical : IndexesText analyze s texts

theorem Sound.empty : Sound analyze .empty [] where
  nodup := nodup_nil
  rowIndex := rfl
  revisions := rfl
  sequences := rfl
  rows_le := Nat.zero_le _
  textCount := rfl
  stored := .inl ⟨rfl,by simp⟩
  lexical := rfl

variable {analyze} {s : ActiveSegment} {texts : List (Option String)} (h : Sound analyze s texts)
include h

theorem Sound.lookup {docId : DocId} {row : ℕ} :
    s.rowIndex.lookup docId = some row ↔ s.docIds[row]? = some docId := by
  rw [h.rowIndex]
  exact ActiveRows.lookup_copy h.nodup

theorem Sound.not_mem {docId : DocId} (hnone : s.rowIndex.lookup docId = none) :
    docId ∉ s.docIds := by
  intro hmem
  obtain ⟨row,hrow⟩ := mem_iff_getElem?.mp hmem
  rw [h.lookup.mpr hrow] at hnone
  cases hnone

theorem Sound.row {docId : DocId} {row : ℕ} (hrow : s.rowIndex.lookup docId = some row) :
    row < s.docIds.length ∧ ∃ revision seq,s.document row = some ⟨docId,revision⟩ ∧
      s.existing docId = some (row,⟨docId,revision⟩,seq) := by
  have hget:=h.lookup.mp hrow
  have hlt:=(List.getElem?_eq_some_iff.mp hget).1
  obtain ⟨revision,hrevision⟩ : ∃ revision,s.revisions[row]? = some revision :=
    ⟨_,getElem?_eq_getElem (by rw [h.revisions]; exact hlt)⟩
  obtain ⟨seq,hseq⟩ : ∃ seq,s.sequences[row]? = some seq :=
    ⟨_,getElem?_eq_getElem (by rw [h.sequences]; exact hlt)⟩
  have hdocument : s.document row = some ⟨docId,revision⟩ := by
    rw [ActiveSegment.document,hget,hrevision]
    rfl
  refine ⟨hlt,revision,seq,hdocument,?_⟩
  rw [ActiveSegment.existing,hrow]
  simp only [Option.bind_eq_bind,Option.bind_some,hdocument,hseq]
  rfl

theorem Sound.copyForBatch {d : IngestDocument} {remaining : List IngestDocument}
    {next : ActiveSegment} (hcopy : s.copyForBatch d remaining = .ok next) : next = s := by
  obtain ⟨⟨⟩,-,rfl⟩ := bind_pure_eq_ok hcopy
  rw [← h.rowIndex]

theorem Sound.setSequence {row : ℕ} {seq : LogSeq} {next : ActiveSegment}
    (hset : s.setSequence row seq = .ok next) : Sound analyze next texts := by
  unfold ActiveSegment.setSequence at hset
  split at hset
  · obtain rfl := Except.ok.inj hset
    exact ⟨h.nodup,h.rowIndex,h.revisions,by simp only [length_set]; exact h.sequences,
      h.rows_le,h.textCount,h.stored,h.lexical⟩
  · cases hset

theorem Sound.appended {d : IngestDocument} {next : ActiveSegment} (happend : Appends s d next)
    (hnew : s.rowIndex.lookup d.version.docId = none)
    (hlexical : IndexesText analyze next (texts++[d.text])) :
    Sound analyze next (texts++[d.text]) where
  nodup := by
    rw [happend.docIds,nodup_append]
    refine ⟨h.nodup,nodup_singleton _,?_⟩
    intro a ha b hb
    rw [mem_singleton.mp hb]
    rintro rfl
    exact h.not_mem hnew ha
  rowIndex := by rw [happend.rowIndex,happend.docIds,ActiveRows.copy_concat,h.rowIndex]
  revisions := by rw [happend.revisions,happend.docIds,length_append,length_append,
    h.revisions,length_singleton,length_singleton]
  sequences := by rw [happend.sequences,happend.docIds,length_append,length_append,
    h.sequences,length_singleton,length_singleton]
  rows_le := by
    have hlt:=happend.rows_lt
    rw [happend.docIds,length_append,length_singleton]
    omega
  textCount := by rw [happend.docIds,length_append,length_append,h.textCount,
    length_singleton,length_singleton]
  stored := by
    rw [happend.text,← h.textCount]
    exact h.stored.append d.text
  lexical := hlexical

theorem Sound.overwritten_ids {row : ℕ} {d : IngestDocument} {next : ActiveSegment}
    (hover : Overwrites s row d next) (hrow : s.rowIndex.lookup d.version.docId = some row) :
    next.docIds = s.docIds := by
  obtain ⟨hlt,hid⟩ := List.getElem?_eq_some_iff.mp (h.lookup.mp hrow)
  rw [hover.docIds,← hid,set_getElem_self]

theorem Sound.overwritten {row : ℕ} {d : IngestDocument} {next : ActiveSegment}
    (hover : Overwrites s row d next) (hrow : s.rowIndex.lookup d.version.docId = some row)
    (hlexical : IndexesText analyze next (texts.set row d.text)) :
    Sound analyze next (texts.set row d.text) := by
  have hget:=h.lookup.mp hrow
  have hids:=h.overwritten_ids hover hrow
  have hindex : next.rowIndex = s.rowIndex := by
    have hreindex:=hover.rowIndex
    rw [reindexRow,hget] at hreindex
    simp only [orOverflow,ok_bind] at hreindex
    exact (Except.ok.inj hreindex).symm
  have hstored:=h.stored.replace h.textCount hover.text
  refine ⟨?_,?_,?_,?_,?_,?_,hstored.2,hlexical⟩
  · rw [hids]; exact h.nodup
  · rw [hids,hindex,h.rowIndex]
  · rw [hids,hover.revisions,length_set,h.revisions]
  · rw [hids,hover.sequences,length_set,h.sequences]
  · rw [hids]; exact h.rows_le
  · rw [hids,length_set,h.textCount]

theorem Sound.padded {lexical : SegmentIndex}
    (hpad : pushEmptyRows analyze (if s.tracksText then 0 else s.docIds.length) s.lexical =
      .ok lexical) : Indexes lexical (texts.map (textTerms analyze)) := by
  have hlexical:=h.lexical
  unfold IndexesText at hlexical
  split at hpad
  · rename_i htracked
    rw [if_pos htracked] at hlexical
    obtain rfl := Except.ok.inj hpad
    exact hlexical
  · rename_i huntracked
    rw [if_neg huntracked] at hlexical
    rw [hlexical] at hpad
    have hrows:=h.rows_le
    have hpushed:=pushEmptyRows_indexes analyze Indexes.new (by simpa using hrows) hpad
    have hnone:=(h.stored.untracked huntracked).2
    rw [eq_replicate_of_mem hnone,map_replicate,h.textCount]
    simpa using hpushed

section Quantizer
variable {quantizeBit4 : List U32 → Bytes → Except QuantError (Bytes × Bit4Factors)}
  {d : IngestDocument} {next : ActiveSegment} {row : ℕ}

omit h in
theorem Appends.tracksText (happend : Appends s d next) :
    next.tracksText = (s.tracksText || d.text.isSome) := by
  have hpresent : next.textPresent = (s.appendText s.docIds.length d.text).1 :=
    congrArg Prod.fst happend.text
  rw [ActiveSegment.tracksText,hpresent]
  unfold ActiveSegment.appendText
  split
  · rename_i hnone
    rw [Bool.and_eq_true,Bool.not_eq_true',Option.isNone_iff_eq_none] at hnone
    rw [hnone.1,hnone.2]
    exact hnone.1
  · rename_i hsome
    cases htracks : s.tracksText <;> cases htext : d.text <;> simp_all

theorem Sound.insertInPlace (hnew : s.rowIndex.lookup d.version.docId = none)
    (hinsert : s.insertInPlace quantizeBit4 analyze d = .ok (next,row)) :
    ∃ rows : ActiveSegment,s.insertRowInPlace quantizeBit4 d = .ok (rows,row) ∧
      next = { rows with lexical := next.lexical } ∧ Sound analyze next (texts++[d.text]) := by
  obtain ⟨⟨⟩,-,hinsert⟩ := bind_eq_ok hinsert
  obtain ⟨⟨rows,taken⟩,hrows,hinsert⟩ := bind_eq_ok hinsert
  obtain ⟨rfl,hkept,happend⟩ := insertRowInPlace_ok hrows
  have htracks:=happend.tracksText
  dsimp only at hinsert
  split at hinsert
  · rename_i hsome
    obtain ⟨padded,hpad,hinsert⟩ := bind_eq_ok hinsert
    obtain ⟨lexical,hpush,hinsert⟩ := bind_eq_ok hinsert
    obtain ⟨rfl,rfl⟩ := Prod.mk.inj (Except.ok.inj hinsert)
    have hpad:=mapError_eq_ok hpad
    rw [hkept] at hpad
    have hindexes:=pushDocument_indexes analyze (h.padded hpad)
      (by rw [length_map,h.textCount]; exact happend.rows_lt) (mapError_eq_ok hpush)
    have happend' : Appends s d { rows with lexical } := ⟨happend.rows_lt,happend.docIds,
      happend.rowIndex,happend.revisions,happend.sequences,happend.text⟩
    refine ⟨rows,hrows,rfl,h.appended happend' hnew ?_⟩
    have hnow : ActiveSegment.tracksText { rows with lexical } = true := htracks.trans hsome
    rw [IndexesText,if_pos hnow,map_append]
    exact hindexes
  · rename_i hnone
    obtain ⟨rfl,rfl⟩ := Prod.mk.inj (Except.ok.inj hinsert)
    refine ⟨rows,hrows,rfl,h.appended happend hnew ?_⟩
    have huntracked : ¬ s.tracksText = true := fun htracked => hnone (by rw [htracked]; rfl)
    have hlexical:=h.lexical
    rw [IndexesText,if_neg huntracked] at hlexical
    rw [IndexesText,htracks,if_neg hnone,hkept,hlexical]

omit h in
theorem Overwrites.tracksText (hover : Overwrites s row d next) :
    next.tracksText = (s.tracksText || d.text.isSome) := by
  have htext:=hover.text
  unfold ActiveSegment.replaceText at htext
  obtain ⟨hrow,htext⟩ := of_ite_error htext
  split at htext
  · rename_i hnone
    rw [Bool.and_eq_true,Bool.not_eq_true',Option.isNone_iff_eq_none] at hnone
    have hsame : s.textPresent = next.textPresent :=
      congrArg Prod.fst (Except.ok.inj htext)
    rw [hnone.1,hnone.2,ActiveSegment.tracksText,← hsame]
    exact hnone.1
  · rename_i hsome
    obtain ⟨packed,-,htext⟩ := bind_eq_ok htext
    obtain ⟨⟨⟩,hin,htext⟩ := bind_eq_ok htext
    have hlt:=require_eq_ok hin
    have hpresent:=congrArg Prod.fst (Except.ok.inj htext)
    simp only at hpresent
    have htrue : (s.tracksText || d.text.isSome) = true := by
      cases htracks : s.tracksText <;> cases htext : d.text <;> simp_all
    rw [htrue,ActiveSegment.tracksText,← hpresent]
    cases hpad : (s.padText s.rowCount).1 with
    | nil => rw [hpad] at hlt; cases hlt
    | cons a as => cases row <;> rfl

theorem Sound.replaceInPlace (hrow : s.rowIndex.lookup d.version.docId = some row)
    (hreplace : s.replaceInPlace quantizeBit4 analyze row d = .ok next) :
    ∃ rows : ActiveSegment,s.replaceRowInPlace quantizeBit4 row d = .ok rows ∧
      next = { rows with lexical := next.lexical } ∧ Sound analyze next (texts.set row d.text) := by
  have hlt : row < texts.length := by
    rw [h.textCount]
    exact (h.row hrow).1
  unfold ActiveSegment.replaceInPlace at hreplace
  split at hreplace
  · rename_i hnone
    obtain ⟨hkept,hover⟩ := replaceRowInPlace_ok hreplace
    have htracks:=hover.tracksText
    rw [Bool.and_eq_true,Bool.not_eq_true',Option.isNone_iff_eq_none] at hnone
    refine ⟨next,hreplace,rfl,h.overwritten hover hrow ?_⟩
    have hlexical:=h.lexical
    rw [IndexesText,hnone.1] at hlexical
    rw [IndexesText,htracks,hnone.1,hnone.2,hkept]
    exact hlexical
  · rename_i hsome
    obtain ⟨previous,hprevious,hreplace⟩ := bind_eq_ok hreplace
    obtain ⟨rows,hrows,hreplace⟩ := bind_eq_ok hreplace
    obtain ⟨padded,hpad,hreplace⟩ := bind_eq_ok hreplace
    obtain ⟨-,-,hreplace⟩ := bind_eq_ok hreplace
    obtain ⟨lexical,hlexical,rfl⟩ := bind_pure_eq_ok hreplace
    obtain ⟨hkept,hover⟩ := replaceRowInPlace_ok hrows
    have hcount : rows.rowCount = s.docIds.length := by
      rw [ActiveSegment.rowCount,hover.docIds,length_set]
    have hpad:=mapError_eq_ok hpad
    rw [hkept,hcount] at hpad
    -- the stored text of the row names its postings
    have hprevious:=mapError_eq_ok hprevious
    have hold : texts[row]? = some previous := by
      unfold ActiveSegment.previousText at hprevious
      by_cases htracked : s.tracksText = true
      · rw [if_pos htracked,h.stored.text h.textCount (getElem?_eq_getElem hlt)] at hprevious
        rw [getElem?_eq_getElem hlt,Except.ok.inj hprevious]
      · rw [if_neg htracked] at hprevious
        obtain rfl := Except.ok.inj hprevious
        rw [getElem?_eq_getElem hlt,
          (h.stored.untracked htracked).2 _ (getElem_mem hlt)]
    have hindexes:=(h.padded hpad).replace analyze
      (by rw [getElem?_map,hold]; rfl) (lexicalDocument_distinct previous)
      (lexicalDocument_distinct d.text) (mapError_eq_ok hlexical)
    have hover' : Overwrites s row d { rows with lexical } := ⟨hover.row_lt,hover.docIds,
      hover.rowIndex,hover.revisions,hover.sequences,hover.text⟩
    refine ⟨rows,hrows,rfl,h.overwritten hover' hrow ?_⟩
    have hnow : ActiveSegment.tracksText { rows with lexical } = true := by
      refine hover.tracksText.trans ?_
      cases htracks : s.tracksText <;> cases htext : d.text <;> simp_all
    rw [IndexesText,if_pos hnow,map_set]
    exact hindexes

end Quantizer

end Lexical

end ActiveSegment

end Zeppelin.Ingest
