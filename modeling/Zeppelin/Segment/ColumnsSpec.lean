import Zeppelin.Segment.Layout

namespace Zeppelin.Segment
open Ingest Meta Reader List

variable {bitmap : DocBitmap} {value : String}

theorem mem_rowNumbers {row : ℕ} : row ∈ rowNumbers bitmap ↔ ∃ r ∈ bitmap,r.toNat = row := by
  rw [rowNumbers,Finset.mem_sort,Finset.mem_image]

theorem toNat_mem_rowNumbers {r : U32} : r.toNat ∈ rowNumbers bitmap ↔ r ∈ bitmap := by
  rw [mem_rowNumbers]
  constructor
  · rintro ⟨r',hr',hsame⟩
    rwa [← BitVec.eq_of_toNat_eq hsame]
  · intro h
    exact ⟨r,h,rfl⟩

theorem bytesFor_lt (rowCount : U32) : Bitmap.bytesFor rowCount.toNat < 2^32 := by
  have hbound:=rowCount.isLt
  unfold Bitmap.bytesFor
  omega

theorem bytesFor_toNat (rowCount : U32) :
    (BitVec.ofNat 32 (Bitmap.bytesFor rowCount.toNat)).toNat = Bitmap.bytesFor rowCount.toNat := by
  rw [BitVec.toNat_ofNat,Nat.mod_eq_of_lt (bytesFor_lt rowCount)]

theorem readAlive_encodeAlive (alive : AliveSet) (total : ℕ) :
    Reads (readAlive total) (encodeAlive alive)
      (alive.rowCount,Bitmap.ofRows alive.rowCount.toNat (rowNumbers alive.alive)) := by
  have hbytes : encodeAlive alive = toLe 4 alive.rowCount++
      (toLe 4 (BitVec.ofNat 32 (Bitmap.bytesFor alive.rowCount.toNat))++
        Bitmap.ofRows alive.rowCount.toNat (rowNumbers alive.alive)) := by
    simp only [encodeAlive,Bitmap.ofRows_length,append_assoc]
  rw [hbytes]
  unfold readAlive
  refine (Reads.word _ 4 rfl _).bind ((Reads.word _ 4 rfl _).bind ?_)
  refine (Reads.ensure _ (by rw [bytesFor_toNat]; exact decide_eq_true rfl)).silent ?_
  intro rest
  rw [get_step,ensure_step (by
    rw [bytesFor_toNat,length_append,Bitmap.ofRows_length]
    exact decide_eq_true (Nat.le_add_right _ _))]
  exact ((Reads.take _ (by rw [bytesFor_toNat,Bitmap.ofRows_length])).last rfl) rest

theorem keepAlive_rows (bits : Bytes) (rows : List ℕ) (s : AliveSet)
    (hrows : ∀ row ∈ rows,row < s.rowCount.toNat) :
    ∃ kept,rows.foldlM (keepAlive bits) s = .ok kept ∧ kept.rowCount = s.rowCount ∧
      ∀ r : U32,r ∈ kept.alive ↔
        r ∈ s.alive ∧ (r.toNat ∈ rows → Bitmap.contains bits r.toNat = true) := by
  induction rows generalizing s with
  | nil => exact ⟨s,rfl,rfl,by simp⟩
  | cons row rows ih =>
    have hrow:=hrows row mem_cons_self
    have hrest:=fun row hr => hrows row (mem_cons_of_mem _ hr)
    by_cases hbit : Bitmap.contains bits row = true
    · obtain ⟨kept,hkept,hcount,halive⟩ := ih s hrest
      refine ⟨kept,?_,hcount,fun r => ?_⟩
      · rw [foldlM_cons,keepAlive,if_pos hbit]
        exact hkept
      · rw [halive]
        refine and_congr_right fun _ => ?_
        rw [mem_cons]
        constructor
        · rintro h (rfl | hmem)
          · exact hbit
          · exact h hmem
        · exact fun h hmem => h (.inr hmem)
    · have hnat : (BitVec.ofNat 32 row).toNat = row := by
        rw [BitVec.toNat_ofNat,Nat.mod_eq_of_lt (Nat.lt_trans hrow s.rowCount.isLt)]
      have hroom : ¬ BitVec.ofNat 32 row ≥ s.rowCount := by
        rw [ge_iff_le,BitVec.le_def,hnat]
        omega
      -- One step: the row leaves the live rows if it was there.
      obtain ⟨one,hone,hcount,halive⟩ : ∃ one,keepAlive bits s row = .ok one ∧
          one.rowCount = s.rowCount ∧
          ∀ r : U32,r ∈ one.alive ↔ r ∈ s.alive ∧ r.toNat ≠ row := by
        have hne : ∀ r : U32,r ≠ BitVec.ofNat 32 row ↔ r.toNat ≠ row := by
          intro r
          rw [← BitVec.toNat_inj.ne,hnat]
        unfold keepAlive AliveSet.tombstone
        rw [if_neg hbit,if_neg hroom]
        by_cases hmem : BitVec.ofNat 32 row ∈ s.alive
        · rw [if_pos hmem]
          refine ⟨_,rfl,rfl,fun r => ?_⟩
          rw [Finset.mem_erase,hne,and_comm]
        · rw [if_neg hmem]
          refine ⟨_,rfl,rfl,fun r => ?_⟩
          rw [← hne]
          constructor
          · exact fun h => ⟨h,fun heq => hmem (heq ▸ h)⟩
          · exact fun h => h.1
      obtain ⟨kept,hkept,hcount',halive'⟩ := ih one (by rwa [hcount])
      refine ⟨kept,?_,hcount'.trans hcount,fun r => ?_⟩
      · rw [foldlM_cons,hone]
        exact hkept
      · rw [halive',halive,mem_cons,and_assoc]
        refine and_congr_right fun _ => ?_
        constructor
        · rintro ⟨hr,h⟩ (rfl | hmem)
          · exact absurd rfl hr
          · exact h hmem
        · intro h
          refine ⟨?_,fun hmem => h (.inr hmem)⟩
          rintro rfl
          exact hbit (h (.inl rfl))

theorem mem_fullBitmap {rowCount row : U32} : row ∈ fullBitmap rowCount ↔ row < rowCount := by
  rw [fullBitmap,Finset.mem_image]
  constructor
  · rintro ⟨n,hn,rfl⟩
    have hlt:=Finset.mem_range.mp hn
    have hbound:=rowCount.isLt
    rw [BitVec.lt_def,BitVec.toNat_ofNat,Nat.mod_eq_of_lt (by omega)]
    exact hlt
  · intro h
    exact ⟨row.toNat,Finset.mem_range.mpr (BitVec.lt_def.mp h),by simp⟩

theorem decodeAlive_encodeAlive (alive : AliveSet) : ∃ decoded,
    decodeAlive (encodeAlive alive) = .ok decoded ∧ decoded.rowCount = alive.rowCount ∧
      decoded.alive = alive.alive := by
  have hread:=readAlive_encodeAlive alive (encodeAlive alive).length []
  rw [append_nil] at hread
  have hclear : Bitmap.tailClear alive.rowCount.toNat
      (Bitmap.ofRows alive.rowCount.toNat (rowNumbers alive.alive)) = true := by
    refine Bitmap.tailClear_ofRows fun row hrow => ?_
    obtain ⟨r,hr,rfl⟩ := mem_rowNumbers.mp hrow
    exact BitVec.lt_def.mp (alive.alive_lt r hr)
  obtain ⟨kept,hkept,hcount,halive⟩ := keepAlive_rows
    (Bitmap.ofRows alive.rowCount.toNat (rowNumbers alive.alive))
    (List.range alive.rowCount.toNat) (AliveSet.new alive.rowCount)
    (fun row hrow => mem_range.mp hrow)
  refine ⟨kept,?_,hcount,?_⟩
  · unfold decodeAlive
    rw [hread,ok_bind]
    simp only [ne_eq,not_true_eq_false,if_false,hclear]
    exact hkept
  · ext r
    rw [halive]
    show r ∈ fullBitmap alive.rowCount ∧ _ ↔ _
    rw [mem_fullBitmap,mem_range,← BitVec.lt_def]
    constructor
    · rintro ⟨hlt,h⟩
      exact toNat_mem_rowNumbers.mp
        ((Bitmap.contains_ofRows (BitVec.lt_def.mp hlt)).mp (h hlt))
    · intro h
      have hlt:=alive.alive_lt r h
      exact ⟨hlt,fun _ => (Bitmap.contains_ofRows (BitVec.lt_def.mp hlt)).mpr
        (toNat_mem_rowNumbers.mpr h)⟩

theorem columnTypeFromId_id (columnType : ColumnType) :
    columnTypeFromId (columnTypeId columnType) = .ok columnType := by
  cases columnType <;> rfl

theorem nullableFromFlag_flag (nullable : Bool) :
    nullableFromFlag (nullableFlag nullable) = .ok nullable := by
  cases nullable <;> rfl

theorem readText_utf8 {length : U32} (h : length.toNat = (utf8Bytes value).length) :
    Reads (readText length) (utf8Bytes value) value := by
  refine (Reads.take _ h.symm).quiet (Reads.lift ?_)
  rw [fromUtf8_utf8Bytes]

theorem encodeSized_ok {e : Detail} {bytes : Bytes} (h : encodeSized e value = .ok bytes) :
    ∃ length : U32,length.toNat = (utf8Bytes value).length ∧
      bytes = toLe 4 length++utf8Bytes value := by
  unfold encodeSized at h
  cases hlength : toU32 (utf8Bytes value).length with
  | none =>
    rw [hlength] at h
    cases h
  | some length =>
    rw [hlength] at h
    exact ⟨length,toU32_eq_some.mp hlength,(Except.ok.inj h).symm⟩

theorem readDefinition_encode {d : ColumnDefinition} {bytes : Bytes}
    (h : encodeDefinition d = .ok bytes) : Reads readDefinition bytes d := by
  obtain ⟨name,hname,rfl⟩ := bind_pure_eq_ok h
  obtain ⟨length,hlength,rfl⟩ := encodeSized_ok hname
  rw [append_assoc,append_assoc]
  refine (Reads.word _ 4 rfl _).bind ((Reads.word _ 2 rfl _).bind ?_)
  refine (Reads.lift (columnTypeFromId_id _)).silent ((Reads.word _ 2 rfl _).bind ?_)
  refine (Reads.lift (nullableFromFlag_flag _)).silent ((Reads.word _ 4 rfl _).bind ?_)
  exact (readText_utf8 hlength).last rfl

structure Shows (present : Bytes) (values : DecodedValues) (cells : List (Option PredicateValue)) :
    Prop where
  present : ∀ row < cells.length,
    Bitmap.contains present row = true ↔ ∃ v,cells[row]? = some (some v)
  value : ∀ row v,cells[row]? = some (some v) → decodedValue values row = .ok v

section Values
variable {cells : List (Option PredicateValue)} {rowCount : U32} {α : Type} {row n : ℕ}
  {rows : List ℕ} {bytes bits : Bytes} {strings : List String}

theorem getElem?_range_map (g : ℕ → α) (h : row < n) :
    ((List.range n).map g)[row]? = some (g row) := by
  rw [getElem?_map,getElem?_range h]
  rfl

theorem lt_of_getElem? {xs : List α} {i : ℕ} {x : α} (h : xs[i]? = some x) :
    i < xs.length := (List.getElem?_eq_some_iff.mp h).1

theorem toNat_ofNat_of_lt (h : n < rowCount.toNat) : (BitVec.ofNat 32 n).toNat = n := by
  rw [BitVec.toNat_ofNat,Nat.mod_eq_of_lt (Nat.lt_trans h rowCount.isLt)]

variable {rel : α → PredicateValue → Prop} {w entry : ℕ} {dictionary : StringStorage}
  {column : Column}

theorem mem_present {values : List α}
    {present : DocBitmap} (h : Stores rel values present cells) (hrow : row < rowCount.toNat) :
    BitVec.ofNat 32 row ∈ present ↔ ∃ v,cells[row]? = some (some v) := by
  rw [h.present,toNat_ofNat_of_lt hrow]

theorem get_of_stores {c : NumericColumn α}
    (h : Stores rel c.values c.present cells) (hcount : rowCount.toNat = cells.length)
    {v : PredicateValue} (hv : cells[row]? = some (some v)) :
    ∃ a,c.get (BitVec.ofNat 32 row) = some a ∧ rel a v := by
  have hrow : row < rowCount.toNat := hcount ▸ lt_of_getElem? hv
  obtain ⟨a,ha,hrel⟩ := h.value row v hv
  refine ⟨a,?_,hrel⟩
  rw [NumericColumn.get,if_pos ((mem_present h hrow).mpr ⟨v,hv⟩),toNat_ofNat_of_lt hrow,ha]

theorem readFixed (hw : w = 8*n) (get : U32 → Option (BitVec w))
    (h : putMany (encodeFixed n get) rows = .ok bytes) :
    Reads (each (fun _ => word truncated w n) rows) bytes
      (rows.map fun row => (get (BitVec.ofNat 32 row)).getD 0) := by
  refine Reads.each h fun row _ field hfield => ?_
  obtain rfl := Except.ok.inj hfield
  exact Reads.word _ n hw _

theorem readFixedColumn (hw : w = 8*n) (wrap : BitVec w → PredicateValue)
    (c : NumericColumn (BitVec w))
    (hstores : Stores (fun a v => v = wrap a) c.values c.present cells)
    (hcount : rowCount.toNat = cells.length)
    (h : putMany (encodeFixed n c.get) (List.range rowCount.toNat) = .ok bytes) :
    ∃ values : List (BitVec w),
      Reads (each (fun _ => word truncated w n) (List.range rowCount.toNat)) bytes values ∧
      ∀ (row : ℕ) v,cells[row]? = some (some v) → ∃ a,values[row]? = some a ∧ v = wrap a := by
  refine ⟨_,readFixed hw c.get h,fun row v hv => ?_⟩
  obtain ⟨a,ha,rfl⟩ := get_of_stores hstores hcount hv
  refine ⟨a,?_,rfl⟩
  rw [getElem?_range_map _ (hcount ▸ lt_of_getElem? hv),ha,Option.getD_some]

theorem readBools (get : U32 → Option Bool)
    (h : putMany (encodeFixed 1 fun row => (get row).map BuilderColumn.boolByte) rows = .ok bytes) :
    Reads (each (fun _ => readBool) rows) bytes
      (rows.map fun row => (get (BitVec.ofNat 32 row)).getD false) := by
  refine Reads.each h fun row _ field hfield => ?_
  obtain rfl := Except.ok.inj hfield
  refine (Reads.word _ 1 rfl _).quiet (Reads.lift ?_)
  show boolFromByte (((get (BitVec.ofNat 32 row)).map BuilderColumn.boolByte).getD 0) = _
  cases get (BitVec.ofNat 32 row) with
  | none => rfl
  | some b => cases b <;> rfl

theorem readRaw (id : ColumnId) (total : ℕ) {text : ℕ → String}
    (h : putMany (fun row => encodeString (text row)) rows = .ok bytes) :
    Reads (each (decodeRawString id total) rows) bytes (rows.map text) := by
  refine Reads.each h fun row _ field hfield => ?_
  obtain ⟨length,hlength,rfl⟩ := encodeSized_ok hfield
  intro rest
  unfold decodeRawString
  rw [get_step,append_assoc,(Reads.word _ 4 rfl length).step,get_step,ensure_step (by
    rw [hlength,length_append]
    exact decide_eq_true (Nat.le_add_right _ _))]
  exact readText_utf8 hlength rest

theorem readEntry_encode (total : ℕ)
    (hlays : dictionary.Lays strings) (h : encodeEntry dictionary entry = .ok bytes) :
    Reads (readEntry total entry) bytes (strings[entry]?.getD "") := by
  unfold encodeEntry at h
  rw [hlays.get] at h
  cases hvalue : strings[entry]? with
  | none =>
    rw [hvalue] at h
    cases h
  | some value =>
    rw [hvalue] at h
    obtain ⟨length,hlength,rfl⟩ := encodeSized_ok h
    intro rest
    unfold readEntry
    rw [append_assoc,(Reads.word _ 4 rfl length).step,get_step,ensure_step (by
      rw [hlength,length_append]
      exact decide_eq_true fun hshort => by omega)]
    exact readText_utf8 hlength rest

theorem entry_length (h : encodeEntry dictionary entry = .ok bytes) : 4 ≤ bytes.length := by
  unfold encodeEntry at h
  cases hvalue : dictionary.get entry with
  | none =>
    rw [hvalue] at h
    cases h
  | some value =>
    rw [hvalue] at h
    obtain ⟨length,-,rfl⟩ := encodeSized_ok h
    rw [length_append,toLe_length]
    exact Nat.le_add_right _ _

theorem range_map_getD (strings : List String) :
    (List.range strings.length).map (fun i => strings[i]?.getD "") = strings := by
  refine ext_getElem (by simp) fun i hi hi' => ?_
  simp [getElem?_eq_getElem hi']

theorem readWidth_encode {codes : DictionaryCodes} (h : encodeCode codes row = .ok bytes) :
    Reads (readWidth (widthBytes codes.width)) bytes (codes.toList[row]?.getD 0) := by
  cases codes with
  | u16 codes =>
    obtain rfl := Except.ok.inj h
    refine (Reads.word _ 2 rfl _).last ?_
    rw [DictionaryCodes.toList,getElem?_map]
    cases codes[row]? with
    | none => rfl
    | some code =>
      rw [Option.map_some,Option.getD_some,← BitVec.toNat_inj]
      simp only [BitVec.toNat_setWidth]
      have hcode:=code.isLt
      omega
  | u32 codes =>
    obtain rfl := Except.ok.inj h
    exact Reads.word _ 4 rfl _

def cellText (cells : List (Option PredicateValue)) (row : ℕ) : String :=
  match cells[row]? with
  | some (some (.string value)) => value
  | _ => ""

theorem codeValue_cell {present : DocBitmap} {codes : List U32}
    (hstores : Stores (CodeOf strings) codes present cells)
    (hnull : ∀ i : ℕ,cells[i]? = some none → codes[i]? = some 0) (hbits : ∀ row < cells.length,
      Bitmap.contains bits row = true ↔ ∃ v,cells[row]? = some (some v))
    (hrow : row < cells.length) (id : ColumnId) (cardinality : U32) (offset : ℕ) :
    codeValue id bits strings cardinality row offset (codes[row]?.getD 0) =
      .ok (cellText cells row) := by
  unfold codeValue cellText
  cases hcell : cells[row]? with
  | none => exact absurd (List.getElem?_eq_none_iff.mp hcell) (Nat.not_le.mpr hrow)
  | some cell =>
    cases cell with
    | some v =>
      obtain ⟨code,hcode,value,rfl,hvalue⟩ := hstores.value row v hcell
      rw [if_pos ((hbits row hrow).mpr ⟨_,hcell⟩),hcode,Option.getD_some,hvalue]
    | none =>
      have hclear : ¬ Bitmap.contains bits row = true := by
        intro hset
        obtain ⟨v,hv⟩ := (hbits row hrow).mp hset
        rw [hcell] at hv
        cases hv
      rw [if_neg hclear,hnull row hcell]
      rfl

theorem readDictionary_encode {c : DictionaryColumn} (hlays : c.dictionary.Lays strings)
    (hstores : Stores (CodeOf strings) c.codes.toList c.present cells)
    (hnull : ∀ i : ℕ,cells[i]? = some none → c.codes.toList[i]? = some 0)
    (hbits : ∀ row < cells.length,
      Bitmap.contains bits row = true ↔ ∃ v,cells[row]? = some (some v))
    (h : encodeDictionary c (List.range cells.length) = .ok bytes) (id : ColumnId) (total : ℕ) :
    Reads (readDictionary id (List.range cells.length) bits total) bytes
      ((List.range cells.length).map (cellText cells)) := by
  unfold encodeDictionary at h
  cases hlength : toU32 c.dictionary.len with
  | none =>
    rw [hlength] at h
    cases h
  | some length =>
    rw [hlength] at h
    obtain ⟨entries,hentries,h⟩ := bind_eq_ok h
    obtain ⟨codes,hcodes,rfl⟩ := bind_pure_eq_ok h
    have hcount : length.toNat = strings.length := (toU32_eq_some.mp hlength).trans hlays.len
    have hdictionary : Reads (each (readEntry total) (List.range length.toNat)) entries strings := by
      have hall : Reads (each (readEntry total) (List.range length.toNat)) entries
          ((List.range length.toNat).map fun i => strings[i]?.getD "") :=
        Reads.each hentries fun entry _ row hrow => readEntry_encode total hlays hrow
      rwa [hcount,range_map_getD,← hcount] at hall
    have hentriesLength:=le_putMany_length (fun _ _ h => entry_length h) hentries
    rw [length_range] at hentriesLength
    rw [append_assoc,append_assoc,append_assoc]
    refine (Reads.word _ 4 rfl _).bind ?_
    intro rest
    rw [get_step,ensure_step (by
      simp only [length_append,toLe_length]
      exact decide_eq_true fun hfull => by omega)]
    refine (hdictionary.bind ((Reads.word _ 2 rfl _).bind ((Reads.word _ 2 rfl _).bind ?_))) rest
    refine (Reads.ensure _ rfl).silent ?_
    refine Reads.each hcodes fun row hrow field hfield => ?_
    intro rest
    unfold readCode
    rw [get_step]
    refine ((readWidth_encode hfield).quiet (Reads.lift ?_)) rest
    exact codeValue_cell hstores hnull hbits (mem_range.mp hrow) ..

theorem bits_of_present {present : DocBitmap} (hcount : rowCount.toNat = cells.length)
    (h : ∀ row : U32,row ∈ present ↔ ∃ v,cells[row.toNat]? = some (some v)) :
    (∀ row < cells.length,Bitmap.contains (Bitmap.ofRows rowCount.toNat (rowNumbers present)) row =
      true ↔ ∃ v,cells[row]? = some (some v)) ∧
    Bitmap.tailClear rowCount.toNat (Bitmap.ofRows rowCount.toNat (rowNumbers present)) = true := by
  constructor
  · intro row hrow
    rw [← hcount] at hrow
    rw [Bitmap.contains_ofRows hrow,← toNat_ofNat_of_lt hrow,toNat_mem_rowNumbers,h]
  · refine Bitmap.tailClear_ofRows fun row hrow => ?_
    obtain ⟨r,hr,rfl⟩ := mem_rowNumbers.mp hrow
    obtain ⟨v,hv⟩ := (h r).mp hr
    rw [hcount]
    exact lt_of_getElem? hv

theorem Column.Holds.present (h : column.Holds cells) :
    ∀ row : U32,row ∈ column.present ↔ ∃ v,cells[row.toNat]? = some (some v) := by
  cases column with
  | dictionaryString c =>
    obtain ⟨strings,-,-,hstores⟩ := h
    exact hstores.present
  | rawString c =>
    obtain ⟨strings,-,hstores⟩ := h
    exact hstores.present
  | _ => exact Stores.present h

theorem decodeColumnValues_encode (hholds : column.Holds cells) (hfits : column.Fits cells)
    (hcount : rowCount.toNat = cells.length) (hbits : ∀ row < cells.length,
      Bitmap.contains bits row = true ↔ ∃ v,cells[row]? = some (some v))
    (h : encodeColumnValues column rowCount = .ok bytes) (id : ColumnId) :
    ∃ values,(∀ total,Reads (decodeColumnValues id column.columnType rowCount bits total) bytes
      values) ∧ ∀ row v,cells[row]? = some (some v) → decodedValue values row = .ok v := by
  have hlt : ∀ (row : ℕ) v,cells[row]? = some (some v) → row < rowCount.toNat :=
    fun row v hv => hcount ▸ lt_of_getElem? hv
  cases column with
  | u64 c =>
    have hencode : putMany (encodeFixed 8 c.get) (List.range rowCount.toNat) = .ok bytes := h
    obtain ⟨values,hread,hvalues⟩ := readFixedColumn (w := 64) (n := 8) rfl .u64 c hholds hcount
      hencode
    refine ⟨.u64 values,fun total => hread.last rfl,fun row v hv => ?_⟩
    obtain ⟨a,ha,rfl⟩ := hvalues row v hv
    simp only [decodedValue,ha,Option.map_some]
  | id128 c =>
    have hencode : putMany (encodeFixed 16 c.get) (List.range rowCount.toNat) = .ok bytes := h
    obtain ⟨values,hread,hvalues⟩ := readFixedColumn (w := 128) (n := 16) rfl .id128 c hholds hcount
      hencode
    refine ⟨.id128 values,fun total => hread.last rfl,fun row v hv => ?_⟩
    obtain ⟨a,ha,rfl⟩ := hvalues row v hv
    simp only [decodedValue,ha,Option.map_some]
  | i64 c =>
    have hencode : putMany (encodeFixed 8 c.get) (List.range rowCount.toNat) = .ok bytes := h
    obtain ⟨values,hread,hvalues⟩ := readFixedColumn (w := 64) (n := 8) rfl .i64 c hholds hcount
      hencode
    refine ⟨.i64 values,fun total => hread.last rfl,fun row v hv => ?_⟩
    obtain ⟨a,ha,rfl⟩ := hvalues row v hv
    simp only [decodedValue,ha,Option.map_some]
  | f64 c =>
    have hencode : putMany (encodeFixed 8 c.get) (List.range rowCount.toNat) = .ok bytes := h
    obtain ⟨values,hread,hvalues⟩ := readFixedColumn (w := 64) (n := 8) rfl .f64 c hholds hcount
      hencode
    refine ⟨.f64 values,fun total => hread.last rfl,fun row v hv => ?_⟩
    obtain ⟨a,ha,rfl⟩ := hvalues row v hv
    simp only [decodedValue,ha,Option.map_some]
  | bool c =>
    refine ⟨_,fun total => (readBools (getBool c) h).last rfl,fun row v hv => ?_⟩
    obtain ⟨a,ha,b,rfl,rfl⟩ := get_of_stores hholds hcount hv
    have hb : getBool c (BitVec.ofNat 32 row) = some b := by
      rw [getBool,ha]
      cases b <;> rfl
    simp only [decodedValue,getElem?_range_map _ (hlt row _ hv),hb,Option.map_some,
      Option.getD_some]
  | dictionaryString c =>
    obtain ⟨strings,-,hlays,hstores⟩ := hholds
    have hencode : encodeDictionary c (List.range rowCount.toNat) = .ok bytes := h
    rw [hcount] at hencode
    refine ⟨.string ((List.range cells.length).map (cellText cells)),fun total => ?_,
      fun row v hv => ?_⟩
    · have hread:=readDictionary_encode hlays hstores hfits.1 hbits hencode id total
      rw [← hcount] at hread ⊢
      exact hread.last rfl
    · obtain ⟨_,-,value,rfl,-⟩ := hstores.value row v hv
      simp only [decodedValue,getElem?_range_map _ (lt_of_getElem? hv),Option.map_some,cellText,
        hv]
  | rawString c =>
    obtain ⟨strings,hlays,hstores⟩ := hholds
    refine ⟨_,fun total => (readRaw id total h).last rfl,fun row v hv => ?_⟩
    obtain ⟨a,ha,rfl⟩ := hstores.value row v hv
    have hget : c.get (BitVec.ofNat 32 row) = some a := by
      rw [RawStringColumn.get,if_pos ((mem_present hstores (hlt row _ hv)).mpr ⟨_,hv⟩),
        toNat_ofNat_of_lt (hlt row _ hv),hlays.get,ha]
    simp only [decodedValue,getElem?_range_map _ (hlt row _ hv),hget,Option.map_some,
      Option.getD_some]

end Values

end Zeppelin.Segment
