import Mathlib.Data.Nat.Digits.Defs
import Zeppelin.Segment.ColumnsSpec

namespace Zeppelin.Segment
open Ingest Meta Reader List

section Regions
variable {schema : Schema} {rows : List MetaRow} {store : ColumnStore} {bytes : Bytes}

theorem columnCells_length (id : ColumnId) : (columnCells rows id).length = rows.length :=
  length_map _

variable {row : ℕ} {r : MetaRow} {decoded : List DecodedColumn}

theorem columnCells_getElem (h : rows[row]? = some r) (id : ColumnId) :
    (columnCells rows id)[row]? = some (r.value id) := by
  rw [columnCells,getElem?_map,h]
  rfl

def Decoded (rows : List MetaRow) (d : ColumnDefinition) (column : DecodedColumn) : Prop :=
  column.definition = d ∧ Shows column.present column.values (columnCells rows d.id)

theorem readColumn_encode {d : ColumnDefinition} {column : Column}
    (hcolumn : store.column d.id = some column)
    (hcount : store.rowCount.toNat = rows.length)
    (hbuilt : buildColumn d (columnCells rows d.id) = .ok column)
    (h : encodeColumn store d = .ok bytes) (total : ℕ) :
    ∃ decoded,Decoded rows d decoded ∧ Reads (readColumn store.rowCount total d) bytes decoded := by
  have hcells : store.rowCount.toNat = (columnCells rows d.id).length := by
    rw [columnCells_length,hcount]
  obtain ⟨htype,hholds,hfits⟩ := buildColumn_holds (hcells ▸ store.rowCount.isLt) hbuilt
  unfold encodeColumn at h
  rw [hcolumn] at h
  obtain ⟨encoded,hencoded,rfl⟩ := bind_pure_eq_ok h
  obtain ⟨hbits,htail⟩ := bits_of_present hcells (Column.Holds.present hholds)
  obtain ⟨values,hread,hvalues⟩ :=
    decodeColumnValues_encode hholds hfits hcells hbits hencoded d.id
  rw [htype] at hread
  refine ⟨⟨d,encodePresence column store.rowCount,values⟩,⟨rfl,hbits,hvalues⟩,?_⟩
  have hlength : (encodePresence column store.rowCount).length =
      Bitmap.bytesFor store.rowCount.toNat := Bitmap.ofRows_length _ _
  rw [hlength,append_assoc]
  refine (Reads.word _ 4 rfl _).bind ?_
  refine (Reads.ensure _ (by rw [bytesFor_toNat]; exact decide_eq_true rfl)).silent ?_
  intro rest
  rw [get_step]
  refine ((Reads.take _ (by rw [bytesFor_toNat,hlength])).bind ?_) rest
  have hclear : ∀ offset,validatePresenceTail d.id store.rowCount offset
      (encodePresence column store.rowCount) = .ok () := fun _ => if_pos htail
  exact (Reads.lift (hclear _)).silent ((hread total).last rfl)

theorem decodedInputs_stored {definitions : List ColumnDefinition}
    (h : List.Forall₂ (Decoded rows) definitions decoded) (hr : rows[row]? = some r) :
    decodedInputs row decoded =
      .ok (definitions.filterMap fun d => (r.value d.id).map (ColumnInput.mk d.id)) := by
  have hrow:=lt_of_getElem? hr
  induction h with
  | nil => rfl
  | @cons d column definitions decoded hone _ ih =>
    obtain ⟨rfl,hshows⟩ := hone
    have hcell:=columnCells_getElem hr column.definition.id
    unfold decodedInputs
    cases hvalue : r.value column.definition.id with
    | none =>
      have hclear : ¬ Bitmap.contains column.present row = true := by
        rw [hshows.present row (by rwa [columnCells_length]),hcell,hvalue]
        simp
      rw [if_pos hclear,ih,filterMap_cons_none (by rw [hvalue]; rfl)]
    | some v =>
      rw [hvalue] at hcell
      have hset : Bitmap.contains column.present row = true :=
        (hshows.present row (by rwa [columnCells_length])).mpr ⟨v,hcell⟩
      rw [if_neg (not_not.mpr hset),hshows.value row v hcell,ok_bind,ih,ok_bind,
        filterMap_cons_some (by rw [hvalue]; rfl)]
      rfl

theorem decodedValue_i64 {values : DecodedValues} {timestamp : U64}
    (h : decodedValue values row = .ok (.i64 timestamp)) :
    ∃ list,values = .i64 list ∧ list[row]? = some timestamp := by
  cases values with
  | i64 list =>
    cases hvalue : list[row]? with
    | none => simp [decodedValue,hvalue] at h
    | some v =>
      simp only [decodedValue,hvalue,Option.map_some,Except.ok.injEq,
        PredicateValue.i64.injEq] at h
      exact ⟨list,rfl,by rw [hvalue,h]⟩
  | u64 list | id128 list | f64 list | bool list | string list =>
    cases hvalue : list[row]? with
    | none => simp [decodedValue,hvalue] at h
    | some v => simp [decodedValue,hvalue] at h

theorem decodedRow_stored (hs : schema.Built)
    (h : List.Forall₂ (Decoded rows) schema.columns decoded)
    (hr : rows[row]? = some r) : decodedRow decoded row = .ok (storedRow schema r) := by
  rw [hs.columns_eq] at h
  cases h with
  | @cons _ first _ others hfirst hothers =>
    have htimestamp : decodedTimestamp (first::others) row = .ok r.timestamp := by
      have hcell:=columnCells_getElem hr timestampDefinition.id
      have hvalue : r.value timestampDefinition.id = some (.i64 r.timestamp) := if_pos rfl
      rw [hvalue] at hcell
      obtain ⟨list,hlist,hat⟩ := decodedValue_i64 (hfirst.2.value row _ hcell)
      obtain ⟨d,present,values⟩ := first
      obtain rfl := hlist
      simp only [decodedTimestamp,hat]
    unfold decodedRow
    rw [htimestamp,ok_bind]
    show (decodedInputs row others >>= fun inputs => pure (MetaRow.mk r.timestamp inputs)) = _
    rw [decodedInputs_stored hothers hr]
    rfl

theorem pushDecoded_rows {indices : List ℕ} {pushed : List MetaRow}
    (h : List.Forall₂ (fun i r => decodedRow decoded i = .ok r) indices pushed)
    {b next : ColumnStoreBuilder} (hpush : pushed.foldlM ColumnStoreBuilder.pushRow b = .ok next) :
    indices.foldlM (pushDecoded decoded) b = .ok next := by
  induction h generalizing b with
  | nil =>
    obtain rfl := Except.ok.inj hpush
    rfl
  | cons hone _ ih =>
    obtain ⟨one,hpushed,hpush⟩ := bind_eq_ok hpush
    rw [foldlM_cons,pushDecoded,hone,ok_bind,hpushed]
    exact ih hpush

theorem readColumns_encode (hs : schema.Built) (hcolumns : schema.columns.length < 2^32)
    (hbuild : ColumnStoreBuilder.build schema rows = .ok store)
    (h : encodeColumns store = .ok bytes) : ∃ decoded,
      readColumns bytes.length bytes = .ok ((store.rowCount,decoded),[]) ∧
        List.Forall₂ (Decoded rows) schema.columns decoded := by
  obtain ⟨-,-,rfl,hcount,hfilled⟩ := ColumnStoreBuilder.build_ok_iff.mp hbuild
  obtain ⟨definitions,hdefinitions,h⟩ := bind_eq_ok h
  obtain ⟨columns,hencoded,h⟩ := bind_eq_ok h
  have hbytes:=(Except.ok.inj h).symm
  obtain ⟨decoded,hdecoded,hread⟩ : ∃ decoded,List.Forall₂ (Decoded rows)
      store.schema.columns decoded ∧
      Reads (each (readColumn store.rowCount bytes.length) store.schema.columns) columns decoded := by
    refine Reads.each_exists hencoded fun d hd row hrow => ?_
    obtain ⟨column,hcolumn,hbuilt⟩ :=
      ColumnStore.column_of_forall₂ hfilled (hs.column_of_mem hd)
    exact readColumn_encode hcolumn hcount hbuilt hrow bytes.length
  refine ⟨decoded,?_,hdecoded⟩
  have hlength : (BitVec.ofNat 32 store.schema.columns.length).toNat =
      store.schema.columns.length := by
    rw [BitVec.toNat_ofNat,Nat.mod_eq_of_lt hcolumns]
  have hsome : BitVec.ofNat 32 store.schema.columns.length ≠ 0 := by
    rw [hs.columns_eq,length_cons] at hlength ⊢
    intro hzero
    rw [hzero] at hlength
    cases hlength
  have hdefs : Reads (repeated readDefinition store.schema.columns.length) definitions
      store.schema.columns := by
    have hall : Reads (repeated readDefinition store.schema.columns.length) definitions
        (store.schema.columns.map id) :=
      Reads.repeated hdefinitions fun d _ row hrow => readDefinition_encode hrow
    rwa [map_id] at hall
  have hcheck : checkTimestamp store.schema.columns = .ok () := by
    rw [hs.columns_eq]
    rfl
  have hreads : Reads (readColumns bytes.length)
      (toLe 4 store.rowCount++(toLe 4 (BitVec.ofNat 32 store.schema.columns.length)++
        (definitions++columns))) (store.rowCount,decoded) := by
    refine (Reads.word _ 4 rfl _).bind ((Reads.word _ 4 rfl _).bind ?_)
    refine (Reads.ensure _ (decide_eq_true hsome)).silent ?_
    rw [hlength]
    refine hdefs.bind ?_
    exact (Reads.lift hcheck).silent (hread.last rfl)
  have hall:=hreads []
  rwa [append_nil,← append_assoc,← append_assoc,← hbytes] at hall

theorem decoded_user (h : List.Forall₂ (Decoded rows) schema.columns decoded) :
    (decoded.drop 1).map DecodedColumn.definition = schema.userColumns := by
  have hall : decoded.map DecodedColumn.definition = schema.columns := by
    rw [← forall₂_eq_eq_eq,forall₂_map_left_iff]
    exact h.flip.imp fun _ _ hone => hone.1
  rw [map_drop,hall]
  rfl

theorem decodeColumns_encode (hs : schema.Built) (hcolumns : schema.columns.length < 2^32)
    (hbuild : ColumnStoreBuilder.build schema rows = .ok store)
    (h : encodeColumns store = .ok bytes) (collection : Option Schema) :
    (∀ e,collectionSchema schema collection = .error e → decodeColumns bytes collection = .error e) ∧
    ∀ target built,collectionSchema schema collection = .ok target →
      ColumnStoreBuilder.build target (rows.map (storedRow schema)) = .ok built →
      decodeColumns bytes collection = .ok built := by
  obtain ⟨decoded,hread,hdecoded⟩ := readColumns_encode hs hcolumns hbuild h
  have hcount:=(ColumnStoreBuilder.build_ok_iff.mp hbuild).2.2.2.1
  have hschema : Schema.new ((decoded.drop 1).map DecodedColumn.definition) = .ok schema := by
    rw [decoded_user hdecoded]
    exact hs
  have hrows : List.Forall₂ (fun i r => decodedRow decoded i = .ok r)
      (List.range store.rowCount.toNat) (rows.map (storedRow schema)) := by
    rw [hcount,forall₂_map_right_iff,forall₂_iff_get]
    refine ⟨length_range,fun i hi hi' => ?_⟩
    rw [get_eq_getElem,getElem_range]
    exact decodedRow_stored hs hdecoded (getElem?_eq_getElem hi')
  have hdecode : decodeColumns bytes collection = (do
      let target ← collectionSchema schema collection
      let builder ← (List.range store.rowCount.toNat).foldlM (pushDecoded decoded)
        (ColumnStoreBuilder.new target)
      Except.mapError (fun error => SegmentError.columns (.build error)) builder.finish) := by
    unfold decodeColumns
    rw [hread,ok_bind]
    simp only [ne_eq,not_true_eq_false,if_false,hschema]
    rfl
  rw [hdecode]
  constructor
  · intro e he
    rw [he]
    rfl
  · intro target built htarget hbuilt
    obtain ⟨b,hpush,hfinish⟩ := bind_eq_ok hbuilt
    rw [htarget,ok_bind,pushDecoded_rows hrows hpush,ok_bind,hfinish]
    rfl

end Regions

variable {schema : Schema} {rows : List MetaRow} {store : ColumnStore} {bytes : Bytes}

theorem encodeSized_exists_iff {e : Detail} {value : String} :
    (∃ bytes,encodeSized e value = .ok bytes) ↔ (utf8Bytes value).length < 2^32 := by
  constructor
  · rintro ⟨bytes,h⟩
    obtain ⟨length,hlength,-⟩ := encodeSized_ok h
    rw [← hlength]
    exact length.isLt
  · intro h
    unfold encodeSized toU32
    rw [if_pos h]
    exact ⟨_,rfl⟩

theorem encodeDefinition_exists_iff {d : ColumnDefinition} :
    (∃ bytes,encodeDefinition d = .ok bytes) ↔ (utf8Bytes d.name).length < 2^32 := by
  rw [← encodeSized_exists_iff (e := .nameExceedsU32)]
  constructor
  · rintro ⟨bytes,h⟩
    obtain ⟨name,hname,-⟩ := bind_eq_ok h
    exact ⟨name,hname⟩
  · rintro ⟨name,hname⟩
    rw [encodeDefinition,hname]
    exact ⟨_,rfl⟩

theorem lays_length_le {storage : StringStorage} {strings : List String}
    (h : storage.Lays strings) {value : String} (hmem : value ∈ strings) :
    (utf8Bytes value).length ≤ storage.bytes.length := by
  rw [h.2]
  exact (sublist_flatten_of_mem (mem_map_of_mem hmem)).length_le

theorem encodeColumnValues_exists {column : Column} {cells : List (Option PredicateValue)}
    (hholds : column.Holds cells) (hfits : column.Fits cells) (rowCount : U32) :
    ∃ bytes,encodeColumnValues column rowCount = .ok bytes := by
  cases column with
  | dictionaryString c =>
    obtain ⟨strings,-,hlays,-⟩ := hholds
    obtain ⟨-,hbytes,hlen⟩ := hfits
    have hentries : ∀ code ∈ List.range (BitVec.ofNat 32 c.dictionary.len).toNat,
        ∃ bytes,encodeEntry c.dictionary code = .ok bytes := by
      intro code hcode
      rw [BitVec.toNat_ofNat,Nat.mod_eq_of_lt hlen,mem_range,hlays.len] at hcode
      unfold encodeEntry
      rw [hlays.get,getElem?_eq_getElem hcode]
      exact encodeSized_exists_iff.mpr (Nat.lt_of_le_of_lt
        (lays_length_le hlays (getElem_mem hcode)) hbytes)
    have hcodes : ∀ row ∈ List.range rowCount.toNat,∃ bytes,encodeCode c.codes row = .ok bytes := by
      intro row _
      unfold encodeCode
      cases c.codes.width with
      | u16 => exact ⟨_,rfl⟩
      | u32 => exact ⟨_,rfl⟩
    obtain ⟨entries,hentries⟩ := exists_putMany hentries
    obtain ⟨codes,hcodes⟩ := exists_putMany hcodes
    show ∃ bytes,encodeDictionary c (List.range rowCount.toNat) = .ok bytes
    rw [encodeDictionary,toU32,if_pos hlen]
    simp only [hentries,hcodes,ok_bind]
    exact ⟨_,rfl⟩
  | rawString c =>
    obtain ⟨strings,hlays,-⟩ := hholds
    refine exists_putMany fun row _ => encodeSized_exists_iff.mpr ?_
    unfold RawStringColumn.get
    rw [hlays.get]
    split_ifs with hpresent
    · cases hvalue : strings[(BitVec.ofNat 32 row).toNat]? with
      | none => simp
      | some value =>
        exact Nat.lt_of_le_of_lt (lays_length_le hlays (mem_of_getElem? hvalue)) hfits
    · simp
  | _ => exact exists_putMany fun row _ => ⟨_,rfl⟩

theorem encodeColumns_exists_iff (hs : schema.Built)
    (hbuild : ColumnStoreBuilder.build schema rows = .ok store) :
    (∃ bytes,encodeColumns store = .ok bytes) ↔
      ∀ d ∈ schema.columns,(utf8Bytes d.name).length < 2^32 := by
  obtain ⟨hbound,-,rfl,hcount,hfilled⟩ := ColumnStoreBuilder.build_ok_iff.mp hbuild
  constructor
  · rintro ⟨bytes,h⟩ d hd
    obtain ⟨definitions,hdefinitions,-⟩ := bind_eq_ok h
    exact encodeDefinition_exists_iff.mp (put_of_putMany hdefinitions d hd)
  · intro hnames
    obtain ⟨definitions,hdefinitions⟩ :=
      exists_putMany fun d hd => encodeDefinition_exists_iff.mpr (hnames d hd)
    obtain ⟨columns,hcolumns⟩ : ∃ columns,
        putMany (encodeColumn store) store.schema.columns = .ok columns := by
      refine exists_putMany fun d hd => ?_
      obtain ⟨column,hcolumn,hbuilt⟩ :=
        ColumnStore.column_of_forall₂ hfilled (hs.column_of_mem hd)
      obtain ⟨-,hholds,hfits⟩ :=
        buildColumn_holds (by rwa [columnCells_length]) hbuilt
      obtain ⟨values,hvalues⟩ := encodeColumnValues_exists hholds hfits store.rowCount
      rw [encodeColumn,hcolumn]
      simp only [hvalues,ok_bind]
      exact ⟨_,rfl⟩
    rw [encodeColumns,hdefinitions,ok_bind,hcolumns,ok_bind]
    exact ⟨_,rfl⟩

theorem columns_length_le (hs : schema.Built) : schema.columns.length ≤ 2^32 := by
  have hnodup : (schema.columns.map fun d => d.id.toNat).Nodup := by
    refine pairwise_map.mpr (hs.apart.imp fun h hsame => ?_)
    exact h.1 (BitVec.eq_of_toNat_eq hsame)
  have hsubset : (schema.columns.map fun d => d.id.toNat).toFinset ⊆ Finset.range (2^32) := by
    intro n hn
    obtain ⟨d,-,rfl⟩ := mem_map.mp (mem_toFinset.mp hn)
    exact Finset.mem_range.mpr d.id.isLt
  have hcard:=Finset.card_le_card hsubset
  rwa [toFinset_card_of_nodup hnodup,length_map,Finset.card_range] at hcard

theorem decodeColumns_wrapped (hlength : store.schema.columns.length = 2^32)
    (h : encodeColumns store = .ok bytes) (collection : Option Schema) :
    decodeColumns bytes collection = .error (.columns .timestampAbsent) := by
  obtain ⟨definitions,-,h⟩ := bind_eq_ok h
  obtain ⟨columns,-,h⟩ := bind_eq_ok h
  have hzero : BitVec.ofNat 32 store.schema.columns.length = 0 := by
    rw [hlength]
    rfl
  have hbytes:=(Except.ok.inj h).symm
  rw [hzero,append_assoc,append_assoc] at hbytes
  have hread : readColumns bytes.length bytes = .error (.columns .timestampAbsent) := by
    unfold readColumns
    rw [hbytes,(Reads.word _ 4 rfl _).step,(Reads.word _ 4 rfl _).step]
    rfl
  rw [decodeColumns,hread]
  rfl

/-- What a reader of the columns region sees: the store, and through the schema of a
collection that evolves its own the same columns with null in the added ones. -/
def ReadsBack (schema : Schema) (store : ColumnStore) (bytes : Bytes) : Prop :=
  decodeColumns bytes none = .ok store ∧
    ∀ collection : Schema,collection.Built →
      ((∃ evolved,decodeColumns bytes (some collection) = .ok evolved) ↔
        schema.Evolves collection) ∧
      ∀ evolved,decodeColumns bytes (some collection) = .ok evolved →
        store.Extends evolved collection

theorem readsBack (hs : schema.Built) (hcolumns : schema.columns.length < 2^32)
    (hbuild : ColumnStoreBuilder.build schema rows = .ok store)
    (h : encodeColumns store = .ok bytes) : ReadsBack schema store bytes := by
  refine ⟨?_,fun collection hcollection => ?_⟩
  · exact (decodeColumns_encode hs hcolumns hbuild h none).2 schema store rfl
      (build_stored hs hbuild)
  · obtain ⟨hconflict,hdecode⟩ := decodeColumns_encode hs hcolumns hbuild h (some collection)
    have hsound : ∀ evolved,decodeColumns bytes (some collection) = .ok evolved →
        schema.Evolves collection := by
      intro evolved hevolved
      refine Schema.additiveEvolution_ok_iff.mp ?_
      cases hevolution : schema.additiveEvolution collection with
      | error e =>
        rw [hconflict (.columns (.conflict e)) (by rw [collectionSchema,hevolution]; rfl)] at hevolved
        cases hevolved
      | ok next => exact ⟨next,rfl⟩
    have hcomplete : schema.Evolves collection →
        ∃ evolved,decodeColumns bytes (some collection) = .ok evolved ∧
          store.Extends evolved collection := by
      intro hevolves
      obtain ⟨next,hnext⟩ := Schema.additiveEvolution_ok_iff.mpr hevolves
      obtain ⟨evolved,hbuilt,hextends⟩ := build_evolved hs hcollection hevolves hbuild
      refine ⟨evolved,hdecode collection evolved ?_ hbuilt,hextends⟩
      rw [collectionSchema,hnext]
      rfl
    refine ⟨⟨fun ⟨evolved,hevolved⟩ => hsound evolved hevolved,fun hevolves => ?_⟩,?_⟩
    · obtain ⟨evolved,hevolved,-⟩ := hcomplete hevolves
      exact ⟨evolved,hevolved⟩
    · intro evolved hevolved
      obtain ⟨found,hfound,hextends⟩ := hcomplete (hsound evolved hevolved)
      rwa [Except.ok.inj (hevolved.symm.trans hfound)]

/-- A store reads back exactly when 32 bits count its columns; live rows always do. -/
theorem regions_round_trip {schema : Schema} {rows : List MetaRow} {store : ColumnStore}
    (hs : schema.Built) (hbuild : ColumnStoreBuilder.build schema rows = .ok store)
    (alive : AliveSet) :
    ((∃ bytes,encodeColumns store = .ok bytes) ↔
      ∀ d ∈ schema.columns,(utf8Bytes d.name).length < 2^32) ∧
    (∀ bytes,encodeColumns store = .ok bytes →
      (ReadsBack schema store bytes ↔ schema.columns.length < 2^32)) ∧
    ∃ decoded,decodeAlive (encodeAlive alive) = .ok decoded ∧
      decoded.rowCount = alive.rowCount ∧ decoded.alive = alive.alive := by
  refine ⟨encodeColumns_exists_iff hs hbuild,fun bytes h => ?_,decodeAlive_encodeAlive alive⟩
  constructor
  · intro hreads
    by_contra hlarge
    have hlength:=Nat.le_antisymm (columns_length_le hs) (Nat.le_of_not_lt hlarge)
    have hschema:=(ColumnStoreBuilder.build_ok_iff.mp hbuild).2.2.1
    have herror:=decodeColumns_wrapped (by rw [hschema,hlength]) h none
    rw [hreads.1] at herror
    cases herror
  · exact fun hcolumns => readsBack hs hcolumns hbuild h

/-- A store of one row with a user column. -/
theorem regions_round_trip_tag :
    let schema : Schema := ⟨[timestampDefinition,⟨1,"tag",.dictionaryString,true⟩]⟩
    ∃ store bytes,
      ColumnStoreBuilder.build schema [⟨7,[⟨1,.string "a"⟩]⟩] = .ok store ∧
        encodeColumns store = .ok bytes ∧ decodeColumns bytes none = .ok store := by
  intro schema
  have hs : schema.Built := rfl
  obtain ⟨store,hstore⟩ : ∃ store,
      ColumnStoreBuilder.build schema [⟨7,[⟨1,.string "a"⟩]⟩] = .ok store := ⟨_,rfl⟩
  obtain ⟨hwritten,hread,-⟩ := regions_round_trip hs hstore ⟨0,∅,∅,by simp⟩
  obtain ⟨bytes,hbytes⟩ := hwritten.mpr (by decide)
  exact ⟨store,bytes,hstore,hbytes,((hread bytes hbytes).mpr (by decide)).1⟩

def numberedColumn (i : ℕ) : ColumnDefinition := ⟨BitVec.ofNat 32 (i+1),(i+1).repr,.u64,true⟩

def numberedSchema (n : ℕ) : Schema := ⟨timestampDefinition::(List.range n).map numberedColumn⟩

theorem repr_ne_ts (n : ℕ) : n.repr ≠ "ts" := by
  intro h
  have hmem : 't' ∈ Nat.toDigits 10 n := by
    rw [← Nat.toList_repr,h]
    decide
  have hdigit:=Nat.isDigit_of_mem_toDigits (b := 10) (by norm_num) (by norm_num) hmem
  revert hdigit
  decide

theorem repr_injective {m n : ℕ} (h : m.repr = n.repr) : m = n := by
  have hdigits : Nat.toDigits 10 m = Nat.toDigits 10 n := by
    rw [← Nat.toList_repr,h,Nat.toList_repr]
  rw [← Nat.ofDigitChars_ten_toDigits (n := m),hdigits,Nat.ofDigitChars_ten_toDigits]

theorem utf8ByteSize_le (chars : List Char) :
    (String.ofList chars).utf8ByteSize ≤ 4*chars.length := by
  induction chars with
  | nil => simp
  | cons c chars ih =>
    have hsplit : String.ofList (c::chars) = String.singleton c++String.ofList chars := by simp
    have hone:=c.utf8Size_le_four
    rw [hsplit,String.utf8ByteSize_append,String.utf8ByteSize_singleton,length_cons]
    omega

theorem repr_size {n : ℕ} (h : n < 2^32) : (utf8Bytes n.repr).length < 2^32 := by
  have hlength:=Nat.repr_length n 10 (by norm_num) (by omega)
  have hsize:=utf8ByteSize_le n.repr.toList
  rw [String.ofList_toList,String.length_toList] at hsize
  rw [utf8Bytes_length]
  omega

theorem numberedSchema_built {n : ℕ} (h : n < 2^32) : (numberedSchema n).Built := by
  have hid : ∀ i < n,(BitVec.ofNat 32 (i+1)).toNat = i+1 := by
    intro i hi
    rw [BitVec.toNat_ofNat,Nat.mod_eq_of_lt (by omega)]
  refine Schema.new_ok_iff.mpr ⟨rfl,pairwise_cons.mpr ⟨?_,?_⟩⟩
  · intro d hd
    obtain ⟨i,hi,rfl⟩ := mem_map.mp hd
    refine ⟨fun hsame => ?_,fun hsame => repr_ne_ts _ hsame.symm⟩
    have hzero:=congrArg BitVec.toNat hsame
    rw [numberedColumn,hid i (mem_range.mp hi)] at hzero
    cases hzero
  · refine pairwise_map.mpr (pairwise_lt_range.imp_of_mem fun {i j} hi hj hlt => ?_)
    refine ⟨fun hsame => ?_,fun hsame => ?_⟩
    · have hnat:=congrArg BitVec.toNat hsame
      rw [numberedColumn,numberedColumn,hid i (mem_range.mp hi),
        hid j (mem_range.mp hj)] at hnat
      omega
    · have hnat:=repr_injective hsame
      omega

/-- An empty store with a column for every identifier is written and cannot be read. -/
theorem columns_wrapped :
    (numberedSchema (2^32-1)).Built ∧ ∃ store bytes,
      ColumnStoreBuilder.build (numberedSchema (2^32-1)) [] = .ok store ∧
        encodeColumns store = .ok bytes ∧
        decodeColumns bytes none = .error (.columns .timestampAbsent) := by
  obtain ⟨n,hn⟩ : ∃ n,n = 2^32-1 := ⟨_,rfl⟩
  rw [← hn]
  have hs:=numberedSchema_built (n := n) (by omega)
  obtain ⟨columns,hcolumns⟩ : ∃ columns,List.Forall₂ (fun (d : ColumnDefinition) column =>
      buildColumn d (columnCells [] d.id) = .ok column) (numberedSchema n).columns columns :=
    forall₂_of_exists fun d _ => by
      obtain ⟨column,hcolumn,-⟩ := buildColumn_null d 0
      exact ⟨column,hcolumn⟩
  have hbuild : ColumnStoreBuilder.build (numberedSchema n) [] = .ok ⟨numberedSchema n,columns,0⟩ :=
    ColumnStoreBuilder.build_ok_iff.mpr ⟨by simp,by simp,rfl,rfl,hcolumns⟩
  obtain ⟨bytes,hbytes⟩ := (encodeColumns_exists_iff hs hbuild).mpr (by
    intro d hd
    rcases mem_cons.mp hd with rfl | hd
    · decide
    · obtain ⟨i,hi,rfl⟩ := mem_map.mp hd
      rw [mem_range] at hi
      exact repr_size (by omega))
  refine ⟨hs,_,bytes,hbuild,hbytes,decodeColumns_wrapped ?_ hbytes none⟩
  rw [numberedSchema,length_cons,length_map,length_range]
  omega

end Zeppelin.Segment
