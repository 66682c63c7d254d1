import Zeppelin.Meta.ColumnBuild

namespace Zeppelin.Meta
open Ingest List

namespace Schema
variable {s declared : Schema}

structure Evolves (s declared : Schema) : Prop where
  kept : ∀ d ∈ s.columns,declared.column d.id = some d
  nullable : ∀ d ∈ declared.columns,s.column d.id = none → d.nullable = true

theorem checkPersisted_of_kept {columns : List ColumnDefinition}
    (h : ∀ d ∈ columns,declared.column d.id = some d) :
    checkPersisted declared columns = .ok () := by
  induction columns with
  | nil => rfl
  | cons persisted rest ih =>
    rw [checkPersisted,h persisted mem_cons_self]
    simp only [ne_eq,not_true_eq_false,if_false]
    exact ih fun d hd => h d (mem_cons_of_mem _ hd)

theorem addedColumns_of_nullable {columns : List ColumnDefinition}
    (h : ∀ d ∈ columns,s.column d.id = none → d.nullable = true) :
    ∃ added,s.addedColumns columns = .ok added := by
  induction columns with
  | nil => exact ⟨[],rfl⟩
  | cons candidate rest ih =>
    obtain ⟨added,hadded⟩ := ih fun d hd => h d (mem_cons_of_mem _ hd)
    unfold addedColumns
    by_cases hnone : (s.column candidate.id).isNone
    · have hnull:=h candidate mem_cons_self (Option.isNone_iff_eq_none.mp hnone)
      refine ⟨candidate::added,?_⟩
      rw [if_pos hnone,hnull,hadded]
      rfl
    · exact ⟨added,by rw [if_neg hnone,hadded]⟩

theorem additiveEvolution_ok_iff :
    (∃ evolved,s.additiveEvolution declared = .ok evolved) ↔ s.Evolves declared := by
  constructor
  · rintro ⟨evolved,h⟩
    obtain ⟨⟨⟩,hpersisted,h⟩ := bind_eq_ok h
    obtain ⟨added,hadded,-⟩ := bind_eq_ok h
    obtain ⟨rfl,hnullable⟩ := addedColumns_ok hadded
    refine ⟨checkPersisted_ok hpersisted,fun d hd hnone => ?_⟩
    exact hnullable d (mem_filter.mpr ⟨hd,by rw [hnone]; rfl⟩)
  · rintro ⟨hkept,hnullable⟩
    obtain ⟨added,hadded⟩ := addedColumns_of_nullable hnullable
    rw [additiveEvolution,checkPersisted_of_kept hkept,ok_bind,hadded]
    exact ⟨_,rfl⟩

theorem Built.evolves_self (h : s.Built) : s.Evolves s where
  kept := fun _ hd => h.column_of_mem hd
  nullable := by
    intro d hd hnone
    rw [h.column_of_mem hd] at hnone
    cases hnone

theorem Evolves.mem_of_column (h : s.Evolves declared) (hdeclared : declared.Built)
    {d d' : ColumnDefinition} (hd : d ∈ declared.columns) (hstored : s.column d.id = some d') :
    d ∈ s.columns := by
  obtain ⟨hmem,hid⟩ := Schema.mem_of_column hstored
  have hsame:=h.kept d' hmem
  rw [hid,hdeclared.column_of_mem hd] at hsame
  rwa [Option.some.inj hsame]

end Schema

namespace ColumnStoreBuilder
variable {schema : Schema} {before inputs : List ColumnInput}

def Takes (schema : Schema) (input : ColumnInput) : Prop :=
  input.column ≠ timestampColumn ∧
    ∃ d,schema.column input.column = some d ∧ compatibleWith input.value d.columnType = true

theorem validateInput_ok_iff {input : ColumnInput} : validateInput schema before input = .ok () ↔
    Takes schema input ∧ ∀ candidate ∈ before,candidate.column ≠ input.column := by
  unfold validateInput Takes
  split_ifs with hts hbefore
  · simp [hts]
  · obtain ⟨candidate,hmem,hsame⟩ := any_eq_true.mp hbefore
    simp only [decide_eq_true_eq] at hsame
    simp only [false_iff,not_and,not_forall,not_not]
    intro _
    exact ⟨candidate,hmem,hsame⟩
  · have hnone : ∀ candidate ∈ before,candidate.column ≠ input.column := by
      intro candidate hmem hsame
      exact hbefore (any_eq_true.mpr ⟨candidate,hmem,decide_eq_true hsame⟩)
    cases hcolumn : schema.column input.column with
    | none => simp
    | some d =>
      by_cases hcompatible : compatibleWith input.value d.columnType = true
      · simp only [hcompatible,if_true,true_iff]
        exact ⟨⟨hts,d,rfl,hcompatible⟩,hnone⟩
      · simp [hcompatible]

theorem validateEach_ok_iff : validateEach schema before inputs = .ok () ↔
    (∀ input ∈ inputs,Takes schema input ∧
      ∀ candidate ∈ before,candidate.column ≠ input.column) ∧
      inputs.Pairwise fun a b => a.column ≠ b.column := by
  induction inputs generalizing before with
  | nil => simp [validateEach]
  | cons input inputs ih =>
    have hstep : validateEach schema before (input::inputs) = .ok () ↔
        validateInput schema before input = .ok () ∧
          validateEach schema (before++[input]) inputs = .ok () := by
      constructor
      · intro h
        obtain ⟨⟨⟩,hfirst,hrest⟩ := bind_eq_ok h
        exact ⟨hfirst,hrest⟩
      · rintro ⟨hfirst,hrest⟩
        rw [validateEach,hfirst,ok_bind,hrest]
    rw [hstep,validateInput_ok_iff,ih,pairwise_cons,forall_mem_cons]
    simp only [mem_append,mem_singleton]
    constructor
    · rintro ⟨hfirst,hrest,hpair⟩
      refine ⟨⟨hfirst,fun x hx => ⟨(hrest x hx).1,?_⟩⟩,?_,hpair⟩
      · exact fun c hc => (hrest x hx).2 c (.inl hc)
      · exact fun x hx => (hrest x hx).2 input (.inr rfl)
    · rintro ⟨⟨hfirst,hrest⟩,hne,hpair⟩
      refine ⟨hfirst,fun x hx => ⟨(hrest x hx).1,?_⟩,hpair⟩
      rintro c (hc | rfl)
      · exact (hrest x hx).2 c hc
      · exact hne x hx

theorem requireEach_ok_iff {definitions : List ColumnDefinition} :
    requireEach inputs definitions = .ok () ↔ ∀ d ∈ definitions,
      d.id = timestampColumn ∨ d.nullable = true ∨ ∃ i,findInput inputs d.id = some i := by
  induction definitions with
  | nil => simp [requireEach]
  | cons d definitions ih =>
    rw [requireEach,forall_mem_cons,← ih]
    split_ifs with hmissing
    · obtain ⟨hid,hnullable,hnone⟩ := hmissing
      rw [Option.isNone_iff_eq_none] at hnone
      simp [hid,hnullable,hnone]
    · have hhere : d.id = timestampColumn ∨ d.nullable = true ∨
          ∃ i,findInput inputs d.id = some i := by
        by_contra hnot
        simp only [not_or,not_exists] at hnot
        exact hmissing ⟨hnot.1,hnot.2.1,Option.isNone_iff_eq_none.mpr
          (Option.eq_none_iff_forall_ne_some.mpr hnot.2.2)⟩
      simp [hhere]

theorem validateInputs_ok_iff : validateInputs schema inputs = .ok () ↔
    (∀ input ∈ inputs,Takes schema input) ∧
      inputs.Pairwise (fun a b => a.column ≠ b.column) ∧
      ∀ d ∈ schema.columns,
        d.id = timestampColumn ∨ d.nullable = true ∨ ∃ i,findInput inputs d.id = some i := by
  have hsplit : validateInputs schema inputs = .ok () ↔
      validateEach schema [] inputs = .ok () ∧ requireEach inputs schema.columns = .ok () := by
    constructor
    · intro h
      obtain ⟨⟨⟩,heach,hrequire⟩ := bind_eq_ok h
      exact ⟨heach,hrequire⟩
    · rintro ⟨heach,hrequire⟩
      rw [validateInputs,heach,ok_bind,hrequire]
  rw [hsplit,validateEach_ok_iff,requireEach_ok_iff]
  simp [and_assoc]

end ColumnStoreBuilder

def storedRow (schema : Schema) (r : MetaRow) : MetaRow :=
  ⟨r.timestamp,schema.userColumns.filterMap fun d => (r.value d.id).map (ColumnInput.mk d.id)⟩

section StoredRow
variable {schema declared : Schema} {r : MetaRow} {id : ColumnId}

theorem mem_storedRow {input : ColumnInput} (h : input ∈ (storedRow schema r).inputs) :
    ∃ d ∈ schema.userColumns,input.column = d.id ∧ r.value d.id = some input.value := by
  obtain ⟨d,hd,hinput⟩ := mem_filterMap.mp h
  obtain ⟨v,hv,rfl⟩ := Option.map_eq_some_iff.mp hinput
  exact ⟨d,hd,rfl,hv⟩

theorem findInput_stored {columns : List ColumnDefinition} (happart : columns.Pairwise Apart)
    {value : ColumnId → Option PredicateValue} :
    (findInput (columns.filterMap fun d => (value d.id).map (ColumnInput.mk d.id)) id).map
      ColumnInput.value = (columns.find? fun d => d.id = id).bind fun d => value d.id := by
  induction columns with
  | nil => rfl
  | cons d columns ih =>
    rw [pairwise_cons] at happart
    have hrest:=ih happart.2
    by_cases hid : d.id = id
    · rw [find?_cons_of_pos (by simpa using hid)]
      cases hvalue : value d.id with
      | some v =>
        rw [filterMap_cons_some (by rw [hvalue]; rfl),findInput,
          find?_cons_of_pos (by simpa using hid)]
        rw [Option.map_some,Option.bind_some,hvalue]
      | none =>
        have hnone : columns.find? (fun d => d.id = id) = none := by
          rw [find?_eq_none]
          intro other hother
          simp only [decide_eq_true_eq]
          exact fun hsame => (happart.1 other hother).1 (hid.trans hsame.symm)
        rw [filterMap_cons_none (by rw [hvalue]; rfl),hrest,hnone,Option.bind_some,hvalue]
        rfl
    · rw [find?_cons_of_neg (by simpa using hid),← hrest]
      cases hvalue : value d.id with
      | some v =>
        rw [filterMap_cons_some (by rw [hvalue]; rfl),findInput,
          find?_cons_of_neg (by simpa using hid)]
        rfl
      | none => rw [filterMap_cons_none (by rw [hvalue]; rfl)]

theorem column_user (hs : schema.Built) (hid : id ≠ timestampColumn) :
    schema.userColumns.find? (fun d => d.id = id) = schema.column id := by
  unfold Schema.column
  rw [hs.columns_eq,find?_cons_of_neg]
  simp only [decide_eq_true_eq]
  exact fun h => hid h.symm

theorem storedRow_value (hs : schema.Built) :
    (storedRow schema r).value id = (schema.column id).bind fun d => r.value d.id := by
  by_cases hid : id = timestampColumn
  · have hts : schema.column id = some timestampDefinition := by
      rw [hid]
      exact hs.column_of_mem (hs.columns_eq ▸ mem_cons_self)
    rw [hts,Option.bind_some,MetaRow.value,if_pos hid]
    exact (if_pos rfl).symm
  · have happart : schema.userColumns.Pairwise Apart := by
      have hall:=hs.apart
      rw [hs.columns_eq] at hall
      exact (pairwise_cons.mp hall).2
    rw [MetaRow.value,if_neg hid,storedRow,findInput_stored happart,column_user hs hid]

theorem storedRow_value_of_mem (hs : schema.Built) {d : ColumnDefinition}
    (hd : d ∈ schema.columns) : (storedRow schema r).value d.id = r.value d.id := by
  rw [storedRow_value hs,hs.column_of_mem hd,Option.bind_some]

theorem storedRow_valid (hs : schema.Built) (hdeclared : declared.Built)
    (hevolves : schema.Evolves declared)
    (hvalid : ColumnStoreBuilder.validateInputs schema r.inputs = .ok ()) :
    ColumnStoreBuilder.validateInputs declared (storedRow schema r).inputs = .ok () := by
  obtain ⟨htakes,-,hrequired⟩ := ColumnStoreBuilder.validateInputs_ok_iff.mp hvalid
  have hcolumns:=hs.columns_eq
  have happart:=hs.apart
  rw [hcolumns,pairwise_cons] at happart
  have huser : ∀ d ∈ schema.userColumns,d.id ≠ timestampColumn :=
    fun d hd h => (happart.1 d hd).1 h.symm
  refine ColumnStoreBuilder.validateInputs_ok_iff.mpr ⟨?_,?_,?_⟩
  · intro input hinput
    obtain ⟨d,hd,hcolumn,hvalue⟩ := mem_storedRow hinput
    have hmem : d ∈ schema.columns := hcolumns ▸ mem_cons_of_mem _ hd
    rw [MetaRow.value,if_neg (huser d hd)] at hvalue
    obtain ⟨given,hgiven,hsame⟩ := Option.map_eq_some_iff.mp hvalue
    have hid : given.column = d.id := by simpa using find?_some hgiven
    obtain ⟨-,d',hd',hcompatible⟩ := htakes given (mem_of_find?_eq_some hgiven)
    rw [hid,hs.column_of_mem hmem] at hd'
    obtain rfl := Option.some.inj hd'
    refine ⟨hcolumn ▸ huser d hd,d,?_,hsame ▸ hcompatible⟩
    rw [hcolumn]
    exact hevolves.kept d hmem
  · refine List.Pairwise.filterMap _ ?_ happart.2
    intro a b hab x hx y hy
    obtain ⟨_,-,rfl⟩ := Option.map_eq_some_iff.mp hx
    obtain ⟨_,-,rfl⟩ := Option.map_eq_some_iff.mp hy
    exact hab.1
  · intro d hd
    by_cases hts : d.id = timestampColumn
    · exact .inl hts
    right
    cases hstored : schema.column d.id with
    | none => exact .inl (hevolves.nullable d hd hstored)
    | some d' =>
      have hmem:=hevolves.mem_of_column hdeclared hd hstored
      rcases hrequired d hmem with h | h | ⟨i,hi⟩
      · exact absurd h hts
      · exact .inl h
      · right
        have hvalue:=storedRow_value_of_mem (r := r) hs hmem
        rw [MetaRow.value,if_neg hts,MetaRow.value,if_neg hts,hi,Option.map_some] at hvalue
        obtain ⟨j,hj,-⟩ := Option.map_eq_some_iff.mp hvalue
        exact ⟨j,hj⟩

end StoredRow

def BuilderColumn.Empty : BuilderColumn → Prop
  | .dictionary codes interner present =>
    (∀ code ∈ codes,code = 0) ∧ interner = .new ∧ present = ∅
  | .rawString values present => values.bytes = [] ∧ present = ∅
  | .id128 _ present | .u64 _ present | .i64 _ present | .f64 _ present | .bool _ present =>
    present = ∅

namespace BuilderColumn
variable {b : BuilderColumn}

theorem Empty.push (h : b.Empty) (row : U32) (column : ColumnId) :
    ∃ next,b.push row column none = .ok next ∧ next.Empty ∧ next.columnType = b.columnType := by
  cases b with
  | dictionary codes interner present =>
    refine ⟨_,rfl,⟨?_,h.2⟩,rfl⟩
    intro code hcode
    rcases mem_append.mp hcode with hcode | hcode
    · exact h.1 code hcode
    · exact mem_singleton.mp hcode
  | rawString values present =>
    have hnil : utf8Bytes "" = [] := by decide
    have hpush : values.push "" = .ok ⟨values.offsets++[0],[]⟩ := by
      rw [StringStorage.push,StringStorage.canPush,h.1,hnil]
      rfl
    refine ⟨.rawString ⟨values.offsets++[0],[]⟩ present,?_,⟨rfl,h.2⟩,rfl⟩
    rw [BuilderColumn.push,hpush]
    rfl
  | _ => exact ⟨_,rfl,h,rfl⟩

theorem Empty.fill (h : b.Empty) (row : U32) (column : ColumnId) (n : ℕ) : ∃ next,
    BuilderColumn.fill column row (List.replicate n none) b = .ok next ∧ next.Empty ∧
      next.columnType = b.columnType := by
  induction n generalizing b row with
  | zero => exact ⟨b,rfl,h,rfl⟩
  | succ n ih =>
    obtain ⟨one,hone,hempty,htype⟩ := h.push row column
    obtain ⟨next,hnext,hempty',htype'⟩ := ih hempty (row+1)
    rw [replicate_succ]
    exact ⟨next,fill_cons_ok_iff.mpr ⟨one,hone,hnext⟩,hempty',htype'.trans htype⟩

theorem Empty.finish (h : b.Empty) :
    ∃ final,b.finish = .ok final ∧ final.present = ∅ ∧ final.columnType = b.columnType := by
  cases b with
  | dictionary codes interner present =>
    obtain ⟨hcodes,rfl,hpresent⟩ := h
    have hnarrow : ∀ code ∈ codes,code.toNat < 2^16 := by
      intro code hcode
      rw [hcodes code hcode]
      decide
    obtain ⟨narrowed,hnarrowed⟩ := narrowCodes_of_small hnarrow
    have hfrom : DictionaryCodes.fromU32 codes DictionaryBuilder.new.lookup.length =
        .ok (.u16 narrowed) := by
      show (do let n ← codes.mapM narrowCode; return DictionaryCodes.u16 n) = _
      rw [hnarrowed]
      rfl
    refine ⟨.dictionaryString ⟨.u16 narrowed,DictionaryBuilder.new.values,present⟩,?_,hpresent,
      rfl⟩
    rw [BuilderColumn.finish,hfrom]
    rfl
  | rawString values present => exact ⟨_,rfl,h.2,rfl⟩
  | _ => exact ⟨_,rfl,h,rfl⟩

end BuilderColumn

theorem buildColumn_null (d : ColumnDefinition) (n : ℕ) : ∃ column,
    buildColumn d (List.replicate n none) = .ok column ∧ column.present = ∅ ∧
      column.columnType = d.columnType := by
  have hempty : (BuilderColumn.new d.columnType).Empty := by
    cases d.columnType with
    | dictionaryString => exact ⟨by simp,rfl,rfl⟩
    | rawString => exact ⟨rfl,rfl⟩
    | _ => rfl
  obtain ⟨b,hfill,hb,htype⟩ := hempty.fill 0 d.id n
  obtain ⟨column,hfinish,hpresent,htype'⟩ := hb.finish
  refine ⟨column,?_,hpresent,htype'.trans (htype.trans (BuilderColumn.holds_new _).2)⟩
  rw [buildColumn,hfill,ok_bind,hfinish]
  rfl

section Evolved
variable {schema declared : Schema} {rows : List MetaRow} {store : ColumnStore}

theorem columnCells_stored (hs : schema.Built) {d : ColumnDefinition} (hd : d ∈ schema.columns) :
    columnCells (rows.map (storedRow schema)) d.id = columnCells rows d.id := by
  unfold columnCells
  rw [map_map]
  exact map_congr_left fun r _ => storedRow_value_of_mem hs hd

theorem columnCells_added (hs : schema.Built) {id : ColumnId} (hid : schema.column id = none) :
    columnCells (rows.map (storedRow schema)) id = List.replicate rows.length none := by
  unfold columnCells
  rw [map_map,eq_replicate_iff]
  refine ⟨length_map _,fun cell hcell => ?_⟩
  obtain ⟨r,-,rfl⟩ := mem_map.mp hcell
  rw [Function.comp_apply,storedRow_value hs,hid]
  rfl

theorem build_stored (hs : schema.Built)
    (h : ColumnStoreBuilder.build schema rows = .ok store) :
    ColumnStoreBuilder.build schema (rows.map (storedRow schema)) = .ok store := by
  obtain ⟨hbound,hvalid,hschema,hcount,hcolumns⟩ := ColumnStoreBuilder.build_ok_iff.mp h
  refine ColumnStoreBuilder.build_ok_iff.mpr ⟨by rwa [length_map],?_,hschema,
    by rwa [length_map],?_⟩
  · intro r hr
    obtain ⟨given,hgiven,rfl⟩ := mem_map.mp hr
    exact storedRow_valid hs hs hs.evolves_self (hvalid given hgiven)
  · rw [forall₂_iff_zip] at hcolumns ⊢
    refine ⟨hcolumns.1,fun hmem => ?_⟩
    rw [columnCells_stored hs (of_mem_zip hmem).1]
    exact hcolumns.2 hmem

structure ColumnStore.Extends (store evolved : ColumnStore) (declared : Schema) : Prop where
  schema : evolved.schema = declared
  rowCount : evolved.rowCount = store.rowCount
  kept : ∀ d ∈ store.schema.columns,evolved.column d.id = store.column d.id
  added : ∀ d ∈ declared.columns,store.schema.column d.id = none →
    ∃ column,evolved.column d.id = some column ∧ column.columnType = d.columnType ∧
      column.present = ∅

theorem build_evolved (hs : schema.Built) (hdeclared : declared.Built)
    (hevolves : schema.Evolves declared)
    (h : ColumnStoreBuilder.build schema rows = .ok store) :
    ∃ evolved,ColumnStoreBuilder.build declared (rows.map (storedRow schema)) = .ok evolved ∧
      store.Extends evolved declared := by
  obtain ⟨hbound,hvalid,hschema,hcount,hcolumns⟩ := ColumnStoreBuilder.build_ok_iff.mp h
  subst hschema
  have hkept : ∀ d ∈ store.schema.columns,∃ column,store.column d.id = some column ∧
      buildColumn d (columnCells rows d.id) = .ok column :=
    fun d hd => ColumnStore.column_of_forall₂ hcolumns (hs.column_of_mem hd)
  have hevery : ∀ d ∈ declared.columns,∃ column,
      buildColumn d (columnCells (rows.map (storedRow store.schema)) d.id) = .ok column := by
    intro d hd
    cases hstored : store.schema.column d.id with
    | none =>
      obtain ⟨column,hcolumn,-⟩ := buildColumn_null d rows.length
      exact ⟨column,by rw [columnCells_added hs hstored,hcolumn]⟩
    | some d' =>
      have hmem:=hevolves.mem_of_column hdeclared hd hstored
      obtain ⟨column,-,hcolumn⟩ := hkept d hmem
      exact ⟨column,by rw [columnCells_stored hs hmem,hcolumn]⟩
  obtain ⟨columns,hbuilt⟩ := forall₂_of_exists hevery
  refine ⟨⟨declared,columns,store.rowCount⟩,?_,rfl,rfl,?_,?_⟩
  · refine ColumnStoreBuilder.build_ok_iff.mpr ⟨by rwa [length_map],?_,rfl,
      by rwa [length_map],hbuilt⟩
    intro r hr
    obtain ⟨given,hgiven,rfl⟩ := mem_map.mp hr
    exact storedRow_valid hs hdeclared hevolves (hvalid given hgiven)
  · intro d hd
    obtain ⟨column,hcolumn,hfilled⟩ := hkept d hd
    obtain ⟨evolved,hevolved,hsame⟩ :=
      ColumnStore.column_of_forall₂ (s := ⟨declared,columns,store.rowCount⟩) hbuilt
        (hevolves.kept d hd)
    rw [columnCells_stored hs hd,hfilled] at hsame
    rw [hevolved,hcolumn,Except.ok.inj hsame]
  · intro d hd hnone
    obtain ⟨evolved,hevolved,hsame⟩ :=
      ColumnStore.column_of_forall₂ (s := ⟨declared,columns,store.rowCount⟩) hbuilt
        (hdeclared.column_of_mem hd)
    obtain ⟨column,hcolumn,hpresent,htype⟩ := buildColumn_null d rows.length
    rw [columnCells_added hs hnone,hcolumn] at hsame
    obtain rfl := Except.ok.inj hsame
    exact ⟨column,hevolved,htype,hpresent⟩

end Evolved

end Zeppelin.Meta
