import Zeppelin.Meta.EvolvedStore
import Zeppelin.Meta.RowSemantics

/-! meta/columns.rs -/

namespace Zeppelin.Meta
open Ingest List

def DictionaryColumn.get (c : DictionaryColumn) (row : U32) : Option String :=
  if row ∈ c.present then (c.codes.toList[row.toNat]?).bind fun code => c.dictionary.get code.toNat
  else none

def Column.get (row : U32) : Column → Option PredicateValue
  | .u64 column => (column.get row).map .u64
  | .id128 column => (column.get row).map .id128
  | .i64 column => (column.get row).map .i64
  | .f64 column => (column.get row).map .f64
  | .bool column => (getBool column row).map .bool
  | .dictionaryString column => (column.get row).map .string
  | .rawString column => (column.get row).map .string

namespace ColumnStoreBuilder

/-- The push loop; the columns before a failing one have advanced. -/
def pushInto (row : U32) (r : MetaRow) :
    List ColumnDefinition → List BuilderColumn → Except BuildError Unit × List BuilderColumn
  | definition::definitions,builder::columns =>
    match builder.push row definition.id (r.value definition.id) with
    | .error e => (.error e,builder::columns)
    | .ok pushed =>
      let rest:=pushInto row r definitions columns
      (rest.1,pushed::rest.2)
  | _,columns => (.ok (),columns)

def pushRowInPlace (b : ColumnStoreBuilder) (r : MetaRow) :
    Except BuildError U32 × ColumnStoreBuilder :=
  if b.rowCount = BitVec.allOnes 32 then (.error .tooManyRows,b)
  else
    match validateInputs b.schema r.inputs with
    | .error e => (.error e,b)
    | .ok () =>
      match preflightAll r (b.schema.columns.zip b.columns) with
      | .error e => (.error e,b)
      | .ok () =>
        let pushed:=pushInto b.rowCount r b.schema.columns b.columns
        match pushed.1 with
        | .error e => (.error e,{ b with columns := pushed.2 })
        | .ok () => (.ok b.rowCount,⟨b.schema,pushed.2,b.rowCount+1⟩)

def pushCalls (b : ColumnStoreBuilder) : List MetaRow → List (U32 × MetaRow) × ColumnStoreBuilder
  | [] => ([],b)
  | r::calls =>
    match b.pushRowInPlace r with
    | (.error _,after) => after.pushCalls calls
    | (.ok row,after) =>
      let rest:=after.pushCalls calls
      ((row,r)::rest.1,rest.2)

end ColumnStoreBuilder

theorem StringStorage.push_of_canPush {s : StringStorage} {value : String}
    (h : s.canPush value = .ok ()) : ∃ next,s.push value = .ok next :=
  ⟨_,by rw [StringStorage.push,h,ok_bind]; rfl⟩

namespace DictionaryBuilder
variable {d next : DictionaryBuilder} {value : String} {code : U32}

theorem canIntern_none (hnone : d.lookup.lookup value = none)
    (h : d.canIntern value = .ok ()) :
    d.lookup.length+1 < 2^32 ∧ d.values.canPush value = .ok () := by
  unfold canIntern at h
  rw [hnone] at h
  obtain ⟨width,hwidth,hpush⟩ := bind_eq_ok h
  refine ⟨?_,hpush⟩
  unfold codeWidthForCardinality at hwidth
  split_ifs at hwidth with hsmall hlarge
  · omega
  · omega

theorem intern_of_canIntern (h : d.canIntern value = .ok ()) :
    ∃ code next,d.intern value = .ok (code,next) := by
  cases hfound : d.lookup.lookup value with
  | some code => exact ⟨code,d,by rw [intern,hfound]⟩
  | none =>
    obtain ⟨hroom,hcan⟩ := canIntern_none hfound h
    obtain ⟨values,hvalues⟩ := StringStorage.push_of_canPush hcan
    have hcode : toU32 d.lookup.length = some (BitVec.ofNat 32 d.lookup.length) :=
      if_pos (by omega)
    exact ⟨_,_,by simp only [intern,hfound,h,ok_bind,hcode,hvalues]; rfl⟩

theorem intern_room (hroom : d.lookup.length < 2^32) (h : d.intern value = .ok (code,next)) :
    next.lookup.length < 2^32 := by
  unfold intern at h
  cases hfound : d.lookup.lookup value with
  | some found =>
    rw [hfound] at h
    obtain ⟨-,rfl⟩ := Prod.mk.inj (Except.ok.inj h)
    exact hroom
  | none =>
    rw [hfound] at h
    obtain ⟨⟨⟩,hcan,h⟩ := bind_eq_ok h
    obtain ⟨hlt,-⟩ := canIntern_none hfound hcan
    cases hcode : toU32 d.lookup.length with
    | none =>
      rw [hcode] at h
      cases h
    | some fresh =>
      rw [hcode] at h
      obtain ⟨values,-,h⟩ := bind_eq_ok h
      obtain ⟨-,rfl⟩ := Prod.mk.inj (Except.ok.inj h)
      rw [length_append,length_singleton]
      exact hlt

end DictionaryBuilder

def BuilderColumn.Roomy : BuilderColumn → Prop
  | .dictionary _ interner _ => interner.lookup.length < 2^32
  | _ => True

namespace BuilderColumn
variable {b next : BuilderColumn} {row : U32} {column : ColumnId} {cell : Option PredicateValue}
  {cells : List (Option PredicateValue)}

theorem push_of_preflight (h : b.preflight cell = .ok ())
    (hcell : ∀ v,cell = some v → compatibleWith v b.columnType = true) :
    ∃ next,b.push row column cell = .ok next := by
  cases cell with
  | none =>
    cases b with
    | rawString values present =>
      obtain ⟨next,hnext⟩ := StringStorage.push_of_canPush h
      exact ⟨_,by rw [push,hnext]; rfl⟩
    | _ => exact ⟨_,rfl⟩
  | some v =>
    have hv:=hcell v rfl
    cases b with
    | dictionary codes interner present =>
      cases v with
      | string value =>
        obtain ⟨code,next,hnext⟩ := DictionaryBuilder.intern_of_canIntern h
        exact ⟨_,by rw [push,hnext]; rfl⟩
      | _ => cases hv
    | rawString values present =>
      cases v with
      | string value =>
        obtain ⟨next,hnext⟩ := StringStorage.push_of_canPush h
        exact ⟨_,by rw [push,hnext]; rfl⟩
      | _ => cases hv
    | _ =>
      cases v with
      | _ => first | exact ⟨_,rfl⟩ | cases hv

theorem Roomy.push (h : b.Roomy) (hpush : b.push row column cell = .ok next) : next.Roomy := by
  unfold BuilderColumn.push at hpush
  split at hpush
  case h_11 value =>
    obtain ⟨⟨code,interner⟩,hintern,rfl⟩ := bind_pure_eq_ok hpush
    exact DictionaryBuilder.intern_room h (mapError_eq_ok hintern)
  case h_12 =>
    obtain rfl := Except.ok.inj hpush
    exact h
  case h_13 | h_14 =>
    obtain ⟨values,hvalues,rfl⟩ := bind_pure_eq_ok hpush
    trivial
  case h_15 => cases hpush
  all_goals
    obtain rfl := Except.ok.inj hpush
    trivial

/-- The codes of a dictionary column are those of its strings, so they fit the width chosen. -/
theorem finish_of_roomy (hroomy : b.Roomy) (hholds : b.Holds cells) (hfits : b.Fits cells) :
    ∃ final,b.finish = .ok final := by
  cases b with
  | dictionary codes interner present =>
    obtain ⟨strings,hsound,hstores⟩ := hholds
    have hcode : ∀ code ∈ codes,code = 0 ∨ code.toNat < interner.lookup.length := by
      intro code hmem
      obtain ⟨i,hi,rfl⟩ := getElem_of_mem hmem
      have hlt : i < cells.length := hstores.length ▸ hi
      cases hcell : cells[i] with
      | none =>
        have hzero:=hfits.1 i (by rw [getElem?_eq_getElem hlt,hcell])
        rw [getElem?_eq_getElem hi] at hzero
        exact .inl (Option.some.inj hzero)
      | some v =>
        obtain ⟨code,hat,value,-,hstring⟩ :=
          hstores.value i v (by rw [getElem?_eq_getElem hlt,hcell])
        rw [getElem?_eq_getElem hi] at hat
        obtain rfl := Option.some.inj hat
        rw [hsound.length]
        exact .inr (List.getElem?_eq_some_iff.mp hstring).1
    have hroom : interner.lookup.length < 2^32 := hroomy
    have hfrom : ∃ narrowed,DictionaryCodes.fromU32 codes interner.lookup.length =
        .ok narrowed := by
      unfold DictionaryCodes.fromU32 codeWidthForCardinality
      split_ifs with hsmall hlarge
      · have hnarrow : ∀ code ∈ codes,code.toNat < 2^16 := by
          intro code hmem
          rcases hcode code hmem with rfl | hlt
          · decide
          · omega
        obtain ⟨narrowed,hnarrowed⟩ := narrowCodes_of_small hnarrow
        exact ⟨.u16 narrowed,by simp only [ok_bind,hnarrowed]; rfl⟩
      · exact ⟨.u32 codes,rfl⟩
      · omega
    obtain ⟨narrowed,hnarrowed⟩ := hfrom
    exact ⟨_,by rw [finish,hnarrowed]; rfl⟩
  | _ => exact ⟨_,rfl⟩

end BuilderColumn

theorem Stores.get {α β : Type} {rel : α → PredicateValue → Prop} {values : List α}
    {present : DocBitmap} {cells : List (Option PredicateValue)} {row : U32}
    (h : Stores rel values present cells) {read : α → Option β} {make : β → PredicateValue}
    (hread : ∀ a v,rel a v → (read a).map make = some v) :
    (if row ∈ present then (values[row.toNat]?).bind read else none).map make =
      (cells[row.toNat]?).join := by
  by_cases hrow : row ∈ present
  · obtain ⟨v,hv⟩ := (h.present row).mp hrow
    obtain ⟨a,ha,hav⟩ := h.value _ v hv
    rw [if_pos hrow,ha,Option.bind_some,hread a v hav,hv]
    rfl
  · rw [if_neg hrow,Option.map_none]
    cases hcell : cells[row.toNat]? with
    | none => rfl
    | some cell =>
      cases cell with
      | none => rfl
      | some v => exact absurd ((h.present row).mpr ⟨v,hcell⟩) hrow

theorem Stores.getNumeric {α : Type} {rel : α → PredicateValue → Prop} {column : NumericColumn α}
    {cells : List (Option PredicateValue)} {row : U32} {make : α → PredicateValue}
    (h : Stores rel column.values column.present cells) (hrel : ∀ a v,rel a v → v = make a) :
    (column.get row).map make = (cells[row.toNat]?).join := by
  have hread : ∀ a v,rel a v → (some a).map make = some v := fun a v hv =>
    congrArg some (hrel a v hv).symm
  rw [← h.get hread,Option.bind_fun_some]
  rfl

theorem Column.Holds.get {column : Column} {cells : List (Option PredicateValue)}
    (h : column.Holds cells) (row : U32) : column.get row = (cells[row.toNat]?).join := by
  cases column with
  | dictionaryString column =>
    obtain ⟨strings,-,hlays,hstores⟩ := h
    refine @Stores.get _ _ _ _ _ _ row hstores _ .string ?_
    intro code v hv
    obtain ⟨value,rfl,hvalue⟩ := hv
    rw [hlays.get,hvalue]
    rfl
  | rawString column =>
    obtain ⟨strings,hlays,hstores⟩ := h
    have hread:=@Stores.getNumeric _ _ ⟨strings,column.present⟩ _ row .string hstores
      fun a v hv => hv
    rw [NumericColumn.get,← hlays.get] at hread
    exact hread
  | bool column =>
    rw [Column.get,getBool,Option.map_map]
    refine Stores.getNumeric h ?_
    intro a v hv
    obtain ⟨value,rfl,rfl⟩ := hv
    cases value with
    | false => rfl
    | true => rfl
  | _ => exact Stores.getNumeric h fun a v hv => hv

namespace ColumnStoreBuilder

structure Keeps (rows : List MetaRow) (d : ColumnDefinition) (c : BuilderColumn) : Prop where
  columnType : c.columnType = d.columnType
  holds : c.Holds (columnCells rows d.id)
  fits : c.Fits (columnCells rows d.id)
  roomy : c.Roomy

variable {b next : ColumnStoreBuilder} {rows : List MetaRow} {r : MetaRow} {row : U32}
  {schema : Schema} {definitions : List ColumnDefinition} {columns : List BuilderColumn}

theorem keeps_new (d : ColumnDefinition) : Keeps [] d (.new d.columnType) where
  columnType := (BuilderColumn.holds_new _).2
  holds := (BuilderColumn.holds_new _).1
  fits := BuilderColumn.fits_new _
  roomy := by
    cases d.columnType with
    | dictionaryString => simp [BuilderColumn.Roomy,BuilderColumn.new,DictionaryBuilder.new]
    | _ => trivial

theorem Keeps.push {d : ColumnDefinition} {c pushed : BuilderColumn} (h : Keeps rows d c)
    (hrow : row.toNat = rows.length) (hpush : c.push row d.id (r.value d.id) = .ok pushed) :
    Keeps (rows++[r]) d pushed := by
  have hcells : columnCells (rows++[r]) d.id = columnCells rows d.id++[r.value d.id] :=
    map_append
  obtain ⟨hholds,htype⟩ := h.holds.push (by rw [columnCells,length_map]; exact hrow) hpush
  exact ⟨htype.trans h.columnType,hcells ▸ hholds,hcells ▸ h.fits.push h.holds hpush,
    h.roomy.push hpush⟩

theorem pushInto_ok (hrow : row.toNat = rows.length)
    (hcells : ∀ d ∈ definitions,∀ v,r.value d.id = some v → compatibleWith v d.columnType = true)
    (h : List.Forall₂ (Keeps rows) definitions columns)
    (hpreflight : preflightAll r (definitions.zip columns) = .ok ()) :
    ∃ pushed,pushInto row r definitions columns = (.ok (),pushed) ∧
      pushAll row r (definitions.zip columns) = .ok pushed ∧
      List.Forall₂ (Keeps (rows++[r])) definitions pushed := by
  induction h with
  | nil => exact ⟨[],rfl,rfl,.nil⟩
  | @cons d c definitions columns hone hrest ih =>
    obtain ⟨⟨⟩,hfirst,hpreflight⟩ := bind_eq_ok hpreflight
    obtain ⟨pushed,hpush⟩ : ∃ next,c.push row d.id (r.value d.id) = .ok next :=
      BuilderColumn.push_of_preflight (mapError_eq_ok hfirst)
        (hone.columnType ▸ hcells d mem_cons_self)
    obtain ⟨rest,hinto,hall,hkeeps⟩ :=
      ih (fun d hd => hcells d (mem_cons_of_mem _ hd)) hpreflight
    refine ⟨pushed::rest,?_,?_,.cons (hone.push hrow hpush) hkeeps⟩
    · simp only [pushInto,hpush,hinto]
    · simp only [zip_cons_cons,pushAll,hpush,ok_bind,hall]
      rfl

theorem compatible_of_valid (hs : schema.Built)
    (hvalid : validateInputs schema r.inputs = .ok ()) :
    ∀ d ∈ schema.columns,∀ v,r.value d.id = some v → compatibleWith v d.columnType = true := by
  intro d hd v hv
  by_cases hts : d.id = timestampColumn
  · have hfirst : timestampDefinition ∈ schema.columns := hs.columns_eq ▸ mem_cons_self
    have hsame : schema.column timestampColumn = some d := hts ▸ hs.column_of_mem hd
    obtain rfl := Option.some.inj ((hs.column_of_mem hfirst).symm.trans hsame)
    rw [MetaRow.value,if_pos hts] at hv
    obtain rfl := Option.some.inj hv
    rfl
  · rw [MetaRow.value,if_neg hts] at hv
    obtain ⟨given,hgiven,rfl⟩ := Option.map_eq_some_iff.mp hv
    have hid : given.column = d.id := by simpa using find?_some hgiven
    obtain ⟨-,d',hd',hcompatible⟩ :=
      (validateInputs_ok_iff.mp hvalid).1 given (mem_of_find?_eq_some hgiven)
    rw [hid,hs.column_of_mem hd] at hd'
    exact Option.some.inj hd' ▸ hcompatible

structure Ready (schema : Schema) (rows : List MetaRow) (b : ColumnStoreBuilder) : Prop where
  ofSchema : b.schema = schema
  columns : List.Forall₂ (Keeps rows) schema.columns b.columns
  rowCount : b.rowCount.toNat = rows.length

theorem ready_new (schema : Schema) : Ready schema [] (new schema) where
  ofSchema := rfl
  columns := by
    rw [new,forall₂_map_right_iff,forall₂_same]
    exact fun d _ => keeps_new d
  rowCount := rfl

/-- A call leaves the builder unless it accepts the row, and then it is the next one. -/
theorem Ready.pushRowInPlace (hs : schema.Built) (h : Ready schema rows b) (r : MetaRow) :
    (∃ e,b.pushRow r = .error e ∧ b.pushRowInPlace r = (.error e,b)) ∨
      ∃ next,b.pushRow r = .ok next ∧ b.pushRowInPlace r = (.ok b.rowCount,next) ∧
        Ready schema (rows++[r]) next := by
  obtain ⟨rfl,hcolumns,hcount⟩ := h
  unfold ColumnStoreBuilder.pushRowInPlace ColumnStoreBuilder.pushRow
  split_ifs with hfull
  · exact .inl ⟨_,rfl,rfl⟩
  cases hvalid : validateInputs b.schema r.inputs with
  | error e => exact .inl ⟨e,rfl,rfl⟩
  | ok valid =>
    cases hpreflight : preflightAll r (b.schema.columns.zip b.columns) with
    | error e => exact .inl ⟨e,rfl,rfl⟩
    | ok ready =>
      obtain ⟨pushed,hinto,hall,hkeeps⟩ :=
        pushInto_ok hcount (compatible_of_valid hs hvalid) hcolumns hpreflight
      refine .inr ⟨⟨b.schema,pushed,b.rowCount+1⟩,?_,?_,rfl,hkeeps,?_⟩
      · simp only [ok_bind,hall]
        rfl
      · simp only [hinto]
      · have hlt : b.rowCount.toNat+1 < 2^32 := by
          have hbound:=b.rowCount.isLt
          have hne : b.rowCount.toNat ≠ 2^32-1 := fun heq => hfull (BitVec.eq_of_toNat_eq heq)
          omega
        rw [length_append,length_singleton,← hcount]
        exact BitVec.toNat_add_of_lt hlt

theorem Ready.pushCalls (hs : schema.Built) (h : Ready schema rows b) (calls : List MetaRow) :
    Ready schema (rows++(b.pushCalls calls).1.map Prod.snd) (b.pushCalls calls).2 ∧
      (b.pushCalls calls).1.map (fun accepted => accepted.1.toNat) =
        List.range' rows.length (b.pushCalls calls).1.length := by
  induction calls generalizing b rows with
  | nil => exact ⟨by rwa [ColumnStoreBuilder.pushCalls,map_nil,append_nil],rfl⟩
  | cons r calls ih =>
    rcases h.pushRowInPlace hs r with ⟨e,-,hpush⟩ | ⟨next,-,hpush,hnext⟩
    · simp only [ColumnStoreBuilder.pushCalls,hpush]
      exact ih h
    · obtain ⟨hready,hnumbers⟩ := ih hnext
      simp only [ColumnStoreBuilder.pushCalls,hpush,map_cons,length_cons]
      refine ⟨by rwa [append_assoc] at hready,?_⟩
      rw [hnumbers,length_append,length_singleton,h.rowCount,range'_succ]

theorem mapM_finish (h : List.Forall₂ (Keeps rows) definitions columns) :
    ∃ finished,columns.mapM BuilderColumn.finish = .ok finished := by
  induction h with
  | nil => exact ⟨[],rfl⟩
  | cons hone _ ih =>
    obtain ⟨column,hcolumn⟩ := BuilderColumn.finish_of_roomy hone.roomy hone.holds hone.fits
    obtain ⟨rest,hrest⟩ := ih
    exact ⟨column::rest,by rw [mapM_cons,hcolumn,hrest]; rfl⟩

theorem Ready.finish (h : Ready schema rows b) : ∃ store,b.finish = .ok store ∧
    store.schema = schema ∧ store.Holds rows := by
  obtain ⟨finished,hfinished⟩ := mapM_finish h.columns
  refine ⟨⟨b.schema,finished,b.rowCount⟩,?_,h.ofSchema,?_,h.rowCount⟩
  · rw [ColumnStoreBuilder.finish,hfinished]
    rfl
  · obtain ⟨rfl,hcolumns,-⟩ := h
    exact finish_holds (hcolumns.imp fun d c hc => ⟨hc.columnType,hc.holds⟩) hfinished

/-- A rejected row leaves the builder, and the store gives back the accepted ones in order. -/
theorem pushed_rows_read_back (hs : schema.Built) (calls : List MetaRow) :
    (∀ r e,(((new schema).pushCalls calls).2.pushRowInPlace r).1 = .error e →
      (((new schema).pushCalls calls).2.pushRowInPlace r).2 = ((new schema).pushCalls calls).2) ∧
    ((new schema).pushCalls calls).1.map (fun accepted => accepted.1.toNat) =
      List.range ((new schema).pushCalls calls).1.length ∧
    ∃ store,((new schema).pushCalls calls).2.finish = .ok store ∧ store.schema = schema ∧
      store.rowCount.toNat = ((new schema).pushCalls calls).1.length ∧
      ∀ d ∈ schema.columns,∃ column,store.column d.id = some column ∧
        column.columnType = d.columnType ∧ ∀ row,column.get row =
          rowCell (((new schema).pushCalls calls).1.map Prod.snd) row d.id := by
  obtain ⟨hready,hnumbers⟩ := (ready_new schema).pushCalls hs calls
  rw [nil_append] at hready
  refine ⟨?_,by rw [hnumbers,range_eq_range']; rfl,?_⟩
  · intro r e he
    rcases hready.pushRowInPlace hs r with ⟨e',-,hpush⟩ | ⟨next,-,hpush,-⟩
    · rw [hpush]
    · rw [hpush] at he
      cases he
  · obtain ⟨store,hfinish,hschema,hholds⟩ := hready.finish
    refine ⟨store,hfinish,hschema,by rw [hholds.rowCount,length_map],?_⟩
    intro d hd
    obtain ⟨column,hcolumn,htype,hcells⟩ :=
      hholds.column (show store.schema.column d.id = some d from hschema ▸ hs.column_of_mem hd)
    exact ⟨column,hcolumn,htype,fun row => (hcells.get row).trans (columnCells_join _ row _)⟩

def tagged : Schema := ⟨[timestampDefinition,⟨1,"tag",.dictionaryString,true⟩]⟩

theorem pushed_tags_read_back : ∃ store,((new tagged).pushCalls
    [⟨5,[⟨1,.string "a"⟩]⟩,⟨6,[⟨2,.u64 0⟩]⟩,⟨7,[]⟩]).2.finish = .ok store ∧
      store.rowCount.toNat = 2 := by
  obtain ⟨-,-,store,hfinish,-,hcount,-⟩ :=
    pushed_rows_read_back (show tagged.Built from rfl)
      [⟨5,[⟨1,.string "a"⟩]⟩,⟨6,[⟨2,.u64 0⟩]⟩,⟨7,[]⟩]
  exact ⟨store,hfinish,hcount.trans rfl⟩

end ColumnStoreBuilder

end Zeppelin.Meta
