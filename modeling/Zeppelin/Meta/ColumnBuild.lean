import Zeppelin.Meta.ColumnRows
import Zeppelin.Meta.Evolution

namespace Zeppelin.Meta
open Ingest List

namespace BuilderColumn
variable {b next : BuilderColumn} {row : U32} {column : ColumnId} {cell : Option PredicateValue}
  {cells : List (Option PredicateValue)}

theorem preflight_of_push (h : b.push row column cell = .ok next) : b.preflight cell = .ok () := by
  cases b with
  | dictionary codes interner present =>
    cases cell with
    | none => rfl
    | some v =>
      cases v with
      | string value =>
        obtain ⟨⟨code,interner'⟩,hintern,-⟩ := bind_eq_ok h
        have hintern:=mapError_eq_ok hintern
        unfold DictionaryBuilder.intern at hintern
        show interner.canIntern value = .ok ()
        cases hfound : interner.lookup.lookup value with
        | some found =>
          rw [DictionaryBuilder.canIntern,hfound]
          rfl
        | none =>
          rw [hfound] at hintern
          obtain ⟨⟨⟩,hcan,-⟩ := bind_eq_ok hintern
          exact hcan
      | _ => rfl
  | rawString values present =>
    cases cell with
    | none =>
      obtain ⟨_,hpush,-⟩ := bind_eq_ok h
      obtain ⟨⟨⟩,hcan,-⟩ := bind_eq_ok (mapError_eq_ok hpush)
      exact hcan
    | some v =>
      cases v with
      | string value =>
        obtain ⟨_,hpush,-⟩ := bind_eq_ok h
        obtain ⟨⟨⟩,hcan,-⟩ := bind_eq_ok (mapError_eq_ok hpush)
        exact hcan
      | _ => rfl
  | _ => rfl

/-- The column after the given cells, the first of them at `row`. -/
def fill (column : ColumnId) :
    U32 → List (Option PredicateValue) → BuilderColumn → Except BuildError BuilderColumn
  | _,[],b => .ok b
  | row,cell::cells,b => do
    let one ← b.push row column cell
    fill column (row+1) cells one

theorem fill_cons_ok_iff : fill column row (cell::cells) b = .ok next ↔
    ∃ one,b.push row column cell = .ok one ∧ fill column (row+1) cells one = .ok next := by
  constructor
  · intro h
    exact bind_eq_ok h
  · rintro ⟨one,hone,hrest⟩
    rw [fill,hone,ok_bind,hrest]

theorem fill_induct {P : List (Option PredicateValue) → BuilderColumn → Prop}
    (hpush : ∀ before cell row b next,row.toNat = before.length → P before b →
      b.push row column cell = .ok next → P (before++[cell]) next)
    (before : List (Option PredicateValue)) (hb : P before b) (hrow : row.toNat = before.length)
    (hbound : before.length+cells.length < 2^32) (h : fill column row cells b = .ok next) :
    P (before++cells) next := by
  induction cells generalizing before row b with
  | nil =>
    obtain rfl := Except.ok.inj h
    rwa [append_nil]
  | cons cell cells ih =>
    obtain ⟨one,hone,hrest⟩ := fill_cons_ok_iff.mp h
    rw [length_cons] at hbound
    have hnext : (row+1).toNat = (before++[cell]).length := by
      rw [BitVec.toNat_add_of_lt (by simp; omega),hrow,length_append]
      rfl
    have hall:=ih (before++[cell]) (hpush before cell row b one hrow hb hone) hnext
      (by rw [length_append,length_singleton]; omega) hrest
    rwa [append_assoc] at hall

end BuilderColumn

def buildColumn (definition : ColumnDefinition) (cells : List (Option PredicateValue)) :
    Except BuildError Column := do
  let builder ← BuilderColumn.fill definition.id 0 cells (.new definition.columnType)
  Except.mapError .dictionary builder.finish

/-- A null row has code zero, and texts stay below four gigabytes. -/
def BuilderColumn.Fits (cells : List (Option PredicateValue)) : BuilderColumn → Prop
  | .dictionary codes interner _ =>
    (∀ i : ℕ,cells[i]? = some none → codes[i]? = some 0) ∧ interner.values.bytes.length < 2^32
  | .rawString values _ => values.bytes.length < 2^32
  | _ => True

def Column.Fits (cells : List (Option PredicateValue)) : Column → Prop
  | .dictionaryString column =>
    (∀ i : ℕ,cells[i]? = some none → column.codes.toList[i]? = some 0) ∧
      column.dictionary.bytes.length < 2^32 ∧ column.dictionary.len < 2^32
  | .rawString column => column.values.bytes.length < 2^32
  | _ => True

theorem StringStorage.push_fits {s next : StringStorage} {value : String}
    (h : s.push value = .ok next) : next.bytes.length < 2^32 := by
  obtain ⟨⟨⟩,hcan,rfl⟩ := bind_pure_eq_ok h
  unfold StringStorage.canPush at hcan
  split_ifs at hcan with hlt
  simpa using hlt

theorem DictionaryBuilder.intern_fits {d next : DictionaryBuilder} {value : String} {code : U32}
    (hd : d.values.bytes.length < 2^32) (h : d.intern value = .ok (code,next)) :
    next.values.bytes.length < 2^32 := by
  unfold DictionaryBuilder.intern at h
  cases hfound : d.lookup.lookup value with
  | some found =>
    rw [hfound] at h
    obtain ⟨-,rfl⟩ := Prod.mk.inj (Except.ok.inj h)
    exact hd
  | none =>
    rw [hfound] at h
    obtain ⟨⟨⟩,-,h⟩ := bind_eq_ok h
    cases hcode : toU32 d.lookup.length with
    | none =>
      rw [hcode] at h
      cases h
    | some fresh =>
      rw [hcode] at h
      obtain ⟨values,hpush,h⟩ := bind_eq_ok h
      obtain ⟨-,rfl⟩ := Prod.mk.inj (Except.ok.inj h)
      exact StringStorage.push_fits hpush

namespace BuilderColumn
variable {b next : BuilderColumn} {row : U32} {column : ColumnId} {cell : Option PredicateValue}
  {cells : List (Option PredicateValue)}

theorem fits_new (columnType : ColumnType) : (new columnType).Fits [] := by
  cases columnType with
  | dictionaryString => exact ⟨by simp,by simp [DictionaryBuilder.new,StringStorage.new]⟩
  | rawString => simp [Fits,new,StringStorage.new]
  | _ => trivial

theorem nullCodes_push {codes : List U32} {code : U32} (hlen : codes.length = cells.length)
    (hcodes : ∀ i : ℕ,cells[i]? = some none → codes[i]? = some 0) (hcode : cell = none → code = 0) :
    ∀ i : ℕ,(cells++[cell])[i]? = some none → (codes++[code])[i]? = some 0 := by
  intro i hi
  rcases Nat.lt_or_ge i cells.length with hlt | hge
  · rw [getElem?_append_left hlt] at hi
    rw [getElem?_append_left (hlen ▸ hlt)]
    exact hcodes i hi
  · have hlast : i = cells.length := by
      have hbound:=(List.getElem?_eq_some_iff.mp hi).1
      rw [length_append,length_singleton] at hbound
      omega
    subst hlast
    rw [getElem?_concat_length] at hi
    rw [← hlen,getElem?_concat_length,hcode (Option.some.inj hi)]

theorem Fits.push (h : b.Fits cells) (hholds : b.Holds cells)
    (hpush : b.push row column cell = .ok next) : next.Fits (cells++[cell]) := by
  unfold BuilderColumn.push at hpush
  split at hpush
  case h_11 value =>
    obtain ⟨⟨code,interner⟩,hintern,rfl⟩ := bind_pure_eq_ok hpush
    obtain ⟨strings,-,hstores⟩ := hholds
    exact ⟨nullCodes_push hstores.length h.1 (fun hnone => nomatch hnone),
      DictionaryBuilder.intern_fits h.2 (mapError_eq_ok hintern)⟩
  case h_12 =>
    obtain rfl := Except.ok.inj hpush
    obtain ⟨strings,-,hstores⟩ := hholds
    exact ⟨nullCodes_push hstores.length h.1 (fun _ => rfl),h.2⟩
  case h_13 | h_14 =>
    obtain ⟨values,hvalues,rfl⟩ := bind_pure_eq_ok hpush
    exact StringStorage.push_fits (mapError_eq_ok hvalues)
  case h_15 => cases hpush
  all_goals
    obtain rfl := Except.ok.inj hpush
    trivial

theorem Fits.finish (h : b.Fits cells) (hholds : b.Holds cells) {final : Column}
    (hfinish : b.finish = .ok final) : final.Fits cells := by
  cases b with
  | dictionary codes interner present =>
    obtain ⟨finished,hcodes,rfl⟩ := bind_pure_eq_ok hfinish
    obtain ⟨strings,hsound,-⟩ := hholds
    refine ⟨by rw [DictionaryCodes.toList_fromU32 hcodes]; exact h.1,h.2,?_⟩
    obtain ⟨width,hwidth,-⟩ := bind_eq_ok hcodes
    rw [hsound.length] at hwidth
    rw [hsound.lays.len]
    unfold codeWidthForCardinality at hwidth
    split_ifs at hwidth with hsmall hlarge
    · omega
    · omega
  | rawString values present =>
    obtain rfl := Except.ok.inj hfinish
    exact h
  | _ =>
    obtain rfl := Except.ok.inj hfinish
    trivial

end BuilderColumn

theorem buildColumn_holds {d : ColumnDefinition} {cells : List (Option PredicateValue)}
    {column : Column} (hbound : cells.length < 2^32) (h : buildColumn d cells = .ok column) :
    column.columnType = d.columnType ∧ column.Holds cells ∧ column.Fits cells := by
  obtain ⟨b,hfill,hfinish⟩ := bind_eq_ok h
  have hnew:=BuilderColumn.holds_new d.columnType
  have hall:=BuilderColumn.fill_induct
    (P := fun cells b => b.columnType = d.columnType ∧ b.Holds cells ∧ b.Fits cells)
    (fun before cell row b next hrow hb hpush => by
      obtain ⟨hholds,htype⟩ := hb.2.1.push hrow hpush
      exact ⟨htype.trans hb.1,hholds,hb.2.2.push hb.2.1 hpush⟩)
    [] ⟨hnew.2,hnew.1,BuilderColumn.fits_new _⟩ rfl (by simpa using hbound) hfill
  rw [nil_append] at hall
  obtain ⟨hholds,htype⟩ := hall.2.1.finish (mapError_eq_ok hfinish)
  exact ⟨htype.trans hall.1,hholds,hall.2.2.finish hall.2.1 (mapError_eq_ok hfinish)⟩

section Zip
variable {α β γ δ : Type}

theorem forall₂_zip_bind {f : α → β → γ → Prop} {g : α → γ → δ → Prop} {xs : List α}
    {ys : List β} {zs : List δ} (hlen : xs.length = ys.length) :
    List.Forall₂ (fun p z => ∃ m,f p.1 p.2 m ∧ g p.1 m z) (xs.zip ys) zs ↔
      ∃ mids,List.Forall₂ (fun p m => f p.1 p.2 m) (xs.zip ys) mids ∧
        List.Forall₂ (fun p z => g p.1 p.2 z) (xs.zip mids) zs := by
  induction xs generalizing ys zs with
  | nil => simp
  | cons x xs ih =>
    cases ys with
    | nil => cases hlen
    | cons y ys =>
      have ih:=fun zs => @ih ys zs (Nat.succ.inj hlen)
      simp only [zip_cons_cons,forall₂_cons_left_iff]
      constructor
      · rintro ⟨z,zs',⟨m,hm,hz⟩,hrest,rfl⟩
        obtain ⟨mids,hmids,hzs⟩ := (ih zs').mp hrest
        exact ⟨m::mids,⟨m,mids,hm,hmids,rfl⟩,by simpa using ⟨hz,hzs⟩⟩
      · rintro ⟨_,⟨m,mids,hm,hmids,rfl⟩,hzs⟩
        simp only [zip_cons_cons,forall₂_cons_left_iff] at hzs
        obtain ⟨z,zs',hz,hrest,rfl⟩ := hzs
        exact ⟨z,zs',⟨m,hm,hz⟩,(ih zs').mpr ⟨mids,hmids,hrest⟩,rfl⟩

theorem forall₂_bind {f : α → β → Prop} {g : β → γ → Prop} {xs : List α} {zs : List γ} :
    List.Forall₂ (fun x z => ∃ m,f x m ∧ g m z) xs zs ↔
      ∃ mids,List.Forall₂ f xs mids ∧ List.Forall₂ g mids zs := by
  induction xs generalizing zs with
  | nil => simp
  | cons x xs ih =>
    simp only [forall₂_cons_left_iff]
    constructor
    · rintro ⟨z,zs,⟨m,hm,hz⟩,hrest,rfl⟩
      obtain ⟨mids,hmids,hzs⟩ := ih.mp hrest
      exact ⟨m::mids,⟨m,mids,hm,hmids,rfl⟩,.cons hz hzs⟩
    · rintro ⟨_,⟨m,mids,hm,hmids,rfl⟩,hzs⟩
      obtain ⟨z,zs,hz,hrest,rfl⟩ := forall₂_cons_left_iff.mp hzs
      exact ⟨z,zs,⟨m,hm,hz⟩,ih.mpr ⟨mids,hmids,hrest⟩,rfl⟩

theorem forall₂_of_exists {R : α → β → Prop} {xs : List α} (h : ∀ x ∈ xs,∃ y,R x y) :
    ∃ ys,List.Forall₂ R xs ys := by
  induction xs with
  | nil => exact ⟨[],.nil⟩
  | cons x xs ih =>
    obtain ⟨y,hy⟩ := h x mem_cons_self
    obtain ⟨ys,hys⟩ := ih fun x hx => h x (mem_cons_of_mem _ hx)
    exact ⟨y::ys,.cons hy hys⟩

end Zip

namespace ColumnStoreBuilder
variable {b next : ColumnStoreBuilder} {r : MetaRow} {rows : List MetaRow} {row : U32}
  {entries : List (ColumnDefinition × BuilderColumn)} {pushed : List BuilderColumn}
  {store : ColumnStore}

theorem pushAll_ok_iff : pushAll row r entries = .ok pushed ↔
      List.Forall₂ (fun p column => p.2.push row p.1.id (r.value p.1.id) = .ok column)
        entries pushed := by
  induction entries generalizing pushed with
  | nil =>
    rw [forall₂_nil_left_iff]
    exact ⟨fun h => (Except.ok.inj h).symm,fun h => h ▸ rfl⟩
  | cons entry entries ih =>
    rw [forall₂_cons_left_iff]
    constructor
    · intro h
      obtain ⟨column,hcolumn,h⟩ := bind_eq_ok h
      obtain ⟨rest,hrest,h⟩ := bind_eq_ok h
      exact ⟨column,rest,hcolumn,ih.mp hrest,(Except.ok.inj h).symm⟩
    · rintro ⟨column,rest,hcolumn,hrest,rfl⟩
      rw [pushAll,hcolumn,ok_bind,ih.mpr hrest,ok_bind]
      rfl

theorem preflightAll_of_pushAll (h : pushAll row r entries = .ok pushed) :
    preflightAll r entries = .ok () := by
  induction entries generalizing pushed with
  | nil => rfl
  | cons entry entries ih =>
    obtain ⟨column,hcolumn,h⟩ := bind_eq_ok h
    obtain ⟨rest,hrest,-⟩ := bind_eq_ok h
    rw [preflightAll,BuilderColumn.preflight_of_push hcolumn]
    exact ih hrest

theorem pushRow_ok_iff : b.pushRow r = .ok next ↔
    b.rowCount.toNat+1 < 2^32 ∧ validateInputs b.schema r.inputs = .ok () ∧
      next.schema = b.schema ∧ next.rowCount = b.rowCount+1 ∧
      List.Forall₂ (fun p column => p.2.push b.rowCount p.1.id (r.value p.1.id) = .ok column)
        (b.schema.columns.zip b.columns) next.columns := by
  have hroom : b.rowCount = BitVec.allOnes 32 ↔ ¬ b.rowCount.toNat+1 < 2^32 := by
    have hbound:=b.rowCount.isLt
    rw [← BitVec.toNat_inj,BitVec.toNat_allOnes]
    omega
  unfold pushRow
  rw [← pushAll_ok_iff]
  constructor
  · intro h
    split_ifs at h with hfull
    obtain ⟨⟨⟩,hvalid,h⟩ := bind_eq_ok h
    obtain ⟨⟨⟩,-,h⟩ := bind_eq_ok h
    obtain ⟨columns,hcolumns,rfl⟩ := bind_pure_eq_ok h
    exact ⟨not_not.mp (fun hnot => hfull (hroom.mpr hnot)),hvalid,rfl,rfl,hcolumns⟩
  · rintro ⟨hlt,hvalid,hschema,hcount,hpush⟩
    rw [if_neg (fun hfull => hroom.mp hfull hlt),hvalid,ok_bind,
      preflightAll_of_pushAll hpush,ok_bind,hpush,ok_bind,← hschema,← hcount]
    rfl

theorem pushRows_ok_iff (hlen : b.schema.columns.length = b.columns.length)
    (hbound : b.rowCount.toNat+rows.length < 2^32) :
    rows.foldlM pushRow b = .ok next ↔
      (∀ r ∈ rows,validateInputs b.schema r.inputs = .ok ()) ∧ next.schema = b.schema ∧
        next.rowCount.toNat = b.rowCount.toNat+rows.length ∧
        List.Forall₂ (fun p column =>
          BuilderColumn.fill p.1.id b.rowCount (columnCells rows p.1.id) p.2 = .ok column)
          (b.schema.columns.zip b.columns) next.columns := by
  induction rows generalizing b with
  | nil =>
    have hsame : List.Forall₂ (fun (p : ColumnDefinition × BuilderColumn) column =>
        BuilderColumn.fill p.1.id b.rowCount (columnCells [] p.1.id) p.2 = .ok column)
        (b.schema.columns.zip b.columns) next.columns ↔ b.columns = next.columns := by
      have hmap : (b.schema.columns.zip b.columns).map Prod.snd = b.columns :=
        map_snd_zip (Nat.le_of_eq hlen.symm)
      rw [← forall₂_eq_eq_eq,← hmap,forall₂_map_left_iff]
      simp only [columnCells,map_nil,BuilderColumn.fill,Except.ok.injEq]
      rw [hmap]
    rw [hsame]
    constructor
    · intro h
      obtain rfl := Except.ok.inj h
      simp
    · rintro ⟨-,hschema,hcount,hcolumns⟩
      have hrow : next.rowCount = b.rowCount := BitVec.eq_of_toNat_eq hcount
      refine congrArg Except.ok ?_
      cases b
      cases next
      simp_all
  | cons r rows ih =>
    rw [length_cons] at hbound
    have hfill : List.Forall₂ (fun (p : ColumnDefinition × BuilderColumn) column =>
        BuilderColumn.fill p.1.id b.rowCount (columnCells (r::rows) p.1.id) p.2 = .ok column)
        (b.schema.columns.zip b.columns) next.columns ↔
        List.Forall₂ (fun p column => ∃ one,
          p.2.push b.rowCount p.1.id (r.value p.1.id) = .ok one ∧
            BuilderColumn.fill p.1.id (b.rowCount+1) (columnCells rows p.1.id) one = .ok column)
        (b.schema.columns.zip b.columns) next.columns := by
      simp only [columnCells,map_cons,BuilderColumn.fill_cons_ok_iff]
    rw [hfill,forall₂_zip_bind
      (f := fun d column one => column.push b.rowCount d.id (r.value d.id) = .ok one)
      (g := fun d one column =>
        BuilderColumn.fill d.id (b.rowCount+1) (columnCells rows d.id) one = .ok column) hlen,
      forall_mem_cons,length_cons]
    have hnext : (b.rowCount+1).toNat = b.rowCount.toNat+1 :=
      BitVec.toNat_add_of_lt (by simp; omega)
    have hkeeps : ∀ one : ColumnStoreBuilder,one.schema = b.schema →
        List.Forall₂ (fun (p : ColumnDefinition × BuilderColumn) column =>
          p.2.push b.rowCount p.1.id (r.value p.1.id) = .ok column)
          (b.schema.columns.zip b.columns) one.columns →
        one.schema.columns.length = one.columns.length := by
      intro one hschema hpush
      rw [← hpush.length_eq,hschema,length_zip,← hlen,Nat.min_self]
    constructor
    · intro h
      obtain ⟨one,hone,h⟩ := bind_eq_ok h
      obtain ⟨-,hvalid,hschema,hcount,hpush⟩ := pushRow_ok_iff.mp hone
      obtain ⟨hvalids,hschema',hcount',hrest⟩ :=
        (ih (hkeeps one hschema hpush) (by rw [hcount,hnext]; omega)).mp h
      rw [hschema] at hvalids hschema' hrest
      rw [hcount] at hcount' hrest
      exact ⟨⟨hvalid,hvalids⟩,hschema',by rw [hcount',hnext]; omega,one.columns,hpush,hrest⟩
    · rintro ⟨⟨hvalid,hvalids⟩,hschema,hcount,mids,hpush,hrest⟩
      have hone : b.pushRow r = .ok ⟨b.schema,mids,b.rowCount+1⟩ :=
        pushRow_ok_iff.mpr ⟨by omega,hvalid,rfl,rfl,hpush⟩
      rw [foldlM_cons,hone,ok_bind]
      exact (ih (b := ⟨b.schema,mids,b.rowCount+1⟩) (hkeeps _ rfl hpush)
        (by rw [hnext]; omega)).mpr ⟨hvalids,hschema,by rw [hnext]; omega,hrest⟩

theorem finish_ok_iff : b.finish = .ok store ↔
    store.schema = b.schema ∧ store.rowCount = b.rowCount ∧
      List.Forall₂ (fun (c : BuilderColumn) column =>
        Except.mapError BuildError.dictionary c.finish = .ok column) b.columns store.columns := by
  have hall : ∀ columns : List BuilderColumn,∀ finished : List Column,
      Except.mapError BuildError.dictionary (columns.mapM BuilderColumn.finish) = .ok finished ↔
        List.Forall₂ (fun (c : BuilderColumn) column =>
          Except.mapError BuildError.dictionary c.finish = .ok column) columns finished := by
    intro columns
    induction columns with
    | nil =>
      intro finished
      rw [forall₂_nil_left_iff]
      exact ⟨fun h => (Except.ok.inj h).symm,fun h => h ▸ rfl⟩
    | cons c columns ih =>
      intro finished
      rw [forall₂_cons_left_iff,mapM_cons]
      constructor
      · intro h
        obtain ⟨column,hcolumn,h⟩ := bind_eq_ok (mapError_eq_ok h)
        obtain ⟨rest,hrest,h⟩ := bind_eq_ok h
        refine ⟨column,rest,by rw [hcolumn]; rfl,(ih rest).mp (by rw [hrest]; rfl),?_⟩
        exact (Except.ok.inj h).symm
      · rintro ⟨column,rest,hcolumn,hrest,rfl⟩
        rw [mapError_eq_ok hcolumn,ok_bind,mapError_eq_ok ((ih rest).mpr hrest),ok_bind]
        rfl
  rw [← hall]
  constructor
  · intro h
    obtain ⟨columns,hcolumns,rfl⟩ := bind_pure_eq_ok h
    exact ⟨rfl,rfl,hcolumns⟩
  · rintro ⟨hschema,hcount,hcolumns⟩
    rw [finish,hcolumns,ok_bind,← hschema,← hcount]
    rfl

theorem build_ok_iff {schema : Schema} : build schema rows = .ok store ↔
    rows.length < 2^32 ∧ (∀ r ∈ rows,validateInputs schema r.inputs = .ok ()) ∧
      store.schema = schema ∧ store.rowCount.toNat = rows.length ∧
      List.Forall₂ (fun d column => buildColumn d (columnCells rows d.id) = .ok column)
        schema.columns store.columns := by
  have hbuild : ∀ (d : ColumnDefinition) column,
      buildColumn d (columnCells rows d.id) = .ok column ↔
        ∃ m,BuilderColumn.fill d.id 0 (columnCells rows d.id) (.new d.columnType) = .ok m ∧
          Except.mapError BuildError.dictionary m.finish = .ok column := by
    intro d column
    constructor
    · intro h
      exact bind_eq_ok h
    · rintro ⟨m,hm,hfinish⟩
      rw [buildColumn,hm,ok_bind,hfinish]
  have hzip : ∀ mids : List BuilderColumn,
      List.Forall₂ (fun (p : ColumnDefinition × BuilderColumn) column =>
        BuilderColumn.fill p.1.id 0 (columnCells rows p.1.id) p.2 = .ok column)
        (schema.columns.zip (new schema).columns) mids ↔
      List.Forall₂ (fun (d : ColumnDefinition) m =>
        BuilderColumn.fill d.id 0 (columnCells rows d.id) (.new d.columnType) = .ok m)
        schema.columns mids := by
    intro mids
    rw [new,← map_prod_left_eq_zip,forall₂_map_left_iff]
  have hlen : (new schema).schema.columns.length = (new schema).columns.length :=
    (length_map _).symm
  simp only [hbuild,forall₂_bind]
  constructor
  · intro h
    obtain ⟨b,hpush,h⟩ := bind_eq_ok h
    obtain ⟨hschema,hcount,hfinish⟩ := finish_ok_iff.mp h
    have hrows : b.rowCount.toNat = rows.length := by
      simpa using ((holds_new schema).pushRows hpush).1.rowCount
    have hbound : rows.length < 2^32 := hrows ▸ b.rowCount.isLt
    obtain ⟨hvalid,hschema',-,hfill⟩ :=
      (pushRows_ok_iff hlen (by rw [new]; simpa using hbound)).mp hpush
    refine ⟨hbound,hvalid,hschema.trans hschema',by rw [hcount,hrows],b.columns,?_,hfinish⟩
    exact (hzip b.columns).mp hfill
  · rintro ⟨hbound,hvalid,hschema,hcount,mids,hfill,hfinish⟩
    have hpush : rows.foldlM pushRow (new schema) = .ok ⟨schema,mids,store.rowCount⟩ :=
      (pushRows_ok_iff hlen (by rw [new]; simpa using hbound)).mpr
        ⟨hvalid,rfl,by rw [new]; simpa using hcount,(hzip mids).mpr hfill⟩
    rw [build,hpush,ok_bind]
    exact finish_ok_iff.mpr ⟨hschema,rfl,hfinish⟩

end ColumnStoreBuilder

end Zeppelin.Meta
