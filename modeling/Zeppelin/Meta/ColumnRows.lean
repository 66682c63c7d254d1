import Zeppelin.Collections.PackedRows
import Zeppelin.Meta.Columns

namespace Zeppelin.Meta
open Ingest List

theorem toU32_eq_some {n : ℕ} {row : U32} : toU32 n = some row ↔ row.toNat = n := by
  unfold toU32
  split
  · rename_i h
    rw [Option.some.injEq,← BitVec.toNat_inj,BitVec.toNat_ofNat,Nat.mod_eq_of_lt h]
    exact eq_comm
  · rename_i h
    have hlt:=row.isLt
    constructor
    · intro hnone
      cases hnone
    · intro heq
      omega

def StringStorage.Lays (s : StringStorage) (strings : List String) : Prop :=
  s.offsets = 0::PackedRows.endsFrom 0 (strings.map utf8Bytes) ∧
    s.bytes = (strings.map utf8Bytes).flatten

namespace StringStorage
variable {s next : StringStorage} {strings : List String} {value : String}

theorem Lays.new : StringStorage.new.Lays [] := ⟨rfl,rfl⟩

theorem Lays.push (h : s.Lays strings) (hpush : s.push value = .ok next) :
    next.Lays (strings++[value]) := by
  obtain ⟨⟨⟩,-,rfl⟩ := bind_pure_eq_ok hpush
  constructor
  · rw [h.1,h.2,map_append,PackedRows.endsFrom_append,cons_append]
    simp [PackedRows.endsFrom]
  · rw [h.2,map_append,flatten_append]
    simp

theorem Lays.len (h : s.Lays strings) : s.len = strings.length := by
  rw [StringStorage.len,h.1,length_cons,PackedRows.endsFrom_length,length_map,
    Nat.add_sub_cancel]

theorem Lays.get_rowItems (h : s.Lays strings) (position : ℕ) :
    s.get position = ((PackedRows.pack (strings.map utf8Bytes)).rowItems position).bind fromUtf8 := by
  have hstart : s.offsets[position]? =
      (PackedRows.pack (strings.map utf8Bytes)).startOffset position := by
    rw [h.1]
    cases position with
    | zero => rfl
    | succ n => rfl
  have hstop : s.offsets[position+1]? =
      (PackedRows.pack (strings.map utf8Bytes)).endOffsets[position]? := by
    rw [h.1,getElem?_cons_succ]
    rfl
  have hbytes : s.bytes = (PackedRows.pack (strings.map utf8Bytes)).items := h.2
  rw [StringStorage.get,PackedRows.rowItems,hstart,hstop,hbytes]
  cases (PackedRows.pack (strings.map utf8Bytes)).startOffset position with
  | none =>
    cases (PackedRows.pack (strings.map utf8Bytes)).endOffsets[position]? with
    | none => rfl
    | some stop => rfl
  | some start =>
    cases (PackedRows.pack (strings.map utf8Bytes)).endOffsets[position]? with
    | none => rfl
    | some stop =>
      simp only [Option.bind_eq_bind,Option.bind_some]
      by_cases hrange : start ≤ stop ∧ stop ≤ (PackedRows.pack (strings.map utf8Bytes)).items.length
      · rw [if_pos hrange,if_pos hrange,Option.bind_some]
      · rw [if_neg hrange,if_neg hrange,Option.bind_none]

theorem Lays.get (h : s.Lays strings) (position : ℕ) : s.get position = strings[position]? := by
  rw [h.get_rowItems,PackedRows.rowItems_getElem,getElem?_map]
  cases strings[position]? with
  | none => rfl
  | some value => exact fromUtf8_utf8Bytes value

end StringStorage

structure DictionaryBuilder.Sound (d : DictionaryBuilder) (strings : List String) : Prop where
  nodup : strings.Nodup
  lookup : ∀ value code,d.lookup.lookup value = some code → strings[code.toNat]? = some value
  absent : ∀ value,d.lookup.lookup value = none → value ∉ strings
  length : d.lookup.length = strings.length
  lays : d.values.Lays strings

namespace DictionaryBuilder
variable {d next : DictionaryBuilder} {strings : List String} {value : String} {code : U32}

theorem Sound.new : DictionaryBuilder.new.Sound [] where
  nodup := nodup_nil
  lookup := by simp [DictionaryBuilder.new]
  absent := by simp
  length := rfl
  lays := .new

theorem Sound.intern (h : d.Sound strings) (hintern : d.intern value = .ok (code,next)) :
    ∃ more,next.Sound (strings++more) ∧ (strings++more)[code.toNat]? = some value := by
  unfold DictionaryBuilder.intern at hintern
  cases hfound : d.lookup.lookup value with
  | some found =>
    rw [hfound] at hintern
    obtain ⟨rfl,rfl⟩ := Prod.mk.inj (Except.ok.inj hintern)
    exact ⟨[],by rwa [append_nil],by rw [append_nil]; exact h.lookup _ _ hfound⟩
  | none =>
    rw [hfound] at hintern
    obtain ⟨⟨⟩,-,hintern⟩ := bind_eq_ok hintern
    cases hcode : toU32 d.lookup.length with
    | none =>
      rw [hcode] at hintern
      cases hintern
    | some fresh =>
      rw [hcode] at hintern
      obtain ⟨values,hpush,hintern⟩ := bind_eq_ok hintern
      obtain ⟨rfl,rfl⟩ := Prod.mk.inj (Except.ok.inj hintern)
      have hfresh : fresh.toNat = strings.length := (toU32_eq_some.mp hcode).trans h.length
      have hlast : (strings++[value])[fresh.toNat]? = some value := by
        rw [hfresh,getElem?_append_right (Nat.le_refl _),Nat.sub_self]
        rfl
      refine ⟨[value],⟨?_,?_,?_,?_,h.lays.push hpush⟩,hlast⟩
      · exact nodup_append.mpr ⟨h.nodup,nodup_singleton value,by
          intro a ha b hb
          rw [mem_singleton.mp hb]
          exact fun heq => h.absent value hfound (heq ▸ ha)⟩
      · intro s c hc
        rw [lookup_append] at hc
        cases hold : d.lookup.lookup s with
        | some old =>
          rw [hold] at hc
          obtain rfl := Option.some.inj hc
          have hs:=h.lookup s old hold
          rw [getElem?_append_left (List.getElem?_eq_some_iff.mp hs).1]
          exact hs
        | none =>
          rw [hold,Option.none_or,lookup_cons] at hc
          cases heq : s == value with
          | true =>
            rw [heq] at hc
            obtain rfl := Option.some.inj hc
            rw [beq_iff_eq.mp heq]
            exact hlast
          | false =>
            rw [heq] at hc
            cases hc
      · intro s hs hmem
        rw [lookup_append,Option.or_eq_none_iff] at hs
        rcases mem_append.mp hmem with hmem | hmem
        · exact h.absent s hs.1 hmem
        · rw [mem_singleton.mp hmem,lookup_cons,beq_self_eq_true] at hs
          cases hs.2
      · rw [length_append,length_append,h.length]
        rfl

end DictionaryBuilder

variable {codes : List U32} {needle : String}

theorem narrowCodes {narrowed : List U16} (h : codes.mapM narrowCode = .ok narrowed) :
    narrowed.map (fun code => code.setWidth 32) = codes := by
  induction codes generalizing narrowed with
  | nil =>
    obtain rfl := Except.ok.inj h
    rfl
  | cons code codes ih =>
    rw [mapM_cons] at h
    obtain ⟨one,hone,h⟩ := bind_eq_ok h
    obtain ⟨rest,hrest,rfl⟩ := bind_pure_eq_ok h
    unfold narrowCode at hone
    split at hone
    · rename_i hlt
      rw [map_cons,ih hrest,← Except.ok.inj hone]
      congr 1
      rw [← BitVec.toNat_inj,BitVec.toNat_setWidth,BitVec.toNat_setWidth]
      omega
    · cases hone

theorem narrowCodes_of_small (h : ∀ code ∈ codes,code.toNat < 2^16) :
    ∃ narrowed,codes.mapM narrowCode = .ok narrowed := by
  induction codes with
  | nil => exact ⟨[],rfl⟩
  | cons code codes ih =>
    obtain ⟨rest,hrest⟩ := ih fun c hc => h c (mem_cons_of_mem _ hc)
    have hone : narrowCode code = .ok (code.setWidth 16) := if_pos (h code mem_cons_self)
    exact ⟨code.setWidth 16::rest,by rw [mapM_cons,hone,hrest]; rfl⟩

theorem DictionaryCodes.toList_fromU32 {cardinality : ℕ} {d : DictionaryCodes}
    (h : DictionaryCodes.fromU32 codes cardinality = .ok d) : d.toList = codes := by
  obtain ⟨width,-,h⟩ := bind_eq_ok h
  cases width with
  | u16 =>
    obtain ⟨narrowed,hnarrowed,rfl⟩ := bind_pure_eq_ok h
    exact narrowCodes hnarrowed
  | u32 =>
    obtain rfl := Except.ok.inj h
    rfl

theorem findCode_get {values : StringStorage} {strings : List String} (h : values.Lays strings)
    {code : U32} (hfind : findCode values needle = some code) :
    strings[code.toNat]? = some needle := by
  obtain ⟨position,-,hposition⟩ := exists_of_findSome?_eq_some hfind
  split at hposition
  · rename_i hget
    rw [toU32_eq_some.mp hposition,← h.get]
    exact hget
  · cases hposition

theorem findCode_eq_some {values : StringStorage} {strings : List String}
    (h : values.Lays strings) (hnodup : strings.Nodup) {code : U32} :
    findCode values needle = some code ↔ strings[code.toNat]? = some needle := by
  refine ⟨findCode_get h,?_⟩
  intro hcode
  have hlt:=(List.getElem?_eq_some_iff.mp hcode).1
  cases hfind : findCode values needle with
  | none =>
    have hnone:=findSome?_eq_none_iff.mp hfind code.toNat
      (mem_range.mpr (by rw [← StringStorage.len,h.len]; exact hlt))
    rw [if_pos ((h.get _).trans hcode),toU32_eq_some.mpr rfl] at hnone
    cases hnone
  | some found =>
    have hfound:=findCode_get h hfind
    have hsame:=(getElem?_inj hlt hnodup).mp (hcode.trans hfound.symm)
    rw [BitVec.eq_of_toNat_eq hsame]

structure Stores {α : Type} (rel : α → PredicateValue → Prop) (values : List α)
    (present : DocBitmap) (cells : List (Option PredicateValue)) : Prop where
  length : values.length = cells.length
  present : ∀ row : U32,row ∈ present ↔ ∃ v,cells[row.toNat]? = some (some v)
  value : ∀ (i : ℕ) v,cells[i]? = some (some v) → ∃ a,values[i]? = some a ∧ rel a v

namespace Stores
variable {α : Type} {rel rel' : α → PredicateValue → Prop} {values : List α} {present : DocBitmap}
  {cells : List (Option PredicateValue)} {row : U32} {v : PredicateValue}

theorem nil : Stores rel ([] : List α) ∅ [] where
  length := rfl
  present := by simp
  value := by simp

theorem mono (h : Stores rel values present cells) (hrel : ∀ a v,rel a v → rel' a v) :
    Stores rel' values present cells where
  length := h.length
  present := h.present
  value := by
    intro i v hv
    obtain ⟨a,ha,hav⟩ := h.value i v hv
    exact ⟨a,ha,hrel a v hav⟩

theorem values_concat (h : Stores rel values present cells) (a : α) (cell : Option PredicateValue)
    (hcell : ∀ v,cell = some v → rel a v) :
    ∀ (i : ℕ) v,(cells++[cell])[i]? = some (some v) →
      ∃ a',(values++[a])[i]? = some a' ∧ rel a' v := by
  intro i v hv
  rcases Nat.lt_or_ge i cells.length with hlt | hge
  · rw [getElem?_append_left hlt] at hv
    rw [getElem?_append_left (h.length ▸ hlt)]
    exact h.value i v hv
  · rw [getElem?_append_right hge] at hv
    rw [getElem?_append_right (h.length ▸ hge),h.length]
    have hzero : i-cells.length = 0 := by
      have hlen:=(List.getElem?_eq_some_iff.mp hv).1
      rw [length_singleton] at hlen
      omega
    rw [hzero] at hv ⊢
    exact ⟨a,rfl,hcell v (Option.some.inj hv)⟩

theorem push (h : Stores rel values present cells) {a : α} (hrow : row.toNat = cells.length)
    (ha : rel a v) : Stores rel (values++[a]) (insert row present) (cells++[some v]) where
  length := by rw [length_append,length_append,h.length]; rfl
  present := by
    intro other
    rw [Finset.mem_insert,h.present]
    rcases Nat.lt_trichotomy other.toNat cells.length with hlt | heq | hgt
    · rw [getElem?_append_left hlt]
      have hne : other ≠ row := by
        rintro rfl
        omega
      simp [hne]
    · have hsame : other = row := BitVec.eq_of_toNat_eq (heq.trans hrow.symm)
      simp [hsame,hrow]
    · have hne : other ≠ row := by
        rintro rfl
        omega
      rw [getElem?_eq_none (by omega),
        getElem?_eq_none (by rw [length_append,length_singleton]; omega)]
      simp [hne]
  value := h.values_concat a (some v) fun w hw => Option.some.inj hw ▸ ha

theorem pushNull (h : Stores rel values present cells) (a : α) :
    Stores rel (values++[a]) present (cells++[none]) where
  length := by rw [length_append,length_append,h.length]; rfl
  present := by
    intro other
    rw [h.present]
    rcases Nat.lt_trichotomy other.toNat cells.length with hlt | heq | hgt
    · rw [getElem?_append_left hlt]
    · simp [heq]
    · rw [getElem?_eq_none (by omega),
        getElem?_eq_none (by rw [length_append,length_singleton]; omega)]
  value := h.values_concat a none (by simp)

end Stores

def CodeOf (strings : List String) (code : U32) (v : PredicateValue) : Prop :=
  ∃ value,v = .string value ∧ strings[code.toNat]? = some value

def BuilderColumn.Holds (cells : List (Option PredicateValue)) : BuilderColumn → Prop
  | .u64 values present => Stores (fun a v => v = .u64 a) values present cells
  | .id128 values present => Stores (fun a v => v = .id128 a) values present cells
  | .i64 values present => Stores (fun a v => v = .i64 a) values present cells
  | .f64 values present => Stores (fun a v => v = .f64 a) values present cells
  | .bool values present =>
    Stores (fun a v => ∃ b,v = .bool b ∧ a = boolByte b) values present cells
  | .dictionary codes interner present =>
    ∃ strings,interner.Sound strings ∧ Stores (CodeOf strings) codes present cells
  | .rawString values present =>
    ∃ strings,values.Lays strings ∧ Stores (fun a v => v = .string a) strings present cells

def Column.Holds (cells : List (Option PredicateValue)) : Column → Prop
  | .u64 column => Stores (fun a v => v = .u64 a) column.values column.present cells
  | .id128 column => Stores (fun a v => v = .id128 a) column.values column.present cells
  | .i64 column => Stores (fun a v => v = .i64 a) column.values column.present cells
  | .f64 column => Stores (fun a v => v = .f64 a) column.values column.present cells
  | .bool column =>
    Stores (fun a v => ∃ b,v = .bool b ∧ a = BuilderColumn.boolByte b) column.values column.present
      cells
  | .dictionaryString column =>
    ∃ strings,strings.Nodup ∧ column.dictionary.Lays strings ∧
      Stores (CodeOf strings) column.codes.toList column.present cells
  | .rawString column =>
    ∃ strings,column.values.Lays strings ∧
      Stores (fun a v => v = .string a) strings column.present cells

namespace BuilderColumn
variable {builder next : BuilderColumn} {cells : List (Option PredicateValue)} {row : U32}
  {column : ColumnId} {cell : Option PredicateValue}

theorem holds_new (columnType : ColumnType) :
    (new columnType).Holds [] ∧ (new columnType).columnType = columnType := by
  cases columnType with
  | dictionaryString => exact ⟨⟨[],.new,.nil⟩,rfl⟩
  | rawString => exact ⟨⟨[],.new,.nil⟩,rfl⟩
  | _ => exact ⟨.nil,rfl⟩

theorem Holds.push (h : builder.Holds cells) (hrow : row.toNat = cells.length)
    (hpush : builder.push row column cell = .ok next) :
    next.Holds (cells++[cell]) ∧ next.columnType = builder.columnType := by
  unfold BuilderColumn.push at hpush
  split at hpush
  case h_1 | h_3 | h_5 | h_7 =>
    obtain rfl := Except.ok.inj hpush
    exact ⟨Stores.push h hrow rfl,rfl⟩
  case h_2 | h_4 | h_6 | h_8 | h_10 =>
    obtain rfl := Except.ok.inj hpush
    exact ⟨Stores.pushNull h 0,rfl⟩
  case h_9 b =>
    obtain rfl := Except.ok.inj hpush
    exact ⟨Stores.push h hrow ⟨b,rfl,rfl⟩,rfl⟩
  case h_11 value =>
    obtain ⟨⟨code,interner⟩,hintern,rfl⟩ := bind_pure_eq_ok hpush
    obtain ⟨strings,hsound,hstores⟩ := h
    obtain ⟨more,hnext,hcode⟩ := hsound.intern (mapError_eq_ok hintern)
    refine ⟨⟨strings++more,hnext,Stores.push (hstores.mono ?_) hrow ⟨value,rfl,hcode⟩⟩,rfl⟩
    -- the codes of earlier rows keep their strings
    rintro a v ⟨s,hs,ha⟩
    exact ⟨s,hs,by rwa [getElem?_append_left (List.getElem?_eq_some_iff.mp ha).1]⟩
  case h_12 =>
    obtain rfl := Except.ok.inj hpush
    obtain ⟨strings,hsound,hstores⟩ := h
    exact ⟨⟨strings,hsound,hstores.pushNull 0⟩,rfl⟩
  case h_13 value =>
    obtain ⟨values,hvalues,rfl⟩ := bind_pure_eq_ok hpush
    obtain ⟨strings,hlays,hstores⟩ := h
    exact ⟨⟨strings++[value],hlays.push (mapError_eq_ok hvalues),hstores.push hrow rfl⟩,rfl⟩
  case h_14 =>
    obtain ⟨values,hvalues,rfl⟩ := bind_pure_eq_ok hpush
    obtain ⟨strings,hlays,hstores⟩ := h
    exact ⟨⟨strings++[""],hlays.push (mapError_eq_ok hvalues),hstores.pushNull ""⟩,rfl⟩
  case h_15 => cases hpush

theorem Holds.finish (h : builder.Holds cells) {final : Column}
    (hfinish : builder.finish = .ok final) :
    final.Holds cells ∧ final.columnType = builder.columnType := by
  cases builder with
  | dictionary codes interner present =>
    obtain ⟨finished,hcodes,rfl⟩ := bind_pure_eq_ok hfinish
    obtain ⟨strings,hsound,hstores⟩ := h
    refine ⟨⟨strings,hsound.nodup,hsound.lays,?_⟩,rfl⟩
    rw [DictionaryCodes.toList_fromU32 hcodes]
    exact hstores
  | _ =>
    obtain rfl := Except.ok.inj hfinish
    exact ⟨h,rfl⟩

end BuilderColumn

def columnCells (rows : List MetaRow) (column : ColumnId) : List (Option PredicateValue) :=
  rows.map fun r => r.value column

namespace ColumnStoreBuilder

structure Holds (b : ColumnStoreBuilder) (rows : List MetaRow) : Prop where
  columns : List.Forall₂ (fun (definition : ColumnDefinition) (column : BuilderColumn) =>
    column.columnType = definition.columnType ∧ column.Holds (columnCells rows definition.id))
    b.schema.columns b.columns
  rowCount : b.rowCount.toNat = rows.length

variable {b next : ColumnStoreBuilder} {rows : List MetaRow} {r : MetaRow}

theorem holds_new (schema : Schema) : (new schema).Holds [] where
  columns := by
    simp only [new,forall₂_map_right_iff,forall₂_same]
    intro definition _
    exact (BuilderColumn.holds_new definition.columnType).symm
  rowCount := rfl

theorem pushAll_holds {row : U32} (hrow : row.toNat = rows.length)
    {definitions : List ColumnDefinition} {columns pushed : List BuilderColumn}
    (h : List.Forall₂ (fun (definition : ColumnDefinition) (column : BuilderColumn) =>
      column.columnType = definition.columnType ∧ column.Holds (columnCells rows definition.id))
      definitions columns)
    (hpush : pushAll row r (definitions.zip columns) = .ok pushed) :
    List.Forall₂ (fun (definition : ColumnDefinition) (column : BuilderColumn) =>
      column.columnType = definition.columnType ∧
        column.Holds (columnCells (rows++[r]) definition.id)) definitions pushed := by
  induction h generalizing pushed with
  | nil =>
    obtain rfl := Except.ok.inj hpush
    exact .nil
  | cons hone _ ih =>
    obtain ⟨column,hcolumn,hpush⟩ := bind_eq_ok hpush
    obtain ⟨rest,hrest,rfl⟩ := bind_pure_eq_ok hpush
    refine .cons ?_ (ih hrest)
    obtain ⟨hcells,htype⟩ := hone.2.push (by rw [columnCells,length_map]; exact hrow) hcolumn
    exact ⟨htype.trans hone.1,by rwa [columnCells,map_append]⟩

theorem Holds.pushRow (h : b.Holds rows) (hpush : b.pushRow r = .ok next) :
    next.Holds (rows++[r]) ∧ next.schema = b.schema := by
  unfold ColumnStoreBuilder.pushRow at hpush
  obtain ⟨hroom,hpush⟩ := of_ite_error hpush
  obtain ⟨⟨⟩,-,hpush⟩ := bind_eq_ok hpush
  obtain ⟨⟨⟩,-,hpush⟩ := bind_eq_ok hpush
  obtain ⟨columns,hcolumns,rfl⟩ := bind_pure_eq_ok hpush
  refine ⟨⟨pushAll_holds h.rowCount h.columns hcolumns,?_⟩,rfl⟩
  have hlt : b.rowCount.toNat+1 < 2^32 := by
    have hbound:=b.rowCount.isLt
    have hne : b.rowCount.toNat ≠ 2^32-1 := fun heq => hroom (BitVec.eq_of_toNat_eq heq)
    omega
  rw [length_append,length_singleton,← h.rowCount]
  exact BitVec.toNat_add_of_lt hlt

theorem Holds.pushRows (h : b.Holds rows) {more : List MetaRow}
    (hpush : more.foldlM ColumnStoreBuilder.pushRow b = .ok next) :
    next.Holds (rows++more) ∧ next.schema = b.schema := by
  induction more generalizing b rows with
  | nil =>
    obtain rfl := Except.ok.inj hpush
    exact ⟨by rwa [append_nil],rfl⟩
  | cons r more ih =>
    obtain ⟨one,hone,hpush⟩ := bind_eq_ok hpush
    obtain ⟨hrow,hschema⟩ := h.pushRow hone
    obtain ⟨hrest,hsame⟩ := ih hrow hpush
    rw [append_assoc] at hrest
    exact ⟨hrest,hsame.trans hschema⟩

end ColumnStoreBuilder

structure ColumnStore.Holds (s : ColumnStore) (rows : List MetaRow) : Prop where
  columns : List.Forall₂ (fun (definition : ColumnDefinition) (column : Column) =>
    column.columnType = definition.columnType ∧ column.Holds (columnCells rows definition.id))
    s.schema.columns s.columns
  rowCount : s.rowCount.toNat = rows.length

theorem finish_holds {definitions : List ColumnDefinition} {columns : List BuilderColumn}
    {finished : List Column} {rows : List MetaRow}
    (h : List.Forall₂ (fun (definition : ColumnDefinition) (column : BuilderColumn) =>
      column.columnType = definition.columnType ∧ column.Holds (columnCells rows definition.id))
      definitions columns)
    (hfinish : columns.mapM BuilderColumn.finish = .ok finished) :
    List.Forall₂ (fun (definition : ColumnDefinition) (column : Column) =>
      column.columnType = definition.columnType ∧ column.Holds (columnCells rows definition.id))
      definitions finished := by
  induction h generalizing finished with
  | nil =>
    obtain rfl := Except.ok.inj hfinish
    exact .nil
  | cons hone _ ih =>
    rw [mapM_cons] at hfinish
    obtain ⟨column,hcolumn,hfinish⟩ := bind_eq_ok hfinish
    obtain ⟨rest,hrest,rfl⟩ := bind_pure_eq_ok hfinish
    obtain ⟨hcells,htype⟩ := hone.2.finish hcolumn
    exact .cons ⟨htype.trans hone.1,hcells⟩ (ih hrest)

theorem ColumnStoreBuilder.build_holds {schema : Schema} {rows : List MetaRow} {store : ColumnStore}
    (h : build schema rows = .ok store) : store.Holds rows ∧ store.schema = schema := by
  obtain ⟨b,hpush,h⟩ := bind_eq_ok h
  obtain ⟨columns,hcolumns,rfl⟩ := bind_pure_eq_ok h
  obtain ⟨hholds,hschema⟩ := (holds_new schema).pushRows hpush
  rw [nil_append] at hholds
  exact ⟨⟨finish_holds hholds.columns (mapError_eq_ok hcolumns),hholds.rowCount⟩,hschema⟩

variable {id : ColumnId} {definition : ColumnDefinition}

theorem ColumnStore.column_of_forall₂ {s : ColumnStore} {R : ColumnDefinition → Column → Prop}
    (h : List.Forall₂ R s.schema.columns s.columns) (hdef : s.schema.column id = some definition) :
    ∃ column,s.column id = some column ∧ R definition column := by
  obtain ⟨⟨definitions⟩,columns,rowCount⟩ := s
  unfold Schema.column at hdef
  unfold ColumnStore.column
  simp only at h hdef ⊢
  induction h with
  | nil => cases hdef
  | cons hone hrest ih =>
    rename_i d c ds cs
    rw [find?_cons] at hdef
    rw [zip_cons_cons,findSome?_cons]
    by_cases hid : d.id = id
    · simp only [hid,decide_true,Option.some.injEq] at hdef
      subst hdef
      simp only [hid,if_true]
      exact ⟨c,rfl,hone⟩
    · simp only [hid,decide_false] at hdef
      simp only [if_neg hid]
      exact ih hdef

theorem ColumnStore.Holds.column {s : ColumnStore} {rows : List MetaRow} (h : s.Holds rows)
    (hdef : s.schema.column id = some definition) :
    ∃ column,s.column id = some column ∧ column.columnType = definition.columnType ∧
      column.Holds (columnCells rows id) := by
  obtain ⟨column,hcolumn,htype,hholds⟩ := ColumnStore.column_of_forall₂ h.columns hdef
  have hid : definition.id = id := by simpa using find?_some hdef
  exact ⟨column,hcolumn,htype,hid ▸ hholds⟩

theorem ColumnStore.Holds.of_column {s : ColumnStore} {rows : List MetaRow} (h : s.Holds rows)
    {column : Column} (hcolumn : s.column id = some column) :
    column.Holds (columnCells rows id) := by
  obtain ⟨entry,hentry,hfound⟩ := exists_of_findSome?_eq_some hcolumn
  have hholds:=((forall₂_iff_zip.mp h.columns).2 hentry).2
  split at hfound
  · rename_i hid
    rwa [hid,Option.some.inj hfound] at hholds
  · cases hfound

theorem ColumnStore.Holds.timestamp {s : ColumnStore} {rows : List MetaRow} (h : s.Holds rows)
    {row : U32} {ts : U64} (hts : s.timestamp row = some ts) :
    (rows.map MetaRow.timestamp)[row.toNat]? = some ts := by
  unfold ColumnStore.timestamp at hts
  split at hts
  · rename_i column hcolumn
    have hstores : Stores (fun a v => v = .i64 a) column.values column.present
        (columnCells rows timestampColumn) := h.of_column hcolumn
    split at hts
    · rename_i hpresent
      obtain ⟨v,hv⟩ := (hstores.present row).mp hpresent
      obtain ⟨a,ha,rfl⟩ := hstores.value _ v hv
      obtain rfl := Option.some.inj (hts.symm.trans ha)
      rw [columnCells,getElem?_map] at hv
      obtain ⟨r,hr,hvalue⟩ := Option.map_eq_some_iff.mp hv
      rw [MetaRow.value,if_pos rfl] at hvalue
      rw [getElem?_map,hr]
      cases hvalue
      rfl
    · cases hts
  · cases hts

end Zeppelin.Meta
