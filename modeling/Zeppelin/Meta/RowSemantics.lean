import Zeppelin.Meta.ColumnRows
import Zeppelin.Planner.Prune

namespace Zeppelin.Meta
open Ingest Planner List

def cellEq : PredicateValue → PredicateValue → Bool
  | .u64 stored,.u64 query => stored == query
  | .id128 stored,.id128 query => stored == query
  | .i64 stored,.i64 query => stored == query
  | .f64 stored,.f64 query => f64Eq stored query
  | .bool stored,.bool query => stored == query
  | .string stored,.string query => stored == query
  | _,_ => false

def boundHolds (endpoint : PredicateValue → Option U64) (holds : U64 → Bool → Bool) :
    Option RangeBound → Bool
  | none => true
  | some bound =>
    match endpoint bound.value with
    | some value => holds value bound.inclusive
    | none => false

def withinBounds (le lt : U64 → U64 → Bool) (endpoint : PredicateValue → Option U64) (value : U64)
    (lower upper : Option RangeBound) : Bool :=
  boundHolds endpoint (fun low inclusive => if inclusive then le low value else lt low value) lower &&
  boundHolds endpoint (fun high inclusive => if inclusive then le value high else lt value high) upper

def cellInRange (lower upper : Option RangeBound) : PredicateValue → Bool
  | .u64 value => withinBounds BitVec.ule BitVec.ult u64Endpoint value lower upper
  | .i64 value => withinBounds BitVec.sle BitVec.slt i64Endpoint value lower upper
  | .f64 bits => !f64IsNan bits && withinBounds f64Le f64Lt f64Endpoint bits lower upper
  | _ => false

mutual

def naiveMatches (value : ColumnId → Option PredicateValue) : Predicate → Bool
  | .eq column query => (value column).any fun stored => cellEq stored query
  | .isIn column queries => (value column).any fun stored => queries.any (cellEq stored)
  | .range range => (value range.column).any (cellInRange range.lower range.upper)
  | .exists_ column => (value column).isSome
  | .isNull column => (value column).isNone
  | .and children => allMatch value children
  | .or children => anyMatch value children
  | .not child => !naiveMatches value child

def allMatch (value : ColumnId → Option PredicateValue) : List Predicate → Bool
  | [] => true
  | child::children => naiveMatches value child && allMatch value children

def anyMatch (value : ColumnId → Option PredicateValue) : List Predicate → Bool
  | [] => false
  | child::children => naiveMatches value child || anyMatch value children

end

theorem mem_scanRows {α : Type} {keep : U32 → α → Bool} {row : U32} (position : ℕ)
    (values : List α) (result : DocBitmap) :
    row ∈ scanRows keep position values result ↔ row ∈ result ∨
      position ≤ row.toNat ∧ ∃ a,values[row.toNat-position]? = some a ∧ keep row a = true := by
  induction values generalizing position result with
  | nil => simp [scanRows]
  | cons value values ih =>
    unfold scanRows
    cases hrow : toU32 position with
    | none =>
      have hlt:=row.isLt
      have hlarge : 2^32 ≤ position := by
        unfold toU32 at hrow
        split at hrow
        · cases hrow
        · omega
      constructor
      · exact .inl
      · rintro (hmem | ⟨hle,-⟩)
        · exact hmem
        · omega
    | some here =>
      have hhere:=toU32_eq_some.mp hrow
      simp only [ih]
      have hinsert : row ∈ (if keep here value then insert here result else result) ↔
          row ∈ result ∨ row = here ∧ keep here value = true := by
        split
        · rename_i hkeep
          rw [Finset.mem_insert]
          tauto
        · rename_i hkeep
          tauto
      rw [hinsert]
      rcases Nat.lt_trichotomy row.toNat position with hlt | heq | hgt
      · have hne : row ≠ here := by
          rintro rfl
          omega
        simp only [hne,false_and,or_false]
        constructor
        · rintro (hmem | ⟨hle,-⟩)
          · exact .inl hmem
          · omega
        · rintro (hmem | ⟨hle,-⟩)
          · exact .inl hmem
          · omega
      · have hsame : row = here := BitVec.eq_of_toNat_eq (heq.trans hhere.symm)
        subst hsame
        rw [heq,Nat.sub_self,getElem?_cons_zero]
        have hnot : ¬ position+1 ≤ position := by omega
        simp [hnot]
      · have hne : row ≠ here := by
          rintro rfl
          omega
        have hsub : row.toNat-position = (row.toNat-(position+1))+1 := by omega
        rw [hsub,getElem?_cons_succ]
        simp only [hne,false_and,or_false,Nat.succ_le_of_lt hgt,true_and,Nat.le_of_lt hgt]

theorem Stores.mem_scanColumn {α : Type} {rel : α → PredicateValue → Prop} {values : List α}
    {present scope : DocBitmap} {cells : List (Option PredicateValue)}
    (h : Stores rel values present cells) {test : α → Bool} {accept : PredicateValue → Bool}
    (htest : ∀ a v,rel a v → test a = accept v) (row : U32) :
    row ∈ scanColumn values present scope test ↔
      row ∈ scope ∧ ((cells[row.toNat]?).join).any accept = true := by
  rw [scanColumn,mem_scanRows]
  simp only [Finset.notMem_empty,false_or,Nat.zero_le,true_and,Nat.sub_zero,Bool.and_eq_true,
    decide_eq_true_eq]
  constructor
  · rintro ⟨a,ha,⟨hscope,hpresent⟩,hkeep⟩
    obtain ⟨v,hv⟩ := (h.present row).mp hpresent
    obtain ⟨a',ha',hrel⟩ := h.value _ v hv
    obtain rfl := Option.some.inj (ha.symm.trans ha')
    refine ⟨hscope,?_⟩
    rw [hv,Option.join_some,Option.any_some,← htest a v hrel]
    exact hkeep
  · rintro ⟨hscope,haccept⟩
    cases hcell : cells[row.toNat]? with
    | none =>
      rw [hcell] at haccept
      cases haccept
    | some cell =>
      rw [hcell,Option.join_some] at haccept
      cases cell with
      | none => cases haccept
      | some v =>
        obtain ⟨a,ha,hrel⟩ := h.value _ v hcell
        exact ⟨a,ha,⟨hscope,(h.present row).mpr ⟨v,hcell⟩⟩,(htest a v hrel).trans haccept⟩

def Evaluates (eval : DocBitmap → Except EvalError DocBitmap) (accept : U32 → Bool) : Prop :=
  ∀ scope,∃ result,eval scope = .ok result ∧
    ∀ row,row ∈ result ↔ row ∈ scope ∧ accept row = true

theorem Column.Holds.mem_present {column : Column} {cells : List (Option PredicateValue)}
    (h : column.Holds cells) (row : U32) :
    row ∈ column.present ↔ ((cells[row.toNat]?).join).isSome = true := by
  have hiff : (∃ v,cells[row.toNat]? = some (some v)) ↔
      ((cells[row.toNat]?).join).isSome = true := by
    rw [Option.isSome_iff_exists]
    simp only [Option.join_eq_some_iff]
  rw [← hiff]
  cases column with
  | dictionaryString column =>
    obtain ⟨strings,-,-,hstores⟩ := h
    exact hstores.present row
  | rawString column =>
    obtain ⟨strings,-,hstores⟩ := h
    exact hstores.present row
  | _ => exact Stores.present h row

section Leaves
variable {column : Column} {cells : List (Option PredicateValue)} {query : PredicateValue}

theorem boolByte_beq (a b : Bool) :
    (BuilderColumn.boolByte a == BuilderColumn.boolByte b) = (a == b) := by
  cases a <;> cases b <;> rfl

variable {strings : List String} {queries : List PredicateValue} {wrap : U64 → PredicateValue}
  {lower upper : Option (U64 × Bool)}

theorem mem_evalDictionaryEq {column : DictionaryColumn}
    (hnodup : strings.Nodup) (hlays : column.dictionary.Lays strings)
    (h : Stores (CodeOf strings) column.codes.toList column.present cells) (query : String)
    (scope : DocBitmap) (row : U32) : row ∈ evalDictionaryEq column query scope ↔ row ∈ scope ∧
      ((cells[row.toNat]?).join).any (cellEq · (.string query)) = true := by
  unfold evalDictionaryEq
  cases hfind : findCode column.dictionary query with
  | none =>
    -- a string that no row has
    constructor
    · intro hrow
      cases hrow
    · rintro ⟨-,haccept⟩
      obtain ⟨v,hv,heq⟩ := (Option.any_eq_true _ _).mp haccept
      obtain ⟨code,-,value,rfl,hcode⟩ := h.value _ v (Option.join_eq_some_iff.mp hv)
      rw [← findCode_eq_some hlays hnodup,beq_iff_eq.mp heq,hfind] at hcode
      cases hcode
  | some queryCode =>
    refine h.mem_scanColumn ?_ row
    rintro code v ⟨value,rfl,hcode⟩
    rw [Bool.eq_iff_iff,beq_iff_eq]
    simp only [cellEq,beq_iff_eq]
    rw [← findCode_eq_some hlays hnodup] at hcode
    constructor
    · rintro rfl
      have hget:=findCode_get hlays hfind
      rw [findCode_get hlays hcode] at hget
      exact Option.some.inj hget
    · rintro rfl
      exact Option.some.inj (hcode.symm.trans hfind)

theorem Stores.positions {values : StringStorage} {present : DocBitmap}
    (hlays : values.Lays strings) (h : Stores (fun a v => v = .string a) strings present cells) :
    Stores (fun position v => ∃ value,v = .string value ∧ values.get position = some value)
      (List.range values.len) present cells where
  length := by rw [length_range,hlays.len,h.length]
  present := h.present
  value := by
    intro i v hv
    obtain ⟨value,hvalue,rfl⟩ := h.value i v hv
    refine ⟨i,?_,value,rfl,(hlays.get i).trans hvalue⟩
    rw [getElem?_range (by rw [hlays.len]; exact (List.getElem?_eq_some_iff.mp hvalue).1)]

theorem evalEq_evaluates {store : ColumnStore} {id : ColumnId} (hcolumn : store.column id = some column)
    (h : column.Holds cells) (htype : compatibleWith query column.columnType = true) :
    Evaluates (evalEq id query store) fun row =>
      ((cells[row.toNat]?).join).any (cellEq · query) := by
  intro scope
  have hensure : ensureType id column query = .ok () := if_pos htype
  unfold evalEq getColumn
  rw [hcolumn]
  simp only [ok_bind,hensure]
  refine ⟨_,rfl,?_⟩
  intro row
  cases column with
  | id128 column =>
    cases query <;> cases htype
    exact Stores.mem_scanColumn h (by rintro a v rfl; rfl) row
  | u64 column =>
    cases query <;> cases htype
    exact Stores.mem_scanColumn h (by rintro a v rfl; rfl) row
  | i64 column =>
    cases query <;> cases htype
    exact Stores.mem_scanColumn h (by rintro a v rfl; rfl) row
  | f64 column =>
    cases query <;> cases htype
    exact Stores.mem_scanColumn h (by rintro a v rfl; rfl) row
  | bool column =>
    cases query <;> cases htype
    exact Stores.mem_scanColumn h (by rintro a v ⟨b,rfl,rfl⟩; exact boolByte_beq b _) row
  | dictionaryString column =>
    cases query <;> cases htype
    obtain ⟨strings,hnodup,hlays,hstores⟩ := h
    exact mem_evalDictionaryEq hnodup hlays hstores _ scope row
  | rawString column =>
    cases query <;> cases htype
    obtain ⟨strings,hlays,hstores⟩ := h
    refine (Stores.positions hlays hstores).mem_scanColumn ?_ row
    rintro position v ⟨value,rfl,hget⟩
    rw [hget]
    rfl

theorem mem_evalEach {store : ColumnStore} {id : ColumnId}
    (hcolumn : store.column id = some column) (h : column.Holds cells) (scope result : DocBitmap)
    (htypes : ∀ query ∈ queries,compatibleWith query column.columnType = true) :
    ∃ final,evalEach id store scope queries result = .ok final ∧
      ∀ row,row ∈ final ↔ row ∈ result ∨ row ∈ scope ∧
        ((cells[row.toNat]?).join).any (fun stored => queries.any (cellEq stored)) = true := by
  induction queries generalizing result with
  | nil =>
    refine ⟨result,rfl,?_⟩
    intro row
    cases (cells[row.toNat]?).join <;> simp
  | cons query queries ih =>
    obtain ⟨matched,hmatched,hmem⟩ :=
      evalEq_evaluates hcolumn h (htypes query (mem_cons_self ..)) scope
    obtain ⟨final,hfinal,hrows⟩ := ih (result ∪ matched)
      fun query hquery => htypes query (mem_cons_of_mem _ hquery)
    refine ⟨final,by rw [evalEach,hmatched,ok_bind,hfinal],?_⟩
    intro row
    rw [hrows,Finset.mem_union,hmem]
    beta_reduce
    cases (cells[row.toNat]?).join with
    | none => simp
    | some stored =>
      simp only [Option.any_some,any_cons,Bool.or_eq_true]
      tauto

theorem ensureTypes_ok (id : ColumnId)
    (htypes : ∀ query ∈ queries,compatibleWith query column.columnType = true) :
    ensureTypes id column queries = .ok () := by
  induction queries with
  | nil => rfl
  | cons query queries ih =>
    rw [ensureTypes,ensureType,if_pos (htypes query (mem_cons_self ..)),ok_bind]
    exact ih fun query hquery => htypes query (mem_cons_of_mem _ hquery)

theorem stringMembers_contains (queries : List PredicateValue) (value : String) :
    (stringMembers queries).contains value = queries.any (cellEq (.string value)) := by
  induction queries with
  | nil => rfl
  | cons query queries ih =>
    cases query with
    | string other =>
      rw [stringMembers,filterMap_cons,contains_cons,any_cons,← ih]
      rfl
    | _ =>
      rw [stringMembers,filterMap_cons,any_cons,← ih]
      rfl

theorem evalIn_evaluates {store : ColumnStore} {id : ColumnId}
    (hcolumn : store.column id = some column) (h : column.Holds cells)
    (htypes : ∀ query ∈ queries,compatibleWith query column.columnType = true) :
    Evaluates (evalIn id queries store) fun row =>
      ((cells[row.toNat]?).join).any fun stored => queries.any (cellEq stored) := by
  intro scope
  have heach : ∃ final,evalEach id store scope queries ∅ = .ok final ∧
      ∀ row,row ∈ final ↔ row ∈ scope ∧
        ((cells[row.toNat]?).join).any (fun stored => queries.any (cellEq stored)) = true := by
    obtain ⟨final,hfinal,hrows⟩ := mem_evalEach hcolumn h scope ∅ htypes
    exact ⟨final,hfinal,fun row => by rw [hrows]; simp⟩
  unfold evalIn getColumn
  rw [hcolumn]
  simp only [ok_bind,ensureTypes_ok id htypes]
  cases column with
  | rawString column =>
    simp only
    obtain ⟨strings,hlays,hstores⟩ := h
    split
    · rename_i hempty
      refine ⟨∅,rfl,?_⟩
      intro row
      rw [hempty]
      cases (cells[row.toNat]?).join <;> simp
    · refine ⟨_,rfl,(Stores.positions hlays hstores).mem_scanColumn ?_⟩
      rintro position v ⟨value,rfl,hget⟩
      rw [hget,Option.any_some,stringMembers_contains]
  | _ => exact heach

def Typed (endpoint : PredicateValue → Option U64) (bound : Option RangeBound) : Prop :=
  ∀ b,bound = some b → (endpoint b.value).isSome = true

theorem typedBound_ok (id : ColumnId) (expected : ColumnType)
    {endpoint : PredicateValue → Option U64} {bound : Option RangeBound}
    (h : Typed endpoint bound) (le lt : U64 → U64 → Bool) :
    ∃ typed,typedBound id expected endpoint bound = .ok typed ∧
      (∀ value,lowerMatches le lt value typed = boundHolds endpoint
        (fun low inclusive => if inclusive then le low value else lt low value) bound) ∧
      ∀ value,upperMatches le lt value typed = boundHolds endpoint
        (fun high inclusive => if inclusive then le value high else lt value high) bound := by
  cases bound with
  | none => exact ⟨none,rfl,fun _ => rfl,fun _ => rfl⟩
  | some b =>
    obtain ⟨value,hvalue⟩ := Option.isSome_iff_exists.mp (h b rfl)
    refine ⟨some (value,b.inclusive),by rw [typedBound,hvalue],?_,?_⟩
    · intro v
      rw [boundHolds,hvalue]
      rfl
    · intro v
      rw [boundHolds,hvalue]
      rfl

theorem f64Le_nan {a b : U64} (h : f64IsNan a = true ∨ f64IsNan b = true) :
    f64Le a b = false ∧ f64Lt a b = false := by
  rcases h with h | h <;> simp [f64Le,f64Lt,h]

theorem f64Matches_nan {bound : Option (U64 × Bool)} (h : bound.any (fun b => f64IsNan b.1) = true)
    (value : U64) :
    lowerMatches f64Le f64Lt value bound = false ∧ upperMatches f64Le f64Lt value bound = false := by
  cases bound with
  | none => cases h
  | some b =>
    have hnan : f64IsNan b.1 = true := h
    have hlow:=f64Le_nan (.inl hnan) (b := value)
    have hhigh:=f64Le_nan (.inr hnan) (a := value)
    cases hinclusive : b.2 with
    | true => simp [lowerMatches,upperMatches,hinclusive,hlow,hhigh]
    | false => simp [lowerMatches,upperMatches,hinclusive,hlow,hhigh]

theorem evalOrderedRange_iff {column : NumericColumn U64}
    (h : Stores (fun a v => v = wrap a) column.values column.present cells)
    {le lt : U64 → U64 → Bool} {accept : PredicateValue → Bool}
    (haccept : ∀ value,accept (wrap value) =
      (lowerMatches le lt value lower && upperMatches le lt value upper))
    (scope : DocBitmap) (row : U32) :
    row ∈ evalOrderedRange le lt column scope lower upper ↔
      row ∈ scope ∧ ((cells[row.toNat]?).join).any accept = true := by
  refine h.mem_scanColumn ?_ row
  rintro a v rfl
  exact (haccept a).symm

theorem evalF64Range_iff {column : NumericColumn U64}
    (h : Stores (fun a v => v = wrap a) column.values column.present cells)
    {accept : PredicateValue → Bool} (haccept : ∀ value,accept (wrap value) = (!f64IsNan value &&
      (lowerMatches f64Le f64Lt value lower && upperMatches f64Le f64Lt value upper)))
    (scope : DocBitmap) (row : U32) :
    row ∈ evalF64Range column scope lower upper ↔
      row ∈ scope ∧ ((cells[row.toNat]?).join).any accept = true := by
  unfold evalF64Range
  split
  · rename_i hnan
    -- nothing compares with a NaN endpoint
    constructor
    · intro hrow
      cases hrow
    · rintro ⟨-,hany⟩
      obtain ⟨v,hv,hvalue⟩ := (Option.any_eq_true _ _).mp hany
      obtain ⟨a,-,rfl⟩ := h.value _ v (Option.join_eq_some_iff.mp hv)
      rw [haccept] at hvalue
      rcases (Bool.or_eq_true _ _).mp hnan with hnan | hnan
      · rw [(f64Matches_nan hnan a).1] at hvalue
        simp at hvalue
      · rw [(f64Matches_nan hnan a).2] at hvalue
        simp at hvalue
  · refine h.mem_scanColumn ?_ row
    rintro a v rfl
    rw [haccept,Bool.and_assoc]

def RangeTyped (columnType : ColumnType) (range : RangePredicate) : Prop :=
  match columnType with
  | .u64 => Typed u64Endpoint range.lower ∧ Typed u64Endpoint range.upper
  | .i64 => Typed i64Endpoint range.lower ∧ Typed i64Endpoint range.upper
  | .f64 => Typed f64Endpoint range.lower ∧ Typed f64Endpoint range.upper
  | _ => False

theorem evalRange_evaluates {store : ColumnStore} {range : RangePredicate}
    (hcolumn : store.column range.column = some column) (h : column.Holds cells)
    (htyped : RangeTyped column.columnType range) :
    Evaluates (evalRange range store) fun row =>
      ((cells[row.toNat]?).join).any (cellInRange range.lower range.upper) := by
  intro scope
  unfold evalRange getColumn
  rw [hcolumn]
  simp only [ok_bind]
  cases column with
  | u64 column =>
    obtain ⟨lower,hlower,hbelow,-⟩ :=
      typedBound_ok range.column .u64 htyped.1 BitVec.ule BitVec.ult
    obtain ⟨upper,hupper,-,habove⟩ :=
      typedBound_ok range.column .u64 htyped.2 BitVec.ule BitVec.ult
    simp only [hlower,hupper,ok_bind]
    refine ⟨_,rfl,evalOrderedRange_iff h ?_ scope⟩
    intro value
    rw [hbelow,habove]
    rfl
  | i64 column =>
    obtain ⟨lower,hlower,hbelow,-⟩ :=
      typedBound_ok range.column .i64 htyped.1 BitVec.sle BitVec.slt
    obtain ⟨upper,hupper,-,habove⟩ :=
      typedBound_ok range.column .i64 htyped.2 BitVec.sle BitVec.slt
    simp only [hlower,hupper,ok_bind]
    refine ⟨_,rfl,evalOrderedRange_iff h ?_ scope⟩
    intro value
    rw [hbelow,habove]
    rfl
  | f64 column =>
    obtain ⟨lower,hlower,hbelow,-⟩ := typedBound_ok range.column .f64 htyped.1 f64Le f64Lt
    obtain ⟨upper,hupper,-,habove⟩ := typedBound_ok range.column .f64 htyped.2 f64Le f64Lt
    simp only [hlower,hupper,ok_bind]
    refine ⟨_,rfl,evalF64Range_iff h ?_ scope⟩
    intro value
    rw [hbelow,habove]
    rfl
  | _ => cases htyped

end Leaves

section Validated
variable {schema : Schema} {id : ColumnId} {definition : ColumnDefinition}

theorem requireColumn_eq_ok
    (h : requireColumn id schema = .ok definition) : schema.column id = some definition := by
  unfold requireColumn at h
  cases hcolumn : schema.column id with
  | none =>
    rw [hcolumn] at h
    cases h
  | some found =>
    rw [hcolumn] at h
    rw [Except.ok.inj h]

theorem validateValue_eq_ok {value : PredicateValue}
    (hcolumn : schema.column id = some definition) (h : validateValue id value schema = .ok ()) :
    compatibleWith value definition.columnType = true := by
  obtain ⟨found,hfound,h⟩ := bind_eq_ok h
  obtain rfl := Option.some.inj (hcolumn.symm.trans (requireColumn_eq_ok hfound))
  split at h
  · rename_i htype
    cases hkind : definition.columnType with
    | _ =>
      rw [hkind] at htype
      cases value <;> simp_all [valueType,compatibleWith]
  · cases h

theorem validateValues_eq_ok {values : List PredicateValue}
    (hcolumn : schema.column id = some definition) (h : validateValues id schema values = .ok ()) :
    ∀ value ∈ values,compatibleWith value definition.columnType = true := by
  induction values with
  | nil => simp
  | cons value values ih =>
    obtain ⟨⟨⟩,hone,h⟩ := bind_eq_ok h
    intro other hother
    rcases mem_cons.mp hother with rfl | hother
    · exact validateValue_eq_ok hcolumn hone
    · exact ih h other hother

theorem validateBound_eq_ok {bound : Option RangeBound}
    (hcolumn : schema.column id = some definition) (h : validateBound id schema bound = .ok ()) :
    ∀ b,bound = some b → compatibleWith b.value definition.columnType = true := by
  rintro b rfl
  exact validateValue_eq_ok hcolumn h

theorem rangeTyped_of_compatible {columnType : ColumnType} {range : RangePredicate}
    (hnumeric : columnType = .u64 ∨ columnType = .i64 ∨ columnType = .f64)
    (hlower : ∀ b,range.lower = some b → compatibleWith b.value columnType = true)
    (hupper : ∀ b,range.upper = some b → compatibleWith b.value columnType = true) :
    RangeTyped columnType range := by
  have htyped : ∀ (value : PredicateValue),compatibleWith value columnType = true →
      match columnType with
      | .u64 => (u64Endpoint value).isSome = true
      | .i64 => (i64Endpoint value).isSome = true
      | .f64 => (f64Endpoint value).isSome = true
      | _ => True := by
    intro value hvalue
    rcases hnumeric with rfl | rfl | rfl <;> cases value <;> cases hvalue <;> rfl
  rcases hnumeric with rfl | rfl | rfl
  · exact ⟨fun b hb => htyped _ (hlower b hb),fun b hb => htyped _ (hupper b hb)⟩
  · exact ⟨fun b hb => htyped _ (hlower b hb),fun b hb => htyped _ (hupper b hb)⟩
  · exact ⟨fun b hb => htyped _ (hlower b hb),fun b hb => htyped _ (hupper b hb)⟩

end Validated

def rowCell (rows : List MetaRow) (row : U32) (column : ColumnId) : Option PredicateValue :=
  (rows[row.toNat]?).bind fun r => r.value column

theorem columnCells_join (rows : List MetaRow) (row : U32) (column : ColumnId) :
    ((columnCells rows column)[row.toNat]?).join = rowCell rows row column := by
  rw [columnCells,getElem?_map,rowCell]
  cases rows[row.toNat]? with
  | none => rfl
  | some r => rfl

section Children
variable {store : ColumnStore} {children : List Predicate} {accept : Predicate → U32 → Bool}

theorem rankChildren_evaluates
    (h : ∀ child ∈ children,Evaluates (evaluateInScope store child) (accept child))
    (scope : DocBitmap) :
    List.Forall₂ (fun (ranked : RankedChild) child => Evaluates ranked.2 (accept child))
      (rankChildren store children scope) children := by
  induction children with
  | nil => exact .nil
  | cons child children ih =>
    exact .cons (h child (mem_cons_self ..))
      (ih fun child hchild => h child (mem_cons_of_mem _ hchild))

theorem evalOrdered_evaluates {ranked : List RankedChild}
    (h : List.Forall₂ (fun (ranked : RankedChild) child => Evaluates ranked.2 (accept child))
      ranked children) :
    Evaluates (evalOrdered ranked) fun row => children.all fun child => accept child row := by
  induction h with
  | nil =>
    intro scope
    exact ⟨scope,rfl,fun row => by simp⟩
  | cons hone _ ih =>
    intro scope
    rw [evalOrdered]
    split
    · rename_i hempty
      exact ⟨scope,rfl,fun row => by simp [hempty]⟩
    · obtain ⟨result,hresult,hrows⟩ := hone scope
      obtain ⟨final,hfinal,hmem⟩ := ih result
      refine ⟨final,by rw [hresult,ok_bind,hfinal],?_⟩
      intro row
      rw [hmem,hrows]
      beta_reduce
      rw [all_cons,Bool.and_eq_true,and_assoc]

theorem evalAnd_evaluates
    (h : ∀ child ∈ children,Evaluates (evaluateInScope store child) (accept child)) :
    Evaluates (fun scope => evalAnd (rankChildren store children scope) scope)
      fun row => children.all fun child => accept child row := by
  intro scope
  have hperm:=perm_insertionSort (fun (a b : RankedChild) => a.1 ≤ b.1)
    (rankChildren store children scope)
  obtain ⟨sorted,hsorted,hsame⟩ :=
    perm_comp_forall₂ hperm (rankChildren_evaluates h scope)
  obtain ⟨result,hresult,hrows⟩ := evalOrdered_evaluates hsorted scope
  refine ⟨result,hresult,?_⟩
  intro row
  rw [hrows,all_eq_true,all_eq_true]
  simp only [hsame.mem_iff]

theorem evalOr_evaluates
    (h : ∀ child ∈ children,Evaluates (evaluateInScope store child) (accept child))
    (scope result : DocBitmap) :
    ∃ final,evalOr store children scope result = .ok final ∧ ∀ row,row ∈ final ↔
      row ∈ result ∨ row ∈ scope ∧ (children.any fun child => accept child row) = true := by
  induction children generalizing result with
  | nil => exact ⟨result,rfl,fun row => by simp⟩
  | cons child children ih =>
    rw [evalOr]
    beta_reduce
    split
    · rename_i hcovered
      have hsub:=Finset.sdiff_eq_empty_iff_subset.mp hcovered
      refine ⟨result,rfl,fun row => ⟨.inl,?_⟩⟩
      rintro (hrow | ⟨hrow,-⟩)
      · exact hrow
      · exact hsub hrow
    · obtain ⟨matched,hmatched,hrows⟩ := h child (mem_cons_self ..) (scope \ result)
      obtain ⟨final,hfinal,hmem⟩ :=
        ih (fun child hchild => h child (mem_cons_of_mem _ hchild)) (result ∪ matched)
      refine ⟨final,by rw [hmatched,ok_bind,hfinal],?_⟩
      intro row
      rw [hmem,Finset.mem_union,hrows,Finset.mem_sdiff,any_cons,Bool.or_eq_true]
      tauto

end Children

theorem naive_all (value : U32 → ColumnId → Option PredicateValue) (children : List Predicate)
    (row : U32) : (children.all fun child => naiveMatches (value row) child) =
      allMatch (value row) children := by
  induction children with
  | nil => rfl
  | cons child children ih => rw [all_cons,allMatch,ih]

theorem naive_any (value : U32 → ColumnId → Option PredicateValue) (children : List Predicate)
    (row : U32) : (children.any fun child => naiveMatches (value row) child) =
      anyMatch (value row) children := by
  induction children with
  | nil => rfl
  | cons child children ih => rw [any_cons,anyMatch,ih]

section Store
variable {store : ColumnStore} {rows : List MetaRow}

mutual

theorem evaluateInScope_evaluates (h : store.Holds rows) : (predicate : Predicate) →
    validatePredicate store.schema predicate = .ok () →
    Evaluates (evaluateInScope store predicate) fun row =>
      naiveMatches (rowCell rows row) predicate
  | .eq id query,hvalid => by
    obtain ⟨definition,hrequire,-⟩ := bind_eq_ok hvalid
    have hdef:=requireColumn_eq_ok hrequire
    obtain ⟨column,hcolumn,htype,hcells⟩ := h.column hdef
    have heval:=evalEq_evaluates hcolumn hcells (htype ▸ validateValue_eq_ok hdef hvalid)
    simpa only [columnCells_join,evaluateInScope,naiveMatches] using heval
  | .isIn id queries,hvalid => by
    obtain ⟨definition,hrequire,hvalid⟩ := bind_eq_ok hvalid
    have hdef:=requireColumn_eq_ok hrequire
    obtain ⟨column,hcolumn,htype,hcells⟩ := h.column hdef
    have heval:=evalIn_evaluates hcolumn hcells (htype ▸ validateValues_eq_ok hdef hvalid)
    simpa only [columnCells_join,evaluateInScope,naiveMatches] using heval
  | .range range,hvalid => by
    obtain ⟨definition,hrequire,hvalid⟩ := bind_eq_ok hvalid
    have hdef:=requireColumn_eq_ok hrequire
    obtain ⟨column,hcolumn,htype,hcells⟩ := h.column hdef
    split at hvalid
    · rename_i hnumeric
      obtain ⟨⟨⟩,hlower,hupper⟩ := bind_eq_ok hvalid
      have htyped:=rangeTyped_of_compatible hnumeric (validateBound_eq_ok hdef hlower)
        (validateBound_eq_ok hdef hupper)
      have heval:=evalRange_evaluates hcolumn hcells (htype ▸ htyped)
      simpa only [columnCells_join,evaluateInScope,naiveMatches] using heval
    · cases hvalid
  | .exists_ id,hvalid => by
    obtain ⟨definition,hrequire,-⟩ := bind_eq_ok hvalid
    obtain ⟨column,hcolumn,-,hcells⟩ := h.column (requireColumn_eq_ok hrequire)
    intro scope
    refine ⟨column.present ∩ scope,by rw [evaluateInScope,getColumn,hcolumn]; rfl,?_⟩
    intro row
    rw [Finset.mem_inter,hcells.mem_present,columnCells_join,and_comm]
    rfl
  | .isNull id,hvalid => by
    obtain ⟨definition,hrequire,-⟩ := bind_eq_ok hvalid
    obtain ⟨column,hcolumn,-,hcells⟩ := h.column (requireColumn_eq_ok hrequire)
    intro scope
    refine ⟨scope \ column.present,by rw [evaluateInScope,getColumn,hcolumn]; rfl,?_⟩
    intro row
    rw [Finset.mem_sdiff,hcells.mem_present,columnCells_join]
    simp only [naiveMatches]
    cases rowCell rows row id <;> simp
  | .and children,hvalid => by
    have heval:=evalAnd_evaluates (children_evaluate h children hvalid)
    simpa only [naive_all,evaluateInScope,naiveMatches] using heval
  | .or children,hvalid => by
    intro scope
    obtain ⟨result,hresult,hrows⟩ := evalOr_evaluates (children_evaluate h children hvalid) scope ∅
    refine ⟨result,hresult,?_⟩
    intro row
    rw [hrows,naive_any]
    simp [naiveMatches]
  | .not child,hvalid => by
    intro scope
    obtain ⟨result,hresult,hrows⟩ := evaluateInScope_evaluates h child hvalid scope
    refine ⟨scope \ result,by simp only [evaluateInScope,hresult]; rfl,?_⟩
    intro row
    rw [Finset.mem_sdiff,hrows]
    cases hmatch : naiveMatches (rowCell rows row) child with
    | false => simp [naiveMatches,hmatch]
    | true => simp [naiveMatches,hmatch]

theorem children_evaluate (h : store.Holds rows) : (children : List Predicate) →
    Planner.validateEach store.schema children = .ok () → ∀ child ∈ children,
      Evaluates (evaluateInScope store child) fun row => naiveMatches (rowCell rows row) child
  | [],_ => by simp
  | child::children,hvalid => by
    obtain ⟨⟨⟩,hone,hrest⟩ := bind_eq_ok hvalid
    intro other hother
    rcases mem_cons.mp hother with heq | hother
    · rw [heq]
      exact evaluateInScope_evaluates h child hone
    · exact children_evaluate h children hrest other hother

end

end Store

theorem rowCell_alive {store : ColumnStore} {rows : List MetaRow} (h : store.Holds rows)
    {alive : AliveSet} (hcount : alive.rowCount = store.rowCount) {row : U32}
    (hrow : row ∈ alive.alive) :
    ∃ r,rows[row.toNat]? = some r ∧ rowCell rows row = r.value := by
  have hlt : row.toNat < rows.length := by
    rw [← h.rowCount,← hcount]
    exact BitVec.lt_def.mp (alive.alive_lt row hrow)
  refine ⟨rows[row.toNat],getElem?_eq_getElem hlt,?_⟩
  funext column
  rw [rowCell,getElem?_eq_getElem hlt,Option.bind_some]

theorem ColumnStore.Holds.evaluate_matches {store : ColumnStore} {rows : List MetaRow}
    (h : store.Holds rows) {alive : AliveSet} (hcount : alive.rowCount = store.rowCount)
    {predicate : Predicate} (hvalid : validatePredicate store.schema predicate = .ok ()) :
    ∃ bitmap,evaluate predicate store alive = .ok bitmap ∧ ∀ row : U32,row ∈ bitmap ↔
      row ∈ alive.alive ∧ ∃ r,rows[row.toNat]? = some r ∧ naiveMatches r.value predicate = true := by
  obtain ⟨bitmap,heval,hrows⟩ := evaluateInScope_evaluates h predicate hvalid alive.alive
  refine ⟨bitmap,by rw [evaluate,if_neg (by simp [hcount]),heval],?_⟩
  intro row
  rw [hrows]
  refine and_congr_right ?_
  intro halive
  obtain ⟨r,hr,hcell⟩ := rowCell_alive h hcount halive
  beta_reduce
  rw [hcell,hr]
  simp

/-- On a store built from `rows`, a validated predicate selects exactly the live
rows whose own values satisfy it. -/
theorem evaluate_eq_naive {schema : Schema} {rows : List MetaRow} {store : ColumnStore}
    (hbuild : ColumnStoreBuilder.build schema rows = .ok store) {alive : AliveSet}
    (hcount : alive.rowCount = store.rowCount) {predicate : Predicate}
    (hvalid : validatePredicate schema predicate = .ok ()) :
    ∃ bitmap,evaluate predicate store alive = .ok bitmap ∧ ∀ row : U32,row ∈ bitmap ↔
      row ∈ alive.alive ∧ ∃ r,rows[row.toNat]? = some r ∧ naiveMatches r.value predicate = true := by
  obtain ⟨hholds,hschema⟩ := ColumnStoreBuilder.build_holds hbuild
  rw [← hschema] at hvalid
  exact hholds.evaluate_matches hcount hvalid

/-- A null dictionary cell: excluded by the equality, included by its negation. -/
theorem evaluate_negated_equality :
    ∃ store bitmap,ColumnStoreBuilder.build
        ⟨[⟨0,"ts",.i64,false⟩,⟨1,"kind",.dictionaryString,true⟩]⟩
        [⟨5,[⟨1,.string "a"⟩]⟩,⟨6,[]⟩,⟨7,[⟨1,.string "b"⟩]⟩] = .ok store ∧
      evaluate (.not (.eq 1 (.string "a"))) store (.new 3) = .ok bitmap ∧ 1 ∈ bitmap := by
  have hcount : ((ColumnStoreBuilder.build
      ⟨[⟨0,"ts",.i64,false⟩,⟨1,"kind",.dictionaryString,true⟩]⟩
      [⟨5,[⟨1,.string "a"⟩]⟩,⟨6,[]⟩,⟨7,[⟨1,.string "b"⟩]⟩]).toOption.map
        ColumnStore.rowCount) = some 3 := by decide +kernel
  obtain ⟨store,hstore,hrows⟩ := Option.map_eq_some_iff.mp hcount
  have hbuild:=toOption_eq_some hstore
  have halive : (AliveSet.new 3).rowCount = store.rowCount := hrows.symm
  have hvalid : validatePredicate
      ⟨[⟨0,"ts",.i64,false⟩,⟨1,"kind",.dictionaryString,true⟩]⟩
      (.not (.eq 1 (.string "a"))) = .ok () := by rfl
  obtain ⟨bitmap,heval,hiff⟩ := evaluate_eq_naive hbuild halive hvalid
  exact ⟨store,bitmap,hbuild,heval,(hiff 1).mpr ⟨by decide +kernel,_,rfl,by decide +kernel⟩⟩

end Zeppelin.Meta
