import Zeppelin.Meta.RowSemantics
import Zeppelin.Segment.RegionSpec

/-! lifecycle/mod.rs -/

namespace Zeppelin.Segment
open Ingest Meta Planner List

/-- `resolve_open_schema` of a store that exists and is opened for writing. -/
def resolveOpenSchema (persisted : Schema) : Option Schema → Except SchemaConflict Schema
  | none => .ok persisted
  | some declared => do
    let evolved ← persisted.additiveEvolution declared
    return evolved.getD persisted

/-- The committed schema after an open; one that is refused commits nothing. -/
def reopened (persisted : Schema) (declared : Option Schema) : Schema :=
  match resolveOpenSchema persisted declared with
  | .ok schema => schema
  | .error _ => persisted

variable {schema t declared : Schema} {rows : List MetaRow} {store : ColumnStore} {bytes : Bytes}

theorem additiveEvolution_built (ht : t.Built) (hdeclared : declared.Built) {evolved : Schema}
    (h : t.additiveEvolution declared = .ok (some evolved)) : evolved.Built ∧
      ∃ added,evolved.columns = t.columns++added ∧ ∀ d ∈ added,d.nullable = true := by
  obtain ⟨⟨⟩,hpersisted,h⟩ := bind_eq_ok h
  obtain ⟨added,hadded,h⟩ := bind_eq_ok h
  obtain ⟨hfilter,hnullable⟩ := Schema.addedColumns_ok hadded
  have hcolumns : evolved.columns = t.columns++added := by
    split_ifs at h with hnone
    · cases h
    · rw [← Option.some.inj (Except.ok.inj h)]
  have hnew : Schema.new (t.userColumns++added) = .ok evolved := by
    rw [Schema.new_ok_iff,hcolumns,pairwise_append,ht.columns_eq,cons_append,← ht.columns_eq]
    refine ⟨rfl,ht.apart,hfilter ▸ hdeclared.apart.filter _,fun a ha b hb => ?_⟩
    rw [hfilter,mem_filter,Option.isNone_iff_eq_none] at hb
    obtain ⟨hkept,-⟩ := Schema.mem_of_column (Schema.checkPersisted_ok hpersisted a ha)
    refine hdeclared.apart.forall hkept hb.1 ?_
    rintro rfl
    rw [ht.column_of_mem ha] at hb
    cases hb.2
  exact ⟨Schema.built_of_new hnew,added,hcolumns,hnullable⟩

theorem reopened_evolves (ht : t.Built) (h : schema.Evolves t) {declared : Option Schema}
    (hdeclared : ∀ d,declared = some d → d.Built) :
    (reopened t declared).Built ∧ schema.Evolves (reopened t declared) := by
  unfold reopened
  split
  · rename_i next hnext
    cases declared with
    | none => exact Except.ok.inj hnext ▸ ⟨ht,h⟩
    | some d =>
      obtain ⟨evolved,hevolved,rfl⟩ := bind_pure_eq_ok hnext
      cases evolved with
      | none => exact ⟨ht,h⟩
      | some evolved =>
        obtain ⟨hbuilt,added,hcolumns,hnullable⟩ :=
          additiveEvolution_built ht (hdeclared d rfl) hevolved
        refine ⟨hbuilt,fun c hc => hbuilt.column_of_mem ?_,fun c hc hnone => ?_⟩
        · rw [hcolumns]
          exact mem_append_left added (Schema.mem_of_column (h.kept c hc)).1
        · rw [Option.getD_some,hcolumns] at hc
          rcases mem_append.mp hc with hc | hc
          · exact h.nullable c hc hnone
          · exact hnullable c hc
  · exact ⟨ht,h⟩

theorem opens_evolve {declarations : List (Option Schema)}
    (hdeclared : ∀ d,some d ∈ declarations → d.Built) (ht : t.Built) (h : schema.Evolves t) :
    (declarations.foldl reopened t).Built ∧ schema.Evolves (declarations.foldl reopened t) := by
  induction declarations generalizing t with
  | nil => exact ⟨ht,h⟩
  | cons declared declarations ih =>
    obtain ⟨hbuilt,hevolves⟩ := reopened_evolves ht h fun d hd => hdeclared d (hd ▸ mem_cons_self)
    exact ih (fun d hd => hdeclared d (mem_cons_of_mem _ hd)) hbuilt hevolves

theorem storedRow_of_valid {r : MetaRow} (hs : schema.Built)
    (hvalid : ColumnStoreBuilder.validateInputs schema r.inputs = .ok ()) :
    (storedRow schema r).value = r.value := by
  funext id
  rw [storedRow_value hs]
  cases hcolumn : schema.column id with
  | some d =>
    obtain ⟨-,hid⟩ := Schema.mem_of_column hcolumn
    rw [Option.bind_some,hid]
  | none =>
    have hts : id ≠ timestampColumn := by
      rintro rfl
      have hmem:=hs.column_of_mem (hs.columns_eq ▸ mem_cons_self)
      rw [timestampDefinition,hcolumn] at hmem
      cases hmem
    rw [MetaRow.value,if_neg hts,Option.bind_none]
    cases hinput : findInput r.inputs id with
    | none => rfl
    | some input =>
      obtain ⟨htakes,-,-⟩ := ColumnStoreBuilder.validateInputs_ok_iff.mp hvalid
      obtain ⟨-,d,hd,-⟩ := htakes input (mem_of_find?_eq_some hinput)
      have hsame : input.column = id := by simpa using find?_some hinput
      rw [hsame,hcolumn] at hd
      cases hd

/-- A filter on a segment that is read back after any number of opens finds the live rows whose own
values match, whatever columns the schema has gained since the segment was written. -/
theorem evaluate_reads_back (hs : schema.Built) (hcolumns : schema.columns.length < 2^32)
    (hbuild : ColumnStoreBuilder.build schema rows = .ok store)
    (h : encodeColumns store = .ok bytes) {declarations : List (Option Schema)}
    (hdeclared : ∀ d,some d ∈ declarations → d.Built) {alive : AliveSet}
    (hcount : alive.rowCount = store.rowCount) {predicate : Predicate}
    (hvalid : validatePredicate (declarations.foldl reopened schema) predicate = .ok ()) :
    ∃ evolved live bitmap,
      decodeColumns bytes (some (declarations.foldl reopened schema)) = .ok evolved ∧
      decodeAlive (encodeAlive alive) = .ok live ∧
      evaluate predicate evolved live = .ok bitmap ∧ ∀ row : U32,row ∈ bitmap ↔
        row ∈ alive.alive ∧ ∃ r,rows[row.toNat]? = some r ∧
          naiveMatches r.value predicate = true := by
  obtain ⟨hcollection,hevolves⟩ := opens_evolve hdeclared hs hs.evolves_self
  obtain ⟨next,hnext⟩ := Schema.additiveEvolution_ok_iff.mpr hevolves
  obtain ⟨evolved,hbuilt,hextends⟩ := build_evolved hs hcollection hevolves hbuild
  obtain ⟨live,hlive,hrowCount,halive⟩ := decodeAlive_encodeAlive alive
  obtain ⟨hholds,hschema⟩ := ColumnStoreBuilder.build_holds hbuilt
  rw [← hschema] at hvalid
  obtain ⟨bitmap,heval,hrows⟩ := hholds.evaluate_matches
    (hrowCount.trans (hcount.trans hextends.rowCount.symm)) hvalid
  refine ⟨evolved,live,bitmap,?_,hlive,heval,fun row => ?_⟩
  · apply (decodeColumns_encode hs hcolumns hbuild h _).2 _ evolved _ hbuilt
    rw [collectionSchema,hnext]
    rfl
  · rw [hrows,halive,getElem?_map]
    cases hr : rows[row.toNat]? with
    | none => simp
    | some r =>
      have hinputs:=(ColumnStoreBuilder.build_ok_iff.mp hbuild).2.1 r (mem_of_getElem? hr)
      simp [storedRow_of_valid hs hinputs]

def sizeColumn : ColumnDefinition := ⟨1,"size",.u64,true⟩

/-- A row that was written before there was a size. -/
theorem evaluate_reads_back_size :
    let schema : Schema := ⟨[timestampDefinition]⟩
    ∃ store bytes evolved live bitmap,ColumnStoreBuilder.build schema [⟨7,[]⟩] = .ok store ∧
      encodeColumns store = .ok bytes ∧
      decodeColumns bytes (some ⟨[timestampDefinition,sizeColumn]⟩) = .ok evolved ∧
      decodeAlive (encodeAlive (.new 1)) = .ok live ∧
      evaluate (.isNull 1) evolved live = .ok bitmap ∧ 0 ∈ bitmap := by
  intro schema
  have hs : schema.Built := rfl
  obtain ⟨store,hstore⟩ : ∃ store,
      ColumnStoreBuilder.build schema [⟨7,[]⟩] = .ok store := ⟨_,rfl⟩
  obtain ⟨bytes,hbytes⟩ := (encodeColumns_exists_iff hs hstore).mpr (by decide)
  have hcount : (AliveSet.new 1).rowCount = store.rowCount :=
    BitVec.eq_of_toNat_eq (ColumnStoreBuilder.build_ok_iff.mp hstore).2.2.2.1.symm
  have hvalid : validatePredicate ([some ⟨[timestampDefinition,sizeColumn]⟩].foldl reopened
      schema) (.isNull 1) = .ok () := rfl
  have hdeclared : ∀ d,some d ∈ [some ⟨[timestampDefinition,sizeColumn]⟩] → Schema.Built d := by
    intro d hd
    rw [Option.some.inj (mem_singleton.mp hd)]
    rfl
  obtain ⟨evolved,live,bitmap,hdecoded,hlive,heval,hrows⟩ := evaluate_reads_back hs
    (by decide) hstore hbytes hdeclared hcount hvalid
  exact ⟨store,bytes,evolved,live,bitmap,hstore,hbytes,hdecoded,hlive,heval,
    (hrows 0).mpr ⟨by decide,_,rfl,by decide⟩⟩

end Zeppelin.Segment
