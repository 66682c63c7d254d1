import Zeppelin.Meta.RowSemantics

namespace Zeppelin.Planner
open Ingest Meta List

theorem minTimestamp_sle (a b : U64) :
    (minTimestamp a b).toInt ≤ a.toInt ∧ (minTimestamp a b).toInt ≤ b.toInt := by
  unfold minTimestamp
  split
  · rename_i h
    exact ⟨Int.le_refl _,BitVec.sle_iff_toInt_le.mp h⟩
  · rename_i h
    rw [BitVec.sle_iff_toInt_le] at h
    omega

theorem maxTimestamp_sle (a b : U64) :
    a.toInt ≤ (maxTimestamp a b).toInt ∧ b.toInt ≤ (maxTimestamp a b).toInt := by
  unfold maxTimestamp
  split
  · rename_i h
    exact ⟨BitVec.sle_iff_toInt_le.mp h,Int.le_refl _⟩
  · rename_i h
    rw [BitVec.sle_iff_toInt_le] at h
    omega

def Within (bounds : U64 × U64) (ts : U64) : Prop :=
  bounds.1.toInt ≤ ts.toInt ∧ ts.toInt ≤ bounds.2.toInt

theorem widenBounds_within (bounds : Option (U64 × U64)) (ts : U64) :
    ∃ wide,widenBounds bounds ts = some wide ∧ Within wide ts ∧
      ∀ old,bounds = some old → ∀ t,Within old t → Within wide t := by
  cases bounds with
  | none => exact ⟨(ts,ts),rfl,⟨Int.le_refl _,Int.le_refl _⟩,by simp⟩
  | some old =>
    obtain ⟨minimum,maximum⟩ := old
    have hmin:=minTimestamp_sle minimum ts
    have hmax:=maxTimestamp_sle maximum ts
    refine ⟨_,rfl,⟨hmin.2,hmax.2⟩,?_⟩
    rintro other hother t ⟨hlow,hhigh⟩
    obtain rfl := Option.some.inj hother
    exact ⟨hmin.1.trans hlow,hhigh.trans hmax.1⟩

variable {timestamp : U32 → Option U64} {alive : AliveSet}

theorem collectBounds_within {rows : List U32}
    {bounds result : Option (U64 × U64)} (h : collectBounds timestamp rows bounds = some result) :
    (∀ old,bounds = some old → ∃ wide,result = some wide ∧ ∀ t,Within old t → Within wide t) ∧
      ∀ row ∈ rows,∃ ts wide,timestamp row = some ts ∧ result = some wide ∧ Within wide ts := by
  induction rows generalizing bounds with
  | nil =>
    obtain rfl := Option.some.inj h
    exact ⟨fun old hold => ⟨old,hold,fun _ ht => ht⟩,by simp⟩
  | cons row rows ih =>
    obtain ⟨ts,hts,h⟩ := Option.bind_eq_some_iff.mp h
    obtain ⟨wide,hwide,hin,hmono⟩ := widenBounds_within bounds ts
    obtain ⟨hkeep,hrows⟩ := ih h
    obtain ⟨final,hfinal,hgrow⟩ := hkeep wide hwide
    refine ⟨?_,?_⟩
    · intro old hold
      exact ⟨final,hfinal,fun t ht => hgrow t (hmono old hold t ht)⟩
    · intro other hother
      rcases mem_cons.mp hother with rfl | hother
      · exact ⟨ts,final,hts,hfinal,hgrow ts hin⟩
      · exact hrows other hother

theorem mem_iterAlive {row : U32} : row ∈ iterAlive alive ↔ row ∈ alive.alive := by
  rw [iterAlive,mem_filter,decide_eq_true_eq,mem_map]
  refine ⟨fun h => h.2,fun h => ⟨⟨row.toNat,?_,?_⟩,h⟩⟩
  · exact mem_range.mpr (BitVec.lt_def.mp (alive.alive_lt row h))
  · simp

theorem stampedRange_covers {range : ClusteringKeyRange}
    (h : (collectBounds timestamp (iterAlive alive) none).map stampedRange = some range) :
    ∀ row ∈ alive.alive,∃ ts minTs maxTs,timestamp row = some ts ∧
      range = .bounded minTs maxTs ∧ Within (minTs,maxTs) ts := by
  obtain ⟨result,hresult,rfl⟩ := Option.map_eq_some_iff.mp h
  intro row hrow
  obtain ⟨ts,⟨minTs,maxTs⟩,hts,rfl,hin⟩ :=
    (collectBounds_within hresult).2 row (mem_iterAlive.mpr hrow)
  exact ⟨ts,minTs,maxTs,hts,rfl,hin⟩

section Timestamp
variable {value : ColumnId → Option PredicateValue} {minTs maxTs ts : U64}

theorem timestampWithin_of_cellEq (hin : Within (minTs,maxTs) ts) {query : PredicateValue}
    (h : cellEq (.i64 ts) query = true) : timestampWithin minTs maxTs query = true := by
  cases query with
  | i64 other =>
    have heq : ts = other := beq_iff_eq.mp h
    rw [← heq,timestampWithin,Bool.and_eq_true,BitVec.sle_iff_toInt_le,BitVec.sle_iff_toInt_le]
    exact hin
  | _ => cases h

theorem lowerOverlaps_of_holds (hin : Within (minTs,maxTs) ts) {bound : Option RangeBound}
    (h : boundHolds i64Endpoint
      (fun low inclusive => if inclusive then low.sle ts else low.slt ts) bound = true) :
    lowerOverlaps maxTs bound = true := by
  cases bound with
  | none => rfl
  | some b =>
    obtain ⟨endpoint,inclusive⟩ := b
    cases endpoint with
    | i64 low =>
      have hhigh : ts.toInt ≤ maxTs.toInt := hin.2
      simp only [boundHolds,i64Endpoint,lowerOverlaps] at h ⊢
      cases inclusive with
      | true =>
        simp only [if_true,BitVec.sle_iff_toInt_le] at h ⊢
        omega
      | false =>
        simp only [Bool.false_eq_true,if_false,BitVec.slt_iff_toInt_lt] at h ⊢
        omega
    | _ => cases h

theorem upperOverlaps_of_holds (hin : Within (minTs,maxTs) ts) {bound : Option RangeBound}
    (h : boundHolds i64Endpoint
      (fun high inclusive => if inclusive then ts.sle high else ts.slt high) bound = true) :
    upperOverlaps minTs bound = true := by
  cases bound with
  | none => rfl
  | some b =>
    obtain ⟨endpoint,inclusive⟩ := b
    cases endpoint with
    | i64 high =>
      have hlow : minTs.toInt ≤ ts.toInt := hin.1
      simp only [boundHolds,i64Endpoint,upperOverlaps] at h ⊢
      cases inclusive with
      | true =>
        simp only [if_true,BitVec.sle_iff_toInt_le] at h ⊢
        omega
      | false =>
        simp only [Bool.false_eq_true,if_false,BitVec.slt_iff_toInt_lt] at h ⊢
        omega
    | _ => cases h

mutual

theorem mayMatch_of_naive (hts : value timestampColumn = some (.i64 ts))
    (hin : Within (minTs,maxTs) ts) : (predicate : Predicate) →
    naiveMatches value predicate = true → predicateMayMatchTimestamp minTs maxTs predicate = true
  | .eq column query,h => by
    simp only [predicateMayMatchTimestamp]
    split
    · rename_i hcolumn
      simp only [naiveMatches,hcolumn,hts,Option.any_some] at h
      exact timestampWithin_of_cellEq hin h
    · rfl
  | .isIn column queries,h => by
    simp only [predicateMayMatchTimestamp]
    split
    · rename_i hcolumn
      simp only [naiveMatches,hcolumn,hts,Option.any_some,any_eq_true] at h
      obtain ⟨query,hquery,heq⟩ := h
      exact any_eq_true.mpr ⟨query,hquery,timestampWithin_of_cellEq hin heq⟩
    · rfl
  | .range range,h => by
    simp only [predicateMayMatchTimestamp]
    split
    · rename_i hcolumn
      simp only [naiveMatches,hcolumn,hts,Option.any_some,cellInRange,withinBounds,
        Bool.and_eq_true] at h
      rw [lowerOverlaps_of_holds hin h.1,upperOverlaps_of_holds hin h.2]
      rfl
    · rfl
  | .exists_ _,_ => rfl
  | .isNull column,h => by
    simp only [predicateMayMatchTimestamp]
    split
    · rename_i hcolumn
      simp [naiveMatches,hcolumn,hts] at h
    · rfl
  | .and children,h => allMayMatch_of_naive hts hin children h
  | .or children,h => anyMayMatch_of_naive hts hin children h
  | .not _,_ => rfl

theorem allMayMatch_of_naive (hts : value timestampColumn = some (.i64 ts))
    (hin : Within (minTs,maxTs) ts) : (children : List Predicate) →
    allMatch value children = true → allMayMatch minTs maxTs children = true
  | [],_ => rfl
  | child::children,h => by
    simp only [allMatch,Bool.and_eq_true] at h
    rw [allMayMatch,mayMatch_of_naive hts hin child h.1,allMayMatch_of_naive hts hin children h.2]
    rfl

theorem anyMayMatch_of_naive (hts : value timestampColumn = some (.i64 ts))
    (hin : Within (minTs,maxTs) ts) : (children : List Predicate) →
    anyMatch value children = true → anyMayMatch minTs maxTs children = true
  | [],h => by cases h
  | child::children,h => by
    simp only [anyMatch,Bool.or_eq_true] at h
    rw [anyMayMatch,Bool.or_eq_true]
    rcases h with h | h
    · exact .inl (mayMatch_of_naive hts hin child h)
    · exact .inr (anyMayMatch_of_naive hts hin children h)

end

end Timestamp

/-- The range of a segment: none, or collected from the rows alive at a seal, a
purge or a merge. -/
def Stamped (rows : List MetaRow) (store : ColumnStore) (collected : AliveSet)
    (range : ClusteringKeyRange) : Prop :=
  range = .unstamped ∨ clusteringKeyRange (rows.map MetaRow.timestamp) collected = some range ∨
    clusteringRange store collected = some range

theorem Stamped.covers {rows : List MetaRow} {store : ColumnStore} (hholds : store.Holds rows)
    {collected : AliveSet} {range : ClusteringKeyRange} (h : Stamped rows store collected range) :
    range = .unstamped ∨ ∀ row ∈ collected.alive,∃ ts minTs maxTs,
      (rows.map MetaRow.timestamp)[row.toNat]? = some ts ∧ range = .bounded minTs maxTs ∧
        Within (minTs,maxTs) ts := by
  rcases h with h | h | h
  · exact .inl h
  · exact .inr (stampedRange_covers h)
  · refine .inr ?_
    intro row hrow
    obtain ⟨ts,minTs,maxTs,hts,hrange,hin⟩ := stampedRange_covers h row hrow
    exact ⟨ts,minTs,maxTs,hholds.timestamp hts,hrange,hin⟩

theorem Stamped.prunes {rows : List MetaRow} {store : ColumnStore} (hholds : store.Holds rows)
    {collected alive : AliveSet} {range : ClusteringKeyRange}
    (h : Stamped rows store collected range) (halive : alive.alive ⊆ collected.alive)
    {predicate : Predicate} (hprune : segmentMayMatch range predicate = false) {row : U32}
    (hrow : row ∈ alive.alive) {r : MetaRow} (hr : rows[row.toNat]? = some r) :
    naiveMatches r.value predicate = false := by
  rcases h.covers hholds with rfl | hcovers
  · cases hprune
  · obtain ⟨ts,minTs,maxTs,hts,rfl,hin⟩ := hcovers row (halive hrow)
    rw [getElem?_map,hr,Option.map_some] at hts
    have hvalue : r.value timestampColumn = some (.i64 ts) := by
      rw [MetaRow.value,if_pos rfl,Option.some.inj hts]
    cases hmatch : naiveMatches r.value predicate with
    | false => rfl
    | true => rw [← hprune,segmentMayMatch,mayMatch_of_naive hvalue hin predicate hmatch]

/-- A pruned segment has no live row that satisfies the predicate. -/
theorem segmentMayMatch_sound {schema : Schema} {rows : List MetaRow} {store : ColumnStore}
    (hbuild : ColumnStoreBuilder.build schema rows = .ok store) {collected alive : AliveSet}
    {range : ClusteringKeyRange} (hrange : Stamped rows store collected range)
    (halive : alive.alive ⊆ collected.alive) (hcount : alive.rowCount = store.rowCount)
    {predicate : Predicate} (hvalid : validatePredicate schema predicate = .ok ())
    (hprune : segmentMayMatch range predicate = false) :
    (∀ row ∈ alive.alive,∀ r,rows[row.toNat]? = some r →
      naiveMatches r.value predicate = false) ∧ evaluate predicate store alive = .ok ∅ := by
  obtain ⟨hholds,hschema⟩ := ColumnStoreBuilder.build_holds hbuild
  rw [← hschema] at hvalid
  have hnone : ∀ row ∈ alive.alive,∀ r,rows[row.toNat]? = some r →
      naiveMatches r.value predicate = false := by
    intro row hrow r hr
    exact hrange.prunes hholds halive hprune hrow hr
  refine ⟨hnone,?_⟩
  obtain ⟨bitmap,heval,hrows⟩ := evaluateInScope_evaluates hholds predicate hvalid alive.alive
  have hempty : bitmap = ∅ := by
    refine Finset.eq_empty_of_forall_notMem ?_
    intro row hrow
    obtain ⟨hlive,hmatch⟩ := (hrows row).mp hrow
    obtain ⟨r,hr,hcell⟩ := rowCell_alive hholds hcount hlive
    beta_reduce at hmatch
    rw [hcell,hnone row hlive r hr] at hmatch
    cases hmatch
  rw [evaluate,if_neg (by simp [hcount]),heval,hempty]

/-- Rows stamped 5 to 6; the row at 6 died since, and the query asks for later ones. -/
theorem segmentMayMatch_later_rows :
    ∃ store,ColumnStoreBuilder.build ⟨[⟨0,"ts",.i64,false⟩]⟩ [⟨5,[]⟩,⟨6,[]⟩] = .ok store ∧
      evaluate (.range ⟨0,some ⟨.i64 6,false⟩,none⟩) store ((AliveSet.new 2).retain {0}) =
        .ok ∅ := by
  have hcount : ((ColumnStoreBuilder.build ⟨[⟨0,"ts",.i64,false⟩]⟩ [⟨5,[]⟩,⟨6,[]⟩]).toOption.map
      ColumnStore.rowCount) = some 2 := by decide +kernel
  obtain ⟨store,hstore,hrows⟩ := Option.map_eq_some_iff.mp hcount
  have hbuild:=toOption_eq_some hstore
  have hrange : Stamped [⟨5,[]⟩,⟨6,[]⟩] store (.new 2) (.bounded 5 6) :=
    .inr (.inl (by decide +kernel))
  have hvalid : validatePredicate ⟨[⟨0,"ts",.i64,false⟩]⟩
      (.range ⟨0,some ⟨.i64 6,false⟩,none⟩) = .ok () := by rfl
  exact ⟨store,hbuild,(segmentMayMatch_sound hbuild hrange Finset.inter_subset_left hrows.symm
    hvalid (by decide +kernel)).2⟩

end Zeppelin.Planner
