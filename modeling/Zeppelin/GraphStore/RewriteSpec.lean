import Zeppelin.GraphStore.ApplySpec

namespace Zeppelin.GraphStore.Adjacency
open List

/-- Directories after a run of directed batches. Sequences also advance without a batch. -/
inductive Reachable : ℕ → Roots → Prop where
  | empty (sequence : ℕ) : Reachable sequence ⟨[],[]⟩
  | later {sequence next : ℕ} {roots : Roots} :
    Reachable sequence roots → sequence ≤ next → Reachable next roots
  | batch {sequence : ℕ} {roots next : Roots} {changes : List Change} :
    Reachable sequence roots → Ordered changes → apply sequence roots changes = .ok next →
      Reachable (sequence+1) next

inductive Committed : ℕ → Roots → Prop where
  | empty (sequence : ℕ) : Committed sequence ⟨[],[]⟩
  | later {sequence next : ℕ} {roots : Roots} :
    Committed sequence roots → sequence ≤ next → Committed next roots
  | batch {sequence : ℕ} {roots next : Roots} {deltas : List RelationshipDelta} :
    Committed sequence roots → prepareAdjacency sequence roots deltas = .ok next →
      Committed (sequence+1) next

variable {roots next : Roots} {changes : List Change} {deltas : List RelationshipDelta}
  {cursors : List Cursor} {edges : List Edge} {key : RangeKey}

theorem apply_rootsOk {sequence : ℕ} (hroots : RootsOk sequence roots) (hchanges : Ordered changes)
    (h : apply sequence roots changes = .ok next) : RootsOk (sequence+1) next := by
  obtain ⟨edits,hedits,hflush,hvalid⟩ := apply_inv h
  obtain ⟨slots,hslots⟩ := collectEdits_ok hroots hchanges hedits
  exact fun direction => hslots.directoryOk hroots hvalid (hflush direction)

theorem apply_hasEdge {sequence : ℕ} (hroots : RootsOk sequence roots) (hchanges : Ordered changes)
    (h : apply sequence roots changes = .ok next) (group : Direction × ℕ × ℕ) (edge : Edge) :
    HasEdge (next.directory group.1) group edge ↔
      (HasEdge (roots.directory group.1) group edge ∧ ¬ Changes changes group ⟨edge,.delete⟩) ∨
        Changes changes group ⟨edge,.insert⟩ := by
  obtain ⟨edits,hedits,hflush,hvalid⟩ := apply_inv h
  obtain ⟨slots,hslots⟩ := collectEdits_ok hroots hchanges hedits
  constructor
  · exact hslots.edges_sound hroots hvalid (hflush group.1)
  · exact hslots.edges_complete hroots hvalid (hflush group.1) rfl

theorem rootsOk_empty (sequence : ℕ) : RootsOk sequence ⟨[],[]⟩ := by
  intro direction
  cases direction with
  | out => exact ⟨.nil,by simp [Roots.directory],by simp [Roots.directory],
      by simp [Roots.directory]⟩
  | incoming => exact ⟨.nil,by simp [Roots.directory],by simp [Roots.directory],
      by simp [Roots.directory]⟩

theorem Reachable.rootsOk {sequence : ℕ} (h : Reachable sequence roots) :
    RootsOk sequence roots := by
  induction h with
  | empty sequence => exact rootsOk_empty sequence
  | later _ hle ih => exact fun direction => (ih direction).mono hle
  | batch _ hchanges happly ih => exact apply_rootsOk ih hchanges happly

theorem RangeDescriptor.Valid.bounds {cutoff : ℕ} {d : RangeDescriptor} (h : d.Valid cutoff) :
    d.base.entries.length ≤ maxBaseEntries ∧ d.deltas.length ≤ maxDeltaRuns ∧
      sumEntries d.deltas ≤ maxPendingEntries :=
  ⟨h.merged.base_fits.count,h.merged.runs,h.merged.pending⟩

theorem DirectoryOk.pairwise_apart {direction : Direction} {sequence : ℕ} {dir : Directory}
    (h : DirectoryOk direction sequence dir) :
    dir.Pairwise fun a b => a.key.group = b.key.group → a.key.Apart b.key := by
  refine h.sorted.imp_of_mem fun {a b} ha hb hlt hgroup => ?_
  refine h.apart a ha b hb (fun heq => ?_) hgroup
  rw [heq] at hlt
  exact lt_irrefl _ hlt

theorem collectChanges_mem (h : collectChanges deltas = .ok changes) :
    ∃ rows : List (RelationshipRow × Action),∀ change,
      change ∈ changes ↔ ∃ row ∈ rows,change ∈ row.1.directed row.2 := by
  induction deltas generalizing changes with
  | nil =>
    cases h
    exact ⟨[],by simp⟩
  | cons delta deltas ih =>
    obtain ⟨row,-,h⟩ := bind_eq_ok h
    obtain ⟨rest,hrest,hret⟩ := bind_eq_ok h
    cases hret
    obtain ⟨rows,hrows⟩ := ih hrest
    refine ⟨row.toList++rows,fun change => ?_⟩
    rw [mem_append,hrows,mem_flatMap]
    constructor
    · rintro (⟨found,hfound,hmem⟩ | ⟨found,hfound,hmem⟩)
      · exact ⟨found,mem_append_left _ hfound,hmem⟩
      · exact ⟨found,mem_append_right _ hfound,hmem⟩
    · rintro ⟨found,hfound,hmem⟩
      rcases mem_append.mp hfound with hfound | hfound
      · exact .inl ⟨found,hfound,hmem⟩
      · exact .inr ⟨found,hfound,hmem⟩

theorem collectChanges_paired
    (h : collectChanges deltas = .ok changes) (source target relType rel : ℕ) (action : Action) :
    Changes changes (.out,source,relType) ⟨⟨rel,target⟩,action⟩ ↔
      Changes changes (.incoming,target,relType) ⟨⟨rel,source⟩,action⟩ := by
  obtain ⟨rows,hrows⟩ := collectChanges_mem h
  have hout : Changes changes (.out,source,relType) ⟨⟨rel,target⟩,action⟩ ↔
      (⟨rel,source,target,relType⟩,action) ∈ rows := by
    constructor
    · rintro ⟨change,hchange,hgroup,hdelta⟩
      obtain ⟨⟨row,found⟩,hrow,hmem⟩ := (hrows change).mp hchange
      simp only [RelationshipRow.directed,mem_cons,not_mem_nil,or_false] at hmem
      rcases hmem with rfl | rfl
      · simp only [Change.group,Prod.mk.injEq,DeltaEntry.mk.injEq,Edge.mk.injEq] at hgroup hdelta
        obtain ⟨-,rfl,rfl⟩ := hgroup
        obtain ⟨⟨rfl,rfl⟩,rfl⟩ := hdelta
        exact hrow
      · simp [Change.group] at hgroup
    · intro hrow
      exact ⟨_,(hrows _).mpr ⟨_,hrow,mem_cons_self⟩,rfl,rfl⟩
  have hin : Changes changes (.incoming,target,relType) ⟨⟨rel,source⟩,action⟩ ↔
      (⟨rel,source,target,relType⟩,action) ∈ rows := by
    constructor
    · rintro ⟨change,hchange,hgroup,hdelta⟩
      obtain ⟨⟨row,found⟩,hrow,hmem⟩ := (hrows change).mp hchange
      simp only [RelationshipRow.directed,mem_cons,not_mem_nil,or_false] at hmem
      rcases hmem with rfl | rfl
      · simp [Change.group] at hgroup
      · simp only [Change.group,Prod.mk.injEq,DeltaEntry.mk.injEq,Edge.mk.injEq] at hgroup hdelta
        obtain ⟨-,rfl,rfl⟩ := hgroup
        obtain ⟨⟨rfl,rfl⟩,rfl⟩ := hdelta
        exact hrow
    · intro hrow
      exact ⟨_,(hrows _).mpr ⟨_,hrow,mem_cons_of_mem _ mem_cons_self⟩,rfl,rfl⟩
  rw [hout,hin]

theorem changes_sortChanges {group : Direction × ℕ × ℕ}
    {entry : DeltaEntry} : Changes (sortChanges changes) group entry ↔ Changes changes group entry := by
  simp [Changes,sortChanges]

theorem ordered_of_sorted (hsorted : changes.Pairwise fun a b => a.sortKey ≤ b.sortKey)
    (h : hasDuplicate changes = false) : Ordered changes := by
  induction changes with
  | nil => exact .nil
  | cons first changes ih =>
    cases changes with
    | nil => exact pairwise_singleton ..
    | cons second changes =>
      obtain ⟨hhead,htail⟩ := pairwise_cons.mp hsorted
      simp only [hasDuplicate,decide_eq_false_iff_not,not_or,Bool.not_eq_true] at h
      have hrest:=ih htail h.2
      have hfirst:=lt_of_le_of_ne (hhead second mem_cons_self) h.1
      apply pairwise_cons.mpr
      refine ⟨fun change hchange => ?_,hrest⟩
      rcases mem_cons.mp hchange with rfl | hchange
      · exact hfirst
      · exact hfirst.trans ((pairwise_cons.mp hrest).1 change hchange)

theorem prepareAdjacency_inv {sequence : ℕ}
    (h : prepareAdjacency sequence roots deltas = .ok next) :
    ∃ changes,collectChanges deltas = .ok changes ∧ Ordered (sortChanges changes) ∧
      (next = roots ∧ changes = [] ∨ apply sequence roots (sortChanges changes) = .ok next) := by
  obtain ⟨changes,hchanges,h⟩ := bind_eq_ok h
  obtain ⟨⟨⟩,hduplicate,h⟩ := bind_eq_ok h
  have htotal : Std.Total fun a b : Change => a.sortKey ≤ b.sortKey := ⟨fun a b => le_total _ _⟩
  have htrans : IsTrans Change fun a b => a.sortKey ≤ b.sortKey :=
    ⟨fun a b c hab hbc => hab.trans hbc⟩
  have hsorted : (sortChanges changes).Pairwise fun a b => a.sortKey ≤ b.sortKey :=
    pairwise_insertionSort _ changes
  rw [failIf_eq_ok,Bool.not_eq_true] at hduplicate
  refine ⟨changes,hchanges,ordered_of_sorted hsorted hduplicate,?_⟩
  split_ifs at h with hempty
  · left
    refine ⟨(Except.ok.inj h).symm,?_⟩
    rw [List.isEmpty_iff] at hempty
    apply length_eq_zero_iff.mp
    rw [← length_insertionSort (fun a b => a.sortKey ≤ b.sortKey) changes]
    exact length_eq_zero_iff.mpr hempty
  · exact .inr h

theorem Committed.reachable {sequence : ℕ} (h : Committed sequence roots) :
    Reachable sequence roots := by
  induction h with
  | empty sequence => exact .empty sequence
  | later _ hle ih => exact .later ih hle
  | batch _ hprepare ih =>
    obtain ⟨changes,-,hordered,⟨rfl,-⟩ | happly⟩ := prepareAdjacency_inv hprepare
    · exact .later ih (Nat.le_succ _)
    · exact .batch ih hordered happly

/-- The outgoing edges of the sources are the incoming edges of the targets. -/
def SameRelationships (roots : Roots) : Prop := ∀ source target relType rel,
  HasEdge roots.out (.out,source,relType) ⟨rel,target⟩ ↔
    HasEdge roots.incoming (.incoming,target,relType) ⟨rel,source⟩

theorem Committed.sameRelationships {sequence : ℕ}
    (h : Committed sequence roots) : SameRelationships roots := by
  induction h with
  | empty sequence => exact fun _ _ _ _ => by simp [HasEdge]
  | later _ _ ih => exact ih
  | @batch sequence roots next deltas hcommitted hprepare ih =>
    obtain ⟨changes,hchanges,hordered,⟨rfl,-⟩ | happly⟩ := prepareAdjacency_inv hprepare
    · exact ih
    · intro source target relType rel
      have hroots:=hcommitted.reachable.rootsOk
      have hout:=apply_hasEdge hroots hordered happly (.out,source,relType) ⟨rel,target⟩
      have hin:=apply_hasEdge hroots hordered happly (.incoming,target,relType) ⟨rel,source⟩
      simp only [changes_sortChanges] at hout hin
      refine hout.trans (Iff.trans ?_ hin.symm)
      rw [collectChanges_paired hchanges,collectChanges_paired hchanges]
      exact or_congr (and_congr (ih source target relType rel) Iff.rfl) Iff.rfl

/-- Accepted batches keep the ranges of a group disjoint, non-empty and within their limits,
change exactly the edges they name, and leave both directions with the same relationships. -/
theorem apply_exact {sequence : ℕ} {roots next : Roots} {changes : List Change}
    (hreachable : Reachable sequence roots) (hordered : Ordered changes)
    (h : apply sequence roots changes = .ok next) :
    (∀ direction,
      ((next.directory direction).Pairwise fun a b =>
        a.key.group = b.key.group → a.key.Apart b.key) ∧
      ∀ d ∈ next.directory direction,validateRange (sequence+1) d = .ok d.edges ∧
        d.edges ≠ [] ∧ d.base.entries.length ≤ maxBaseEntries ∧
          d.deltas.length ≤ maxDeltaRuns ∧ sumEntries d.deltas ≤ maxPendingEntries) ∧
    (∀ group edge,HasEdge (next.directory group.1) group edge ↔
      (HasEdge (roots.directory group.1) group edge ∧ ¬ Changes changes group ⟨edge,.delete⟩) ∨
        Changes changes group ⟨edge,.insert⟩) ∧
    ∀ {later : ℕ} {committed : Roots},Committed later committed → SameRelationships committed := by
  have hroots:=hreachable.rootsOk
  have hnext:=apply_rootsOk hroots hordered h
  refine ⟨fun direction => ⟨(hnext direction).pairwise_apart,fun d hd => ?_⟩,
    apply_hasEdge hroots hordered h,Committed.sameRelationships⟩
  have hvalid:=(hnext direction).valid d hd
  exact ⟨validateRange_eq_ok.mpr ⟨hvalid,rfl⟩,hvalid.nonempty,hvalid.bounds⟩

/-- The first relationship of a store. -/
theorem apply_exact_first :
    let row : RelationshipRow := ⟨7,1,2,5⟩
    ∃ next,apply 0 ⟨[],[]⟩ (row.directed .insert) = .ok next ∧
      HasEdge next.out (.out,1,5) ⟨7,2⟩ ∧ HasEdge next.incoming (.incoming,2,5) ⟨7,1⟩ := by
  intro row
  obtain ⟨next,hnext,-⟩ : ∃ next,apply 0 ⟨[],[]⟩ (row.directed .insert) = .ok next ∧
      (fun _ => true) next = true := exists_ok (by decide)
  have hordered : Ordered (row.directed .insert) := by
    apply pairwise_pair.mpr
    decide
  obtain ⟨-,hedges,-⟩ := apply_exact (.empty 0) hordered hnext
  refine ⟨next,hnext,(hedges (.out,1,5) ⟨7,2⟩).mpr (.inr ?_),
    (hedges (.incoming,2,5) ⟨7,1⟩).mpr (.inr ?_)⟩
  · exact ⟨_,mem_cons_self,rfl,rfl⟩
  · exact ⟨_,mem_cons_of_mem _ mem_cons_self,rfl,rfl⟩

def NoShared (cursors : List Cursor) : Prop := cursors.Pairwise fun a b =>
  ∀ x ∈ a.left,∀ y ∈ b.left,x.edge.rel ≠ y.edge.rel

theorem takeLatest_none_at {rel : ℕ} (start : Option (DeltaEntry × ℕ))
    (h : ∀ cursor ∈ cursors,∀ entry ∈ cursor.left,entry.edge.rel ≠ rel) :
    takeLatest rel start cursors = .ok (start,cursors) := by
  induction cursors with
  | nil => rfl
  | cons cursor cursors ih =>
    have hrest:=ih fun c hc => h c (mem_cons_of_mem _ hc)
    obtain ⟨sequence,left⟩ := cursor
    cases left with
    | nil =>
      rw [takeLatest]
      simp only [hrest]
      rfl
    | cons head tail =>
      have hhead:=h _ mem_cons_self head mem_cons_self
      simp only [takeLatest,if_pos hhead,hrest]
      rfl

theorem takeLatest_noShared (rel : ℕ) (h : NoShared cursors) :
    ∃ result,takeLatest rel none cursors = .ok result := by
  induction cursors with
  | nil => exact ⟨_,rfl⟩
  | cons cursor cursors ih =>
    obtain ⟨hfirst,hrest⟩ := pairwise_cons.mp h
    obtain ⟨result,hresult⟩ := ih hrest
    obtain ⟨sequence,left⟩ := cursor
    cases left with
    | nil =>
      rw [takeLatest]
      simp only [hresult]
      exact ⟨_,rfl⟩
    | cons head tail =>
      by_cases hat : head.edge.rel = rel
      · have hnone:=takeLatest_none_at (some (head,sequence))
          (fun c hc entry hentry => hat ▸ (hfirst c hc head mem_cons_self entry hentry).symm)
        simp only [takeLatest,ne_eq,hat,not_true_eq_false,if_false,agree,ok_bind,hnone]
        exact ⟨_,rfl⟩
      · simp only [takeLatest,ne_eq,hat,not_false_eq_true,if_true,hresult]
        exact ⟨_,rfl⟩

theorem Cursor.advance_subset (rel : ℕ) (cursor : Cursor) :
    (cursor.advance rel).left ⊆ cursor.left := by
  obtain ⟨sequence,left⟩ := cursor
  cases left with
  | nil => exact List.Subset.refl _
  | cons head tail =>
    simp only [Cursor.advance]
    split_ifs
    · exact subset_cons_self ..
    · exact List.Subset.refl _

theorem NoShared.advance (rel : ℕ) (h : NoShared cursors) :
    NoShared (cursors.map (Cursor.advance rel)) := by
  apply pairwise_map.mpr
  refine h.imp fun {a b} hab x hx y hy => ?_
  exact hab x (a.advance_subset rel hx) y (b.advance_subset rel hy)

theorem walkFrom_noShared {fuel : ℕ} (h : NoShared cursors) :
    ∃ edges,walkFrom fuel cursors = .ok edges := by
  induction fuel generalizing cursors with
  | zero => exact ⟨_,rfl⟩
  | succ fuel ih =>
    rw [walkFrom]
    cases minRel cursors with
    | none => exact ⟨_,rfl⟩
    | some rel =>
      obtain ⟨⟨last,moved⟩,htake⟩ := takeLatest_noShared rel h
      obtain ⟨rest,hrest⟩ := ih (h.advance rel)
      rw [← (takeLatest_ok htake).1] at hrest
      simp only [htake,ok_bind,hrest]
      exact ⟨_,rfl⟩

theorem AscendingEdges.ext {a b : List Edge} (ha : AscendingEdges a) (hb : AscendingEdges b)
    (h : ∀ edge,edge ∈ a ↔ edge ∈ b) : a = b := by
  have hirrefl : Std.Irrefl fun a b : Edge => a.rel < b.rel := ⟨fun a => Nat.lt_irrefl a.rel⟩
  have hanti : Std.Antisymm fun a b : Edge => a.rel < b.rel :=
    ⟨fun a b hab hba => absurd hab (Nat.not_lt.mpr hba.le)⟩
  exact List.Pairwise.eq_of_mem_iff ha hb h

theorem ascending_inserts : Ascending (inserts edges) ↔ AscendingEdges edges := pairwise_map

theorem walk_inserts {sequence : ℕ}
    (h : AscendingEdges edges) : walk [⟨key,sequence,false,inserts edges⟩] = .ok edges := by
  obtain ⟨found,hfound⟩ : ∃ found,walk [⟨key,sequence,false,inserts edges⟩] = .ok found :=
    walkFrom_noShared (pairwise_singleton ..)
  have hascending : Ascending (inserts edges) := ascending_inserts.mpr h
  obtain ⟨hsorted,hmem⟩ := walk_ok (by simpa using hascending) hfound
  rw [hfound,hsorted.ext h fun edge => ?_]
  rw [hmem]
  simp only [runEntries,map_cons,map_nil,latest,Option.none_or]
  rw [hascending.entryAt_iff]
  simp [mem_inserts]

def baseOnly (key : RangeKey) (sequence : ℕ) (edges : List Edge) : RangeDescriptor :=
  ⟨key,sequence,edges.length,⟨key,sequence,false,inserts edges⟩,[],0⟩

structure Holdable (key : RangeKey) (edges : List Edge) : Prop where
  interval : key.upper.above key.lower = true
  ascending : AscendingEdges edges
  holds : ∀ edge ∈ edges,key.holds edge.rel

theorem Holdable.fits (h : Holdable key edges)
    (sequence : ℕ) (hcount : edges.length ≤ maxBaseEntries) :
    (⟨key,sequence,false,inserts edges⟩ : Run).Fits key false := by
  refine ⟨rfl,rfl,h.interval,?_,ascending_inserts.mpr h.ascending,?_⟩
  · simpa [inserts,maxEntries] using hcount
  · intro entry hentry
    obtain ⟨edge,hedge,rfl⟩ := mem_map.mp hentry
    exact h.holds edge hedge

theorem encodeBase_of_le (h : Holdable key edges)
    (sequence : ℕ) (hcount : edges.length ≤ maxBaseEntries) :
    encodeBase key sequence edges = .ok ⟨key,sequence,false,inserts edges⟩ :=
  encode_eq_ok.mpr ⟨rfl,h.fits sequence hcount⟩

theorem baseOnly_edges (h : AscendingEdges edges)
    (sequence : ℕ) : (baseOnly key sequence edges).edges = edges :=
  edges_of_walk (walk_inserts h)

theorem baseOnly_valid (h : Holdable key edges)
    (sequence : ℕ) (hcount : edges.length ≤ maxBaseEntries) (hne : edges ≠ []) :
    (baseOnly key sequence edges).Valid sequence := by
  have hedges : (baseOnly key sequence edges).edges = edges :=
    baseOnly_edges h.ascending sequence
  constructor
  · rw [hedges]
    refine ⟨Nat.le_refl _,Nat.zero_le _,h.fits sequence hcount,rfl,by simp [baseOnly],
      by simp [baseOnly],by simp [baseOnly,sumEntries],walk_inserts h.ascending,?_⟩
    rw [maxMergedEntries]
    omega
  · simp [baseOnly,inserts]
  · simp [baseOnly]
  · simp [baseOnly,sumEntries]
  · rw [hedges]
    exact hne

theorem new_baseOnly (h : Holdable key edges)
    (sequence : ℕ) (hcount : edges.length ≤ maxBaseEntries) (hne : edges ≠ []) :
    RangeDescriptor.new key sequence edges.length ⟨key,sequence,false,inserts edges⟩ [] 0 =
      .ok (baseOnly key sequence edges) := by
  have hlength : edges.length ≠ 0 := fun hzero => hne (length_eq_zero_iff.mp hzero)
  have hcounts : ¬ (0 > maxPendingEntries ∨ edges.length > maxBaseEntries ∨
      ¬ (([] : List Run).length = 0 ↔ 0 = 0) ∨ 0 < ([] : List Run).length ∨
      (([] : List Run).length = 0 ∧ edges.length = 0)) := by
    rintro (h | h | h | h | h)
    · exact Nat.not_lt_zero _ h
    · exact absurd hcount (Nat.not_le.mpr h)
    · exact h (by simp)
    · exact Nat.lt_irrefl 0 h
    · exact hlength h.2
  rw [RangeDescriptor.new,if_neg (by simp),if_neg (not_not.mpr h.interval),if_neg hcounts]
  rfl

theorem checkNeighbor_ok {cutoff : ℕ} {overlaps : RangeKey → Bool}
    {e : RangeError} {neighbor : Option RangeDescriptor}
    (h : ∀ d ∈ neighbor,d.Valid cutoff ∧ (d.key.group = key.group → overlaps d.key = false)) :
    checkNeighbor cutoff key overlaps e neighbor = .ok () := by
  cases neighbor with
  | none => rfl
  | some d =>
    obtain ⟨hvalid,hoverlap⟩ := h d rfl
    rw [checkNeighbor,validateRange_eq_ok.mpr ⟨hvalid,rfl⟩,ok_bind]
    apply failIf_neg
    rintro ⟨⟨hnode,htype,hdirection⟩,hbad⟩
    rw [hoverlap (group_eq_iff.mpr ⟨hdirection,hnode,htype⟩)] at hbad
    cases hbad

theorem endsBefore_of_not_above {upper : UpperBound} {rel : ℕ} (h : ¬ upper.above rel = true) :
    endsBefore upper rel = true := by
  cases upper with
  | infinity => exact absurd rfl h
  | exclusive bound => simpa [UpperBound.above,endsBefore] using h

section Replace

variable {direction : Direction} {cutoff : ℕ} {dir : Directory} {d : RangeDescriptor}

theorem DirectoryOk.endsBefore (hdir : DirectoryOk direction cutoff dir) {a b : RangeDescriptor}
    (ha : a ∈ dir) (hb : b ∈ dir) (hlt : a.key.pos < b.key.pos)
    (hgroup : a.key.group = b.key.group) : endsBefore a.key.upper b.key.lower = true := by
  apply endsBefore_of_not_above
  intro habove
  have hne : a ≠ b := fun heq => lt_irrefl _ (heq ▸ hlt)
  exact hdir.apart a ha b hb hne hgroup b.key.lower
    ⟨⟨(pos_le_of_group hgroup).mp hlt.le,habove⟩,hdir.holds_lower hb⟩

theorem seek_self (hdir : Sorted dir) (hd : d ∈ dir) :
    ∃ rest,seek dir d.key = d::rest ∧ ∀ next ∈ rest,next ∈ dir ∧ d.key.pos < next.key.pos := by
  have hmem : d ∈ seek dir d.key := by
    rw [seek,mem_filter]
    exact ⟨hd,by simp [keyLt_iff]⟩
  have hsorted : (seek dir d.key).Pairwise fun a b => a.key.pos < b.key.pos := hdir.filter _
  cases hseek : seek dir d.key with
  | nil =>
    rw [hseek] at hmem
    cases hmem
  | cons first rest =>
    rw [hseek] at hmem hsorted
    have hfirst : first ∈ seek dir d.key := by
      rw [hseek]
      exact mem_cons_self
    rw [seek,mem_filter] at hfirst
    have hle : d.key.pos ≤ first.key.pos := by simpa [keyLt_iff] using hfirst.2
    obtain ⟨hhead,-⟩ := pairwise_cons.mp hsorted
    rcases mem_cons.mp hmem with heq | hlater
    · subst heq
      refine ⟨rest,rfl,fun next hnext => ⟨?_,hhead next hnext⟩⟩
      have : next ∈ seek dir d.key := by
        rw [hseek]
        exact mem_cons_of_mem _ hnext
      exact (mem_filter.mp this).1
    · exact absurd (hhead d hlater) (not_lt.mpr hle)

theorem findRange_self (hdir : Sorted dir) (hd : d ∈ dir) : findRange dir d.key = .ok d := by
  obtain ⟨rest,hseek,-⟩ := seek_self hdir hd
  rw [findRange,hseek]
  simp [keyLt_iff]

theorem validatePut_replacement (hdir : DirectoryOk direction cutoff dir) (hd : d ∈ dir)
    {new : RangeDescriptor} (hkey : new.key = d.key) {sequence : ℕ} (hvalid : new.Valid sequence) :
    validatePut direction cutoff sequence dir new = .ok () := by
  have hpredecessor : checkPredecessor cutoff dir d.key = .ok () := by
    rw [checkPredecessor]
    split_ifs with hlower
    · apply checkNeighbor_ok
      intro previous hprevious
      obtain ⟨hmem,hle,-⟩ := lookupPredecessor_some hdir.sorted hprevious
      refine ⟨hdir.valid previous hmem,fun hgroup => ?_⟩
      have hlt : previous.key.pos < d.key.pos := by
        apply lt_of_le_of_lt hle
        simp only [RangeKey.pos,Prod.Lex.lt_iff,ofLex_toLex,lt_self_iff_false,false_or,
          true_and]
        omega
      simp [hdir.endsBefore hmem hd hlt hgroup]
    · rfl
  have hsuccessor : checkNeighbor cutoff d.key (fun next => ¬ endsBefore d.key.upper next.lower)
      .successorOverlap (following dir d.key) = .ok () := by
    apply checkNeighbor_ok
    intro next hnext
    obtain ⟨rest,hseek,hrest⟩ := seek_self hdir.sorted hd
    simp only [following,hseek,keyLt_iff,lt_self_iff_false,not_false_eq_true,if_true] at hnext
    obtain ⟨hmem,hlt⟩ := hrest next (mem_of_mem_head? hnext)
    refine ⟨hdir.valid next hmem,fun hgroup => ?_⟩
    simp [hdir.endsBefore hd hmem hlt hgroup.symm]
  have hdirection : direction = new.key.direction := by rw [hkey,hdir.direction_eq d hd]
  rw [validatePut,failIf_neg _ (not_not.mpr hdirection),validateRange_eq_ok.mpr ⟨hvalid,rfl⟩,hkey]
  simp only [ok_bind,hpredecessor,hsuccessor]

end Replace

def SweptConsistent (d : RangeDescriptor) (swept : List RelationshipRow) : Prop :=
  ∀ edge ∈ d.edges,∀ row ∈ sweptRow swept edge,
    row.ends d.key.direction = (d.key.node,edge.neighbor) ∧ d.key.relType = row.relType

def unswept (swept : List RelationshipRow) (edges : List Edge) : List Edge :=
  edges.filter fun edge => (sweptRow swept edge).isNone

theorem keepEdges_ok {key : RangeKey} {swept : List RelationshipRow} {edges : List Edge}
    (h : ∀ edge ∈ edges,∀ row ∈ sweptRow swept edge,
      row.ends key.direction = (key.node,edge.neighbor) ∧ key.relType = row.relType) :
    keepEdges key swept edges = .ok (unswept swept edges) := by
  induction edges with
  | nil => rfl
  | cons edge edges ih =>
    have hrest:=ih fun other hother => h other (mem_cons_of_mem _ hother)
    rw [keepEdges,unswept,filter_cons]
    cases hrow : sweptRow swept edge with
    | none =>
      simp only [hrest,ok_bind,Option.isNone_none,if_true]
      rfl
    | some row =>
      obtain ⟨hends,htype⟩ := h edge mem_cons_self row hrow
      simp only [hends,htype,ne_eq,not_true_eq_false,or_self,if_false,Option.isNone_some,
        Bool.false_eq_true]
      exact hrest

/-- The replacement that maintenance is to make: none when no edge is left, otherwise one
base for the same key with the edges that are left. -/
def Rewritten (sequence : ℕ) (direction : Direction) (dir : Directory) (d : RangeDescriptor)
    (swept : List RelationshipRow) : Prop :=
  ∃ result,rewriteRange sequence direction dir d.key swept = .ok result ∧
    (result = none ↔ unswept swept d.edges = []) ∧
      ∀ new ∈ result,new.key = d.key ∧ new.deltas = [] ∧ new.edges = unswept swept d.edges

section Rewrite

variable {direction : Direction} {sequence : ℕ} {dir : Directory} {d : RangeDescriptor}
  {swept : List RelationshipRow}

theorem unswept_holdable (h : d.Valid sequence) : Holdable d.key (unswept swept d.edges) where
  interval := h.interval
  ascending := h.ascending.filter _
  holds := fun edge hedge => h.holds edge (mem_filter.mp hedge).1

theorem rewriteRange_eq (hdir : DirectoryOk direction sequence dir) (hd : d ∈ dir)
    (hswept : SweptConsistent d swept) :
    rewriteRange sequence direction dir d.key swept =
      if unswept swept d.edges = [] then .ok none
      else if (unswept swept d.edges).length ≤ maxBaseEntries then
        .ok (some (baseOnly d.key (sequence+1) (unswept swept d.edges)))
      else .error .innerLimit := by
  have hvalid:=hdir.valid d hd
  have hkept : Holdable d.key (unswept swept d.edges) := unswept_holdable hvalid
  rw [rewriteRange,findRange_self hdir.sorted hd,ok_bind,validateRange_eq_ok.mpr ⟨hvalid,rfl⟩,
    ok_bind,keepEdges_ok hswept,ok_bind]
  simp only [List.isEmpty_iff]
  by_cases hempty : unswept swept d.edges = []
  · rw [if_pos hempty,if_pos hempty]
    rfl
  · rw [if_neg hempty,if_neg hempty]
    by_cases hcount : (unswept swept d.edges).length ≤ maxBaseEntries
    · have hnew:=baseOnly_valid hkept (sequence+1) hcount hempty
      have hkey : (baseOnly d.key (sequence+1) (unswept swept d.edges)).key = d.key := rfl
      have hput:=validatePut_replacement hdir hd hkey hnew
      rw [if_pos hcount,encodeBase_of_le hkept _ hcount]
      simp only [Except.mapError,ok_bind,new_baseOnly hkept _ hcount hempty,hput]
      rfl
    · rw [if_neg hcount]
      have hlimit : encodeBase d.key (sequence+1) (unswept swept d.edges) =
          .error (.limit .baseEntries) := by
        rw [encodeBase,encode,validRange_eq_ok.mpr hvalid.interval,ok_bind,limitCount,
          if_neg (by simp),if_pos (by simpa using hcount)]
        rfl
      rw [hlimit]
      rfl

theorem rewritten_iff (hdir : DirectoryOk direction sequence dir) (hd : d ∈ dir)
    (hswept : SweptConsistent d swept) :
    Rewritten sequence direction dir d swept ↔
      (unswept swept d.edges).length ≤ maxBaseEntries := by
  rw [Rewritten,rewriteRange_eq hdir hd hswept]
  constructor
  · rintro ⟨result,hresult,-⟩
    split_ifs at hresult with hempty hcount
    · simp [hempty]
    · exact hcount
  · intro hcount
    split_ifs with hempty
    · exact ⟨none,rfl,by simp [hempty],by simp⟩
    · refine ⟨_,rfl,by simp [hempty],?_⟩
      intro new hnew
      cases hnew
      exact ⟨rfl,rfl,baseOnly_edges (hdir.valid d hd |>.ascending.filter _) _⟩

end Rewrite

/-- Maintenance rewrites a committed range exactly when a base can hold what is left of it. -/
theorem rewriteRange_exact {sequence : ℕ} {roots : Roots} (hcommitted : Committed sequence roots)
    {direction : Direction} {d : RangeDescriptor} (hd : d ∈ roots.directory direction)
    {swept : List RelationshipRow} (hswept : SweptConsistent d swept) :
    Rewritten sequence direction (roots.directory direction) d swept ↔
      (unswept swept d.edges).length ≤ maxBaseEntries :=
  rewritten_iff (hcommitted.reachable.rootsOk direction) hd hswept

/-- The range of the first relationship of a store. -/
theorem rewriteRange_exact_first :
    ∃ next,prepareAdjacency 0 ⟨[],[]⟩ [⟨none,some ⟨7,1,2,5⟩,true,true,false⟩] = .ok next ∧
      ∃ d ∈ next.out,Rewritten 1 .out next.out d [] := by
  obtain ⟨next,hnext,hout⟩ : ∃ next,
      prepareAdjacency 0 ⟨[],[]⟩ [⟨none,some ⟨7,1,2,5⟩,true,true,false⟩] = .ok next ∧
        (next.out.any fun d => (unswept [] d.edges).length ≤ maxBaseEntries) = true :=
    exists_ok (by decide)
  obtain ⟨d,hd,hcount⟩ := any_eq_true.mp hout
  have hswept : SweptConsistent d [] := by
    intro edge _ row hrow
    cases hrow
  have hcommitted : Committed 1 next := .batch (.empty 0) hnext
  have hmem : d ∈ next.directory .out := hd
  exact ⟨next,hnext,d,hd,
    (rewriteRange_exact hcommitted hmem hswept).mpr (of_decide_eq_true hcount)⟩

end Zeppelin.GraphStore.Adjacency
