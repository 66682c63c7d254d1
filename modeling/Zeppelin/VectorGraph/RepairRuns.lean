import Zeppelin.VectorGraph.Repair

namespace Zeppelin.VectorGraph
open Machine List

section Row
variable {rMax nodeCount owner node : ℕ} {row : List ℕ}

theorem ValidRow.append (h : ValidRow rMax nodeCount owner row) (hroom : row.length < rMax)
    (hlt : node < nodeCount) (hother : node ≠ owner) (hnew : node ∉ row) :
    ValidRow rMax nodeCount owner (row++[node]) where
  degree := by
    rw [length_append,length_singleton]
    exact hroom
  distinct := by
    rw [nodup_append]
    refine ⟨h.distinct,nodup_singleton node,?_⟩
    intro a ha b hb heq
    rw [mem_singleton.mp hb] at heq
    exact hnew (heq ▸ ha)
  range := by
    intro b hb
    rcases mem_append.mp hb with hb | hb
    · exact h.range b hb
    · rw [mem_singleton.mp hb]
      exact hlt
  other := by
    intro howner
    rcases mem_append.mp howner with howner | howner
    · exact h.other howner
    · exact hother (mem_singleton.mp howner).symm

theorem ValidRow.set (h : ValidRow rMax nodeCount owner row) (slot : ℕ) (hlt : node < nodeCount)
    (hother : node ≠ owner) (hnew : node ∉ row) :
    ValidRow rMax nodeCount owner (row.set slot node) where
  degree := by
    rw [length_set]
    exact h.degree
  distinct := h.distinct.set hnew
  range := by
    intro b hb
    rcases mem_or_eq_of_mem_set hb with hb | rfl
    · exact h.range b hb
    · exact hlt
  other := by
    intro howner
    rcases mem_or_eq_of_mem_set howner with howner | heq
    · exact h.other howner
    · exact hother heq.symm

theorem rowWithTarget_spec (h : ValidRow rMax nodeCount owner row) (hlt : node < nodeCount)
    (hother : node ≠ owner) {replacement : Option ℕ}
    (hroom : row.length < rMax ∨ ∃ slot < row.length,replacement = some slot) :
    ∃ changed,rowWithTarget owner node rMax replacement row = .ok changed ∧
      ValidRow rMax nodeCount owner changed ∧ node ∈ changed ∧
      (∀ b ∈ changed,b ∈ row ∨ b = node) ∧
      ∀ b ∈ row,b ∈ changed ∨ ∃ slot,replacement = some slot ∧ row[slot]? = some b := by
  unfold rowWithTarget
  split_ifs with hmem hless
  · exact ⟨row,rfl,h,hmem,fun b hb => .inl hb,fun b hb => .inl hb⟩
  · refine ⟨_,rfl,h.append hless hlt hother hmem,?_,?_,?_⟩
    · exact mem_append_right _ (mem_singleton_self node)
    · intro b hb
      exact (mem_append.mp hb).imp_right mem_singleton.mp
    · exact fun b hb => .inl (mem_append_left _ hb)
  · obtain ⟨slot,hslot,rfl⟩ := hroom.resolve_left hless
    dsimp only
    rw [if_neg (by omega)]
    refine ⟨_,rfl,h.set slot hlt hother hmem,mem_set hslot node,?_,?_⟩
    · exact fun b hb => mem_or_eq_of_mem_set hb
    · intro b hb
      obtain ⟨i,hi⟩ := mem_iff_getElem?.mp hb
      by_cases heq : slot = i
      · rw [heq]
        exact .inr ⟨i,rfl,hi⟩
      · left
        apply mem_of_getElem?
        rw [getElem?_set_ne heq]
        exact hi

theorem rowWithSource_spec (h : ValidRow rMax nodeCount owner row) (hlt : node < nodeCount)
    (hother : node ≠ owner) (hpositive : 0 < rMax) :
    ∃ changed,rowWithSource node rMax row = .ok changed ∧ ValidRow rMax nodeCount owner changed := by
  unfold rowWithSource
  split_ifs with hmem hless hempty
  · exact ⟨row,rfl,h⟩
  · exact ⟨_,rfl,h.append hless hlt hother hmem⟩
  · omega
  · exact ⟨_,rfl,h.set _ hlt hother hmem⟩

end Row

def OwnedGraph.withHub (graph : OwnedGraph) (source : ℕ) (flags : U8) : OwnedGraph :=
  { graph with flags := graph.flags.set source (flags ||| hubFlag) }

theorem OwnedGraph.Valid.withHub {graph : OwnedGraph} {rMax : U8} (h : graph.Valid rMax)
    (source : ℕ) (flags : U8) : (graph.withHub source flags).Valid rMax where
  flagged := (length_set ..).trans h.flagged
  counted := h.counted
  rows := h.rows

theorem hubsAdded_withHub (before after : OwnedGraph) (hdegree : after.maxDegree = before.maxDegree)
    (hcount : after.neighbors.length = before.neighbors.length) (hflags : after.flags = before.flags)
    {source : ℕ} {flags : U8} (hsource : after.flags[source]? = some flags) :
    HubsAdded before (after.withHub source flags) where
  degree := hdegree
  count := hcount
  flags := by
    intro row
    rw [← hflags]
    by_cases heq : source = row
    · rw [← heq,hsource]
      exact .inr (getElem?_set_self (List.getElem?_eq_some_iff.mp hsource).1)
    · exact .inl (getElem?_set_ne heq)

section Stitch
variable {graph stitched : OwnedGraph} {rMax : U8} {marks : List Bool} {root target : ℕ}

structure Stitched (graph : OwnedGraph) (rMax : U8) (marks : List Bool) (root target : ℕ)
    (stitched : OwnedGraph) : Prop where
  valid : stitched.Valid rMax
  hubs : HubsAdded graph stitched
  keeps : ∀ a,marks[a]? = some true → stitched.Reaches root a
  reached : stitched.Reaches root target
  closed : ∀ a,marks[a]? = some true → ∀ b ∈ stitched.adjacent a,
    marks[b]? = some true ∨ b = target

theorem reaches_kept (hdrained : Drained graph marks root) {edges : ℕ → ℕ → Prop} {source : ℕ}
    (hedges : ∀ a b,edges a b → b ∈ graph.adjacent a)
    (hsame : ∀ a,marks[a]? = some true → a ≠ source → stitched.adjacent a = graph.adjacent a)
    (hsource : ∀ b,edges source b → b ∈ stitched.adjacent source) {a : ℕ}
    (hreaches : Relation.ReflTransGen edges root a) :
    marks[a]? = some true ∧ stitched.Reaches root a := by
  induction hreaches with
  | refl => exact ⟨hdrained.begun,.refl⟩
  | @tail a b _ hedge ih =>
    obtain ⟨hseen,hway⟩ := ih
    refine ⟨hdrained.closed a hseen b (hedges a b hedge),hway.tail ?_⟩
    by_cases heq : a = source
    · rw [heq] at hedge ⊢
      exact hsource b hedge
    · rw [hsame a hseen heq]
      exact hedges a b hedge

theorem stitchComponent_spec (h : graph.Valid rMax) (hdrained : Drained graph marks root)
    (hroot : firstEntry graph = .ok root) (hpositive : 0 < rMax.toNat)
    (htarget : marks[target]? = some false) :
    ∃ stitched,stitchComponent graph marks target rMax = .ok stitched ∧
      Stitched graph rMax marks root target stitched := by
  have hlt : target < graph.neighbors.length := by
    rw [← hdrained.length]
    exact (List.getElem?_eq_some_iff.mp htarget).1
  obtain ⟨source,replacement,hsource,hseen,hroom⟩ := connectivitySource_spec h hdrained hroot
    hpositive
  have hslt : source < graph.neighbors.length := by
    rw [← hdrained.length]
    exact lt_of_seen hseen
  have hne : target ≠ source := by
    intro heq
    rw [heq,hseen] at htarget
    cases htarget
  have hspace : (graph.adjacent source).length < rMax.toNat ∨
      ∃ slot < (graph.adjacent source).length,replacement = some slot := by
    rcases hroom with ⟨_,hless⟩ | ⟨slot,hslot,parents,_,node,hnode,_⟩
    · exact .inl hless
    · exact .inr ⟨slot,(List.getElem?_eq_some_iff.mp hnode).1,hslot⟩
  obtain ⟨linkedRow,hlinked,hlinkedValid,hmem,honly,hkept⟩ := rowWithTarget_spec
    (h.row source) hlt hne hspace
  have hlinkedGraph : setOrAppendNeighbor graph source target rMax.toNat replacement =
      .ok (graph.setRow source linkedRow) := by
    unfold setOrAppendNeighbor
    rw [nodeCount_eq h,ok_bind,checkedRow_eq hslt,ok_bind,hlinked,ok_bind]
    rfl
  have hvalid : (graph.setRow source linkedRow).Valid rMax := h.setRow hlinkedValid
  have hrow:=hvalid.row target
  rw [setRow_length] at hrow
  obtain ⟨backRow,hback,hbackValid⟩ := rowWithSource_spec hrow hslt hne.symm hpositive
  have hvalid' : ((graph.setRow source linkedRow).setRow target backRow).Valid rMax := by
    apply hvalid.setRow
    rw [setRow_length]
    exact hbackValid
  have hsflags : source < graph.flags.length := by
    rw [h.flagged]
    exact hslt
  have hflags : graph.flags[source]? = some graph.flags[source] := getElem?_eq_getElem hsflags
  have hsame : ∀ a,marks[a]? = some true → a ≠ source →
      (((graph.setRow source linkedRow).setRow target backRow).withHub source
        graph.flags[source]).adjacent a = graph.adjacent a := by
    intro a ha hasource
    have hatarget : target ≠ a := by
      intro heq
      rw [heq,ha] at htarget
      cases htarget
    exact (setRow_adjacent_ne _ _ hatarget).trans (setRow_adjacent_ne _ _ hasource.symm)
  have hsourceRow : (((graph.setRow source linkedRow).setRow target backRow).withHub source
      graph.flags[source]).adjacent source = linkedRow :=
    (setRow_adjacent_ne _ _ hne).trans (setRow_adjacent _ _ hslt)
  have hkeeps : ∀ a,marks[a]? = some true → (((graph.setRow source linkedRow).setRow target
      backRow).withHub source graph.flags[source]).Reaches root a := by
    intro a ha
    rcases hroom with ⟨hnone,_⟩ | ⟨slot,hslot,parents,htree,node,hnode,hspare⟩
    · -- no edge is given up
      refine (reaches_kept hdrained (fun _ _ hedge => hedge) hsame ?_ (hdrained.led a ha)).2
      intro b hb
      rw [hsourceRow]
      refine (hkept b hb).resolve_right ?_
      rw [hnone]
      nofun
    · -- the edges of the tree stay
      refine (reaches_kept hdrained (fun _ _ hedge => hedge.1) hsame ?_ (htree.led a ha)).2
      intro b hb
      rw [hsourceRow]
      refine (hkept b hb.1).resolve_right ?_
      intro ⟨other,hother,hb'⟩
      rw [hslot] at hother
      obtain rfl := Option.some.inj hother
      obtain rfl := Option.some.inj (hnode.symm.trans hb')
      exact hspare hb.2
  refine ⟨((graph.setRow source linkedRow).setRow target backRow).withHub source
    graph.flags[source],?_,?_,?_,hkeeps,?_,?_⟩
  · have htarget : target < (graph.setRow source linkedRow).neighbors.length := by
      rw [setRow_length]
      exact hlt
    have hrowTarget:=checkedRow_eq htarget
    unfold stitchComponent
    dsimp only
    rw [failIf_neg _ (by omega),ok_bind,hsource,ok_bind]
    dsimp only
    rw [hlinkedGraph,ok_bind,nodeCount_eq hvalid,ok_bind,hrowTarget,ok_bind,hback,ok_bind,
      OwnedGraph.flagsOf]
    have hkeptFlags : ((graph.setRow source linkedRow).setRow target backRow).flags[source]? =
      some graph.flags[source] := hflags
    rw [hkeptFlags]
    rfl
  · exact hvalid'.withHub _ _
  · have hcount : ((graph.setRow source linkedRow).setRow target backRow).neighbors.length =
        graph.neighbors.length := (setRow_length _ _ _).trans (setRow_length _ _ _)
    exact hubsAdded_withHub graph ((graph.setRow source linkedRow).setRow target backRow) rfl hcount
      rfl hflags
  · refine (hkeeps source hseen).tail ?_
    rw [hsourceRow]
    exact hmem
  · intro a ha b hb
    by_cases heq : a = source
    · rw [heq,hsourceRow] at hb
      rcases honly b hb with hb | hb
      · exact .inl (hdrained.closed source hseen b hb)
      · exact .inr hb
    · rw [hsame a ha heq] at hb
      exact .inl (hdrained.closed a ha b hb)

end Stitch

section Dense
variable {rMax nodeCount owner targetDegree : ℕ} {row : List ℕ}

structure Filling (rMax nodeCount owner targetDegree : ℕ) (row dense : List ℕ) : Prop where
  valid : ValidRow rMax nodeCount owner dense
  bounded : dense.length ≤ targetDegree
  keeps : row ⊆ dense
  longer : row.length ≤ dense.length

theorem densifyWith_spec (h : Filling rMax nodeCount owner targetDegree row row)
    (hdegree : targetDegree ≤ rMax) {candidate : ℕ} (hlt : candidate < nodeCount) :
    Filling rMax nodeCount owner targetDegree row (densifyWith owner targetDegree row candidate) ∧
      ((densifyWith owner targetDegree row candidate).length < targetDegree → candidate ≠ owner →
        candidate ∈ densifyWith owner targetDegree row candidate) := by
  unfold densifyWith
  split_ifs with hfull hnew
  · exact ⟨h,fun hless => absurd hless (by omega)⟩
  · refine ⟨⟨h.valid.append (by omega) hlt hnew.1 hnew.2,?_,?_,?_⟩,?_⟩
    · rw [length_append,length_singleton]
      omega
    · exact subset_append_left _ _
    · rw [length_append]
      exact Nat.le_add_right _ _
    · intro _ _
      exact mem_append_right _ (mem_singleton_self candidate)
  · refine ⟨h,fun _ hother => ?_⟩
    by_contra hmem
    exact hnew ⟨hother,hmem⟩

theorem Filling.trans {dense denser : List ℕ}
    (h : Filling rMax nodeCount owner targetDegree row dense)
    (h' : Filling rMax nodeCount owner targetDegree dense denser) :
    Filling rMax nodeCount owner targetDegree row denser where
  valid := h'.valid
  bounded := h'.bounded
  keeps := List.Subset.trans h.keeps h'.keeps
  longer := h.longer.trans h'.longer

theorem Filling.refl {dense : List ℕ} (h : Filling rMax nodeCount owner targetDegree row dense) :
    Filling rMax nodeCount owner targetDegree dense dense where
  valid := h.valid
  bounded := h.bounded
  keeps := List.Subset.refl _
  longer := le_rfl

theorem densify_spec {candidates : List ℕ} (h : Filling rMax nodeCount owner targetDegree row row)
    (hdegree : targetDegree ≤ rMax) (hlt : ∀ candidate ∈ candidates,candidate < nodeCount) :
    Filling rMax nodeCount owner targetDegree row
        (candidates.foldl (densifyWith owner targetDegree) row) ∧
      ((candidates.foldl (densifyWith owner targetDegree) row).length < targetDegree →
        ∀ candidate ∈ candidates,candidate ≠ owner →
          candidate ∈ candidates.foldl (densifyWith owner targetDegree) row) := by
  induction candidates generalizing row with
  | nil => exact ⟨h,fun _ => nofun⟩
  | cons candidate candidates ih =>
    rw [foldl_cons]
    obtain ⟨hfirst,hhas⟩ := densifyWith_spec h hdegree (hlt candidate mem_cons_self)
    obtain ⟨hrest,hall⟩ := ih hfirst.refl fun other hother =>
      hlt other (mem_cons_of_mem _ hother)
    refine ⟨hfirst.trans hrest,?_⟩
    intro hless other hother hne
    rcases mem_cons.mp hother with rfl | hother
    · exact hrest.keeps (hhas (hrest.longer.trans_lt hless) hne)
    · exact hall hless other hother hne

theorem ValidRow.length_le (h : ValidRow rMax nodeCount owner row) (howner : owner < nodeCount) :
    row.length ≤ nodeCount-1 := by
  have hsub : row.toFinset ⊆ (Finset.range nodeCount).erase owner := by
    intro node hnode
    have hmem:=mem_toFinset.mp hnode
    refine Finset.mem_erase.mpr ⟨?_,Finset.mem_range.mpr (h.range node hmem)⟩
    intro heq
    rw [heq] at hmem
    exact h.other hmem
  have hcard:=Finset.card_le_card hsub
  rw [toFinset_card_of_nodup h.distinct,Finset.card_erase_of_mem (Finset.mem_range.mpr howner),
    Finset.card_range] at hcard
  exact hcard

theorem dense_length (h : Filling rMax nodeCount owner targetDegree row row)
    (hdegree : targetDegree ≤ rMax) (hcount : targetDegree ≤ nodeCount-1)
    (howner : owner < nodeCount) :
    ((List.range nodeCount).foldl (densifyWith owner targetDegree) row).length = targetDegree := by
  have hrange : ∀ candidate ∈ List.range nodeCount,candidate < nodeCount :=
    fun candidate hcandidate => mem_range.mp hcandidate
  obtain ⟨hfilled,hall⟩ := densify_spec h hdegree hrange
  by_contra hne
  have hless:=lt_of_le_of_ne hfilled.bounded hne
  have hsub : (Finset.range nodeCount).erase owner ⊆
      ((List.range nodeCount).foldl (densifyWith owner targetDegree) row).toFinset := by
    intro node hnode
    obtain ⟨hother,hlt⟩ := Finset.mem_erase.mp hnode
    exact mem_toFinset.mpr
      (hall hless node (mem_range.mpr (Finset.mem_range.mp hlt)) hother)
  have hcard:=Finset.card_le_card hsub
  rw [toFinset_card_of_nodup hfilled.valid.distinct,
    Finset.card_erase_of_mem (Finset.mem_range.mpr howner),Finset.card_range] at hcard
  omega

end Dense

section Graph
variable {graph : OwnedGraph} {rMax : U8} {root : ℕ}

structure Densified (before after : OwnedGraph) (rMax : U8) : Prop where
  valid : after.Valid rMax
  flags : after.flags = before.flags
  degree : after.maxDegree = before.maxDegree
  count : after.neighbors.length = before.neighbors.length
  keeps : ∀ a,before.adjacent a ⊆ after.adjacent a

theorem densifyHub_spec (h : graph.Valid rMax) {owner : ℕ} (howner : owner < graph.neighbors.length) :
    ∃ dense,densifyHub graph owner rMax = .ok dense ∧ Densified graph dense rMax := by
  have hflags : owner < graph.flags.length := by
    rw [h.flagged]
    exact howner
  unfold densifyHub
  rw [nodeCount_eq h,ok_bind,nodeIndex_eq howner,ok_bind,flagsOf_eq hflags,ok_bind]
  split_ifs with hhub
  · exact ⟨graph,rfl,h,rfl,rfl,rfl,fun a => List.Subset.refl _⟩
  · have hrow:=h.row owner
    have hfilling : Filling rMax.toNat graph.neighbors.length owner
        (min rMax.toNat (graph.neighbors.length-1)) (graph.adjacent owner)
        (graph.adjacent owner) :=
      ⟨hrow,le_min hrow.degree (hrow.length_le howner),List.Subset.refl _,le_rfl⟩
    have hlength:=dense_length hfilling (min_le_left _ _) (min_le_right _ _) howner
    have hrange : ∀ candidate ∈ List.range graph.neighbors.length,
        candidate < graph.neighbors.length :=
      fun candidate hcandidate => mem_range.mp hcandidate
    obtain ⟨hfilled,-⟩ := densify_spec hfilling (min_le_left _ _) hrange
    dsimp only
    rw [row_eq howner,ok_bind,failIf_neg _ (not_not.mpr hlength),ok_bind]
    refine ⟨_,rfl,h.setRow hfilled.valid,rfl,rfl,setRow_length _ _ _,?_⟩
    intro a
    by_cases heq : owner = a
    · rw [← heq,setRow_adjacent _ _ howner]
      exact hfilled.keeps
    · rw [setRow_adjacent_ne _ _ heq]
      exact List.Subset.refl _

theorem densifyAll_spec (h : graph.Valid rMax) {owners : List ℕ}
    (howners : ∀ owner ∈ owners,owner < graph.neighbors.length) :
    ∃ dense,owners.foldlM (fun graph owner => densifyHub graph owner rMax) graph = .ok dense ∧
      Densified graph dense rMax := by
  induction owners generalizing graph with
  | nil => exact ⟨graph,rfl,h,rfl,rfl,rfl,fun a => List.Subset.refl _⟩
  | cons owner owners ih =>
    obtain ⟨first,hfirst,hdense⟩ := densifyHub_spec h (howners owner mem_cons_self)
    obtain ⟨dense,hall,hdenser⟩ := ih hdense.valid (by
      rw [hdense.count]
      exact fun other hother => howners other (mem_cons_of_mem _ hother))
    refine ⟨dense,?_,hdenser.valid,hdenser.flags.trans hdense.flags,
      hdenser.degree.trans hdense.degree,hdenser.count.trans hdense.count,
      fun a => List.Subset.trans (hdense.keeps a) (hdenser.keeps a)⟩
    rw [foldlM_cons,hfirst]
    exact hall

def unseen (marks : List Bool) : Finset ℕ :=
  (Finset.range marks.length).filter fun node => marks[node]? = some false

theorem mem_unseen {marks : List Bool} {node : ℕ} :
    node ∈ unseen marks ↔ marks[node]? = some false := by
  rw [unseen,Finset.mem_filter,Finset.mem_range]
  exact ⟨fun h => h.2,fun h => ⟨(List.getElem?_eq_some_iff.mp h).1,h⟩⟩

theorem card_unseen_le (marks : List Bool) : (unseen marks).card ≤ marks.length := by
  have hcard:=Finset.card_filter_le (Finset.range marks.length)
    fun node => marks[node]? = some false
  rwa [Finset.card_range] at hcard

structure Repairing (start : OwnedGraph) (rMax : U8) (root : ℕ) (state : OwnedGraph × Seen) :
    Prop where
  valid : state.1.Valid rMax
  hubs : HubsAdded start state.1
  length : state.2.marks.length = state.1.neighbors.length
  begun : state.2.marks[root]? = some true
  queued : ∀ node ∈ state.2.queue,Flood.Marked false state.2.marks node
  next : ∀ a,Flood.Marked false state.2.marks a → a ∉ state.2.queue →
    ∀ b ∈ state.1.adjacent a,Flood.Marked false state.2.marks b
  led : ∀ a,Flood.Marked false state.2.marks a → state.1.Reaches root a

structure AllReached (start : OwnedGraph) (rMax : U8) (root : ℕ) (graph : OwnedGraph) : Prop where
  valid : graph.Valid rMax
  hubs : HubsAdded start graph
  reaches : ∀ node < graph.neighbors.length,graph.Reaches root node

variable {start : OwnedGraph} {state : OwnedGraph × Seen}

theorem drainQueue_spec (h : Repairing start rMax root state) :
    ∃ seen,drainQueue state.1 state.1.neighbors.length state.2 = .ok seen ∧
      seen.queue = [] ∧ Drained state.1 seen.marks root ∧
      unseen seen.marks ⊆ unseen state.2.marks := by
  have hflood : ∃ seen,drainQueue state.1 state.1.neighbors.length state.2 = .ok seen ∧
      seen.queue = [] ∧ Flood.Flooded false (fun _ => True) state.1.adjacent (fun _ => true)
        state.2.marks seen.marks := by
    apply Flood.flood_spec
    · rw [h.length]
      exact fun owner howner => checkedRow_eq howner
    · rw [h.length]
      exact fun owner _ => (h.valid.row owner).range
    · exact fun _ _ => nofun
    · exact h.queued
    · exact fun a ha hnot b hb _ => h.next a ha hnot b hb
  obtain ⟨seen,hseen,hqueue,hflooded⟩ := hflood
  have hkept : ∀ node : ℕ,state.2.marks[node]? = some true → seen.marks[node]? = some true := by
    intro node hnode
    rw [hflooded.kept node (marked_iff.mpr hnode)]
    exact hnode
  refine ⟨seen,hseen,hqueue,⟨?_,hkept root h.begun,?_,?_⟩,?_⟩
  · exact hflooded.length.trans h.length
  · intro a ha b hb
    exact marked_iff.mp (hflooded.closed a (marked_iff.mpr ha) b hb trivial)
  · intro a ha
    obtain ⟨first,hfirst,hpath⟩ := hflooded.led a (marked_iff.mpr ha)
    have hedges : ∀ p i,Flood.Parent false (fun _ => True) state.1.adjacent (fun _ => true)
        seen.marks p i → i ∈ state.1.adjacent p := fun p i hparent => hparent.1
    exact (h.led first hfirst).trans (Relation.ReflTransGen.mono hedges first a hpath)
  · intro node hnode
    have hfree:=mem_unseen.mp hnode
    rw [mem_unseen]
    have hlt : node < state.2.marks.length := by
      rw [← hflooded.length]
      exact (List.getElem?_eq_some_iff.mp hfree).1
    cases hmark : state.2.marks[node] with
    | false => rw [getElem?_eq_getElem hlt,hmark]
    | true =>
      have hold:=hkept node (by rw [getElem?_eq_getElem hlt,hmark])
      rw [hfree] at hold
      cases hold

theorem repairStep_spec (hpositive : 0 < rMax.toNat) (hroot : firstEntry start = .ok root)
    (h : Repairing start rMax root state) :
    (∃ next,repairStep start.neighbors.length rMax state = .ok (.next next) ∧
      Repairing start rMax root next ∧
      (unseen next.2.marks).card < (unseen state.2.marks).card) ∨
    ∃ last,repairStep start.neighbors.length rMax state = .ok (.stop last) ∧
      AllReached start rMax root last.1 := by
  obtain ⟨graph,before⟩ := state
  obtain ⟨seen,hseen,hqueue,hdrained,hfewer⟩ := drainQueue_spec h
  have hentry : firstEntry graph = .ok root := h.hubs.firstEntry_eq.trans hroot
  dsimp only at hseen hdrained hfewer ⊢
  have hvalid : graph.Valid rMax := h.valid
  have hcount : graph.neighbors.length = start.neighbors.length := h.hubs.count
  unfold repairStep
  dsimp only
  rw [← hcount,hseen,ok_bind]
  cases hfound : seen.marks.findIdx? (fun marker => marker = false) with
  | none =>
    right
    refine ⟨(graph,seen),rfl,h.valid,h.hubs,?_⟩
    intro node hnode
    have hin : node < seen.marks.length := by
      rw [hdrained.length]
      exact hnode
    apply hdrained.led
    have hall:=findIdx?_eq_none_iff.mp hfound seen.marks[node] (getElem_mem hin)
    rw [getElem?_eq_getElem hin]
    simpa using hall
  | some target =>
    left
    obtain ⟨hin,htarget,-⟩ := findIdx?_eq_some_iff_getElem.mp hfound
    have hfree : seen.marks[target]? = some false := by
      rw [getElem?_eq_getElem hin]
      simpa using htarget
    have hlt : target < graph.neighbors.length := by
      rw [← hdrained.length]
      exact hin
    obtain ⟨stitched,hstitched,hspec⟩ := stitchComponent_spec hvalid hdrained hentry hpositive
      hfree
    have hset : (seen.marks.set target true)[target]? = some true := getElem?_set_self hin
    have henqueued : markAndEnqueueByte target seen =
        .ok ⟨seen.marks.set target true,[target]⟩ := by
      rw [markAndEnqueueByte,Flood.enqueue,hfree]
      dsimp only
      rw [if_pos ⟨rfl,trivial⟩,hqueue,nil_append]
    have hmarks : ∀ a,Flood.Marked false (seen.marks.set target true) a →
        a = target ∨ seen.marks[a]? = some true := by
      intro a ha
      exact (Flood.marked_set ha).imp_right marked_iff.mp
    have hold : ∀ a : ℕ,seen.marks[a]? = some true →
        (seen.marks.set target true)[a]? = some true := by
      intro a ha
      rw [getElem?_set_ne]
      · exact ha
      · intro heq
        rw [← heq,hfree] at ha
        cases ha
    refine ⟨(stitched,⟨seen.marks.set target true,[target]⟩),?_,?_,?_⟩
    · dsimp only
      rw [rowNumber_eq hvalid hlt,ok_bind,hstitched,ok_bind,henqueued,ok_bind]
      rfl
    · refine ⟨hspec.valid,h.hubs.trans hspec.hubs,?_,hold root hdrained.begun,?_,?_,?_⟩
      · dsimp only
        rw [length_set,hdrained.length,hspec.hubs.count]
      · intro node hnode
        rw [mem_singleton.mp hnode]
        exact marked_iff.mpr hset
      · intro a ha hnot b hb
        have hseenA:=(hmarks a ha).resolve_left fun heq => hnot (mem_singleton.mpr heq)
        rcases hspec.closed a hseenA b hb with hb | rfl
        · exact marked_iff.mpr (hold b hb)
        · exact marked_iff.mpr hset
      · intro a ha
        rcases hmarks a ha with rfl | ha
        · exact hspec.reached
        · exact hspec.keeps a ha
    · apply Finset.card_lt_card
      refine (Finset.ssubset_iff_of_subset ?_).mpr ⟨target,hfewer (mem_unseen.mpr hfree),?_⟩
      · intro node hnode
        apply hfewer
        rw [mem_unseen] at hnode ⊢
        by_cases heq : target = node
        · rw [← heq,hset] at hnode
          cases hnode
        · rwa [getElem?_set_ne heq] at hnode
      · intro hmem
        rw [mem_unseen,hset] at hmem
        cases hmem

structure Repaired (start : OwnedGraph) (rMax : U8) (repaired : OwnedGraph) : Prop where
  valid : repaired.Valid rMax
  hubs : HubsAdded start repaired
  connected : ∃ root,firstEntry repaired = .ok root ∧
    ∀ node < start.neighbors.length,repaired.Reaches root node

theorem connectivityRepair_spec (hpositive : 0 < rMax.toNat) (h : graph.Valid rMax)
    (hdegree : graph.maxDegree = rMax)
    (hentry : ∃ flags ∈ graph.flags,flags &&& entryFlag ≠ 0) :
    ∃ repaired,connectivityRepair graph rMax = .ok repaired ∧ Repaired graph rMax repaired := by
  obtain ⟨root,hlt,hroot⟩ := firstEntry_ok h hentry
  have hmarked : ∀ node,Flood.Marked false
      ((List.replicate graph.neighbors.length false).set root true) node → node = root := by
    intro node hnode
    rcases Flood.marked_set hnode with rfl | ⟨mark,hmark,hne⟩
    · rfl
    · exact absurd (eq_of_mem_replicate (mem_of_getElem? hmark)) hne
  have hset : ((List.replicate graph.neighbors.length false).set root true)[root]? = some true :=
    getElem?_set_self (by rw [length_replicate]; exact hlt)
  have hfirst : markAndEnqueueByte root ⟨List.replicate graph.neighbors.length false,[]⟩ =
      .ok ⟨(List.replicate graph.neighbors.length false).set root true,[root]⟩ := by
    rw [markAndEnqueueByte,Flood.enqueue,getElem?_replicate_of_lt hlt]
    dsimp only
    rw [if_pos ⟨rfl,trivial⟩,nil_append]
  have hinit : Repairing graph rMax root
      (graph,⟨(List.replicate graph.neighbors.length false).set root true,[root]⟩) := by
    refine ⟨h,.refl graph,?_,hset,?_,?_,?_⟩
    · dsimp only
      rw [length_set,length_replicate]
    · intro node hnode
      rw [mem_singleton.mp hnode]
      exact marked_iff.mpr hset
    · intro a ha hnot
      exact absurd (mem_singleton.mpr (hmarked a ha)) hnot
    · intro a ha
      rw [hmarked a ha]
  have hfuel : (unseen ((List.replicate graph.neighbors.length false).set root true)).card <
      graph.neighbors.length+1 := by
    have hcard:=card_unseen_le ((List.replicate graph.neighbors.length false).set root true)
    rw [length_set,length_replicate] at hcard
    exact Nat.lt_succ_of_le hcard
  obtain ⟨last,hloop,hreached⟩ := @tryLoop_spec _ _ .unfinished _
    (Repairing graph rMax root) (fun last => AllReached graph rMax root last.1)
    (fun state => (unseen state.2.marks).card)
    (fun _ hstate => repairStep_spec hpositive hroot hstate) _ _ hinit hfuel
  have howners : ∀ owner ∈ List.range graph.neighbors.length,owner < last.1.neighbors.length := by
    rw [hreached.hubs.count]
    exact fun owner howner => mem_range.mp howner
  obtain ⟨repaired,hdense,hdensified⟩ := densifyAll_spec hreached.valid howners
  have hhubs : HubsAdded graph repaired := by
    refine ⟨hdensified.degree.trans hreached.hubs.degree,
      hdensified.count.trans hreached.hubs.count,?_⟩
    rw [hdensified.flags]
    exact hreached.hubs.flags
  refine ⟨repaired,?_,hdensified.valid,hhubs,root,?_,?_⟩
  · unfold connectivityRepair
    rw [failIf_neg _ (not_not.mpr hdegree),ok_bind,nodeCount_eq h,ok_bind,hroot,ok_bind,
      hfirst,ok_bind,hloop,ok_bind]
    exact hdense
  · exact hhubs.firstEntry_eq.trans hroot
  · intro node hnode
    have hway:=hreached.reaches node (by rw [hreached.hubs.count]; exact hnode)
    exact Relation.ReflTransGen.mono (fun a b hedge => hdensified.keeps a hedge) root node hway

/-- The repair of a graph of a profile that has an entry, and each stitch of a full component. -/
theorem connectivityRepair_connects (graph : OwnedGraph) (rMax : U8) (hpositive : 0 < rMax.toNat)
    (h : graph.Valid rMax) (hdegree : graph.maxDegree = rMax)
    (hentry : ∃ flags ∈ graph.flags,flags &&& entryFlag ≠ 0) :
    (∃ repaired,connectivityRepair graph rMax = .ok repaired ∧ Repaired graph rMax repaired) ∧
      ∀ marks root target,firstEntry graph = .ok root → Drained graph marks root →
        marks[target]? = some false →
        (∀ a,marks[a]? = some true → (graph.adjacent a).length = rMax.toNat) →
        ∃ stitched,stitchComponent graph marks target rMax = .ok stitched ∧
          ∀ a,marks[a]? = some true → stitched.Reaches root a := by
  refine ⟨connectivityRepair_spec hpositive h hdegree hentry,?_⟩
  intro marks root target hroot hdrained htarget _
  obtain ⟨stitched,hstitched,hspec⟩ := stitchComponent_spec h hdrained hroot hpositive htarget
  exact ⟨stitched,hstitched,hspec.keeps⟩

end Graph

def fullPair : OwnedGraph := ⟨1,[entryFlag,0,0],[[1],[0],[0]]⟩

theorem fullPair_valid : fullPair.Valid 1 where
  flagged := rfl
  counted := by decide
  rows := by
    intro owner row h
    match owner,h with
    | 0,h | 1,h | 2,h =>
      obtain rfl := Option.some.inj h
      exact ⟨by decide,by decide,by decide,by decide⟩

theorem fullPair_connects :
    (∃ repaired,connectivityRepair fullPair 1 = .ok repaired ∧ Repaired fullPair 1 repaired) ∧
      ∀ marks root target,firstEntry fullPair = .ok root → Drained fullPair marks root →
        marks[target]? = some false →
        (∀ a,marks[a]? = some true → (fullPair.adjacent a).length = (1 : U8).toNat) →
        ∃ stitched,stitchComponent fullPair marks target 1 = .ok stitched ∧
          ∀ a,marks[a]? = some true → stitched.Reaches root a :=
  connectivityRepair_connects fullPair 1 (by decide) fullPair_valid rfl
    ⟨entryFlag,by decide,by decide⟩

/-- The edge back to the entry gives way. -/
example : connectivityRepair fullPair 1 =
    .ok ⟨1,[entryFlag,hubFlag,0],[[1],[2],[1]]⟩ := by
  decide +kernel

end Zeppelin.VectorGraph
