import Mathlib.Data.List.Flatten
import Zeppelin.GraphStore.InventorySpec

namespace Zeppelin.GraphStore.Inventory
open Collections GraphWal PropertyGraph List

section Insert
variable {rows : SortedMap ℕ InventoryChange} {changes : List InventoryChange} {key : ℕ}

theorem insertChanges_of_ne (h : ∀ change ∈ changes,changeKey change ≠ key) :
    (insertChanges rows changes).entries.lookup key = rows.entries.lookup key := by
  induction changes generalizing rows with
  | nil => rfl
  | cons change changes ih =>
    have hrest:=@ih (rows.insert (changeKey change) change).2
      fun c hc => h c (mem_cons_of_mem _ hc)
    have hne : key ≠ changeKey change := (h change (mem_cons_self ..)).symm
    refine hrest.trans ((lookup_insertEntry key rows.sorted).trans ?_)
    rw [if_neg hne]

theorem insertChanges_of_mem (hdistinct : changes.Pairwise fun x y => changeKey x ≠ changeKey y)
    {change : InventoryChange} (h : change ∈ changes) :
    (insertChanges rows changes).entries.lookup (changeKey change) = some change := by
  induction changes generalizing rows with
  | nil => cases h
  | cons first changes ih =>
    obtain ⟨hfirst,hrest⟩ := pairwise_cons.mp hdistinct
    rcases mem_cons.mp h with rfl | hmem
    · refine (insertChanges_of_ne fun c hc => (hfirst c hc).symm).trans
        ((lookup_insertEntry _ rows.sorted).trans ?_)
      rw [if_pos rfl]
    · exact ih hrest hmem

theorem mem_insertChanges {entry : ℕ × InventoryChange}
    (h : entry ∈ (insertChanges rows changes).entries) :
    (entry.2 ∈ changes ∧ entry.1 = changeKey entry.2) ∨ entry ∈ rows.entries := by
  induction changes generalizing rows with
  | nil => exact .inr h
  | cons change changes ih =>
    rcases ih h with ⟨hmem,hkey⟩ | hold
    · exact .inl ⟨mem_cons_of_mem _ hmem,hkey⟩
    · rcases SortedMap.mem_insert hold with hentry | hmem
      · rw [hentry]
        exact .inl ⟨mem_cons_self ..,rfl⟩
      · exact .inr hmem

end Insert

section Generations
variable {source : BlockSource} {store : StoreInstanceId} {generation later : GraphGeneration}

theorem generation_lt {x y z : GraphGeneration} (hxy : x ≤ y) (hyz : y < z) : x < z :=
  Nat.lt_of_le_of_lt hxy hyz

theorem validate_mono (hle : generation ≤ later) {object : ArtifactDescriptor}
    (h : validate object store generation = .ok ()) : validate object store later = .ok () := by
  rw [validate,failIf_eq_ok] at h ⊢
  refine mt (Or.imp_right (Or.imp_left fun hlt => ?_)) h
  exact generation_lt hle hlt

variable {count : ℕ} {bytes : Bytes} {required : RequiredRef}

theorem readDescriptors_mono (hle : generation ≤ later)
    {rows : List ArtifactDescriptor} (h : readDescriptors store generation count bytes = .ok rows) :
    readDescriptors store later count bytes = .ok rows := by
  induction count generalizing bytes rows with
  | zero => exact h
  | succ count ih =>
    rw [readDescriptors] at h ⊢
    obtain ⟨descriptor,hdescriptor,h⟩ := bind_eq_ok h
    obtain ⟨_,hvalid,h⟩ := bind_eq_ok h
    obtain ⟨rest,hrest,h⟩ := bind_eq_ok h
    rw [hdescriptor,ok_bind,validate_mono hle hvalid,ok_bind,ih hrest,ok_bind]
    exact h

theorem readDescriptors_valid {rows : List ArtifactDescriptor}
    (h : readDescriptors store generation count bytes = .ok rows) :
    ∀ object ∈ rows,validate object store generation = .ok () := by
  induction count generalizing bytes rows with
  | zero =>
    cases h
    exact nofun
  | succ count ih =>
    rw [readDescriptors] at h
    obtain ⟨descriptor,-,h⟩ := bind_eq_ok h
    obtain ⟨_,hvalid,h⟩ := bind_eq_ok h
    obtain ⟨rest,hrest,h⟩ := bind_eq_ok h
    cases h
    exact forall_mem_cons.mpr ⟨hvalid,ih hrest⟩

theorem preparedManifest_mono (hle : generation ≤ later)
    {manifest : Bytes × ℕ} (h : preparedManifest source required store generation = .ok manifest) :
    preparedManifest source required store later = .ok manifest := by
  rw [preparedManifest] at h ⊢
  obtain ⟨_,hrequired,h⟩ := bind_eq_ok h
  rw [failIf_eq_ok] at hrequired
  rw [failIf_neg _ (mt (Or.imp_right (Or.imp_left fun hlt => generation_lt hle hlt)) hrequired)]
  exact h

theorem manifestRows_mono (hle : generation ≤ later)
    {rows : List ArtifactDescriptor} (h : manifestRows source required store generation = .ok rows) :
    manifestRows source required store later = .ok rows := by
  rw [manifestRows] at h ⊢
  obtain ⟨manifest,hmanifest,h⟩ := bind_eq_ok h
  rw [preparedManifest_mono hle hmanifest,ok_bind]
  exact readDescriptors_mono hle h

end Generations

def commitOf (fold : PreparedInventoryFold) (generation : GraphGeneration) (a : Admitted) :
    Admitted :=
  ⟨a.manifests.drop fold.retired,
    ⟨a.roots.store,generation,insertChanges a.roots.rows fold.changes⟩⟩

section Commit
variable {source : BlockSource} {a : Admitted} (h : Agreeing source a) {limit : ℕ}
  {run : List RequiredRef} {fold : PreparedInventoryFold}
  (hfold : Prepared source a limit run fold) {generation : GraphGeneration}

theorem changes_listed (hfold : Prepared source a limit run fold) {change : InventoryChange}
    (hchange : change ∈ fold.changes) : change.object ∈ listed source a := by
  obtain ⟨object,hobject,rfl,-⟩ := hfold.selected.fresh change hchange
  exact hobject

include h

theorem listed_valid {object : ArtifactDescriptor} (hobject : object ∈ listed source a) :
    validate object a.roots.store a.roots.generation = .ok () := by
  obtain ⟨required,hrequired,hmem⟩ := mem_flatMap.mp hobject
  obtain ⟨rows,hrows⟩ := h.reads required hrequired
  rw [manifestDescriptors_eq hrows] at hmem
  rw [manifestRows] at hrows
  obtain ⟨manifest,-,hread⟩ := bind_eq_ok hrows
  rcases mem_append.mp hmem with hrow | howner
  · exact readDescriptors_valid hread object hrow
  · rw [mem_singleton.mp howner]
    exact h.owner required hrequired

theorem manifestDescriptors_later (hlater : a.roots.generation ≤ generation)
    {rows : SortedMap ℕ InventoryChange} {required : RequiredRef}
    (hrequired : required ∈ a.manifests) :
    manifestDescriptors source ⟨a.roots.store,generation,rows⟩ required =
      manifestDescriptors source a.roots required := by
  obtain ⟨descriptors,hrows⟩ := h.reads required hrequired
  rw [manifestDescriptors_eq hrows,manifestDescriptors]
  dsimp only
  rw [manifestRows_mono hlater hrows]
  rfl

include hfold

theorem rooted_of_covered {object : ArtifactDescriptor} (hobject : object ∈ known source a)
    (hcovered : CoveredBy a.roots fold.changes object) :
    Rooted (commitOf fold generation a).roots object := by
  by_cases hkey : ∃ change ∈ fold.changes,changeKey change = artifactKey object
  · obtain ⟨change,hchange,hkey⟩ := hkey
    have hsame : change.object = object := h.artifact _ (mem_append_left _
      (changes_listed hfold hchange)) _ hobject (artifactKey_inj.mp hkey)
    obtain ⟨other,-,hretained,-⟩ := hfold.selected.fresh change hchange
    refine ⟨change,?_,hsame,?_⟩
    · have hfound:=@insertChanges_of_mem a.roots.rows _ hfold.selected.distinct _ hchange
      rwa [hkey] at hfound
    · rw [hretained]
      rfl
  · have hnot : ∀ change ∈ fold.changes,changeKey change ≠ artifactKey object :=
      fun change hchange heq => hkey ⟨change,hchange,heq⟩
    rcases hcovered with ⟨change,hfind,hobject,hstate⟩ | hmem
    · exact ⟨change,(insertChanges_of_ne hnot).trans hfind,hobject,hstate⟩
    · exact absurd rfl (hnot _ hmem)

theorem checkChanges_ok (hlater : a.roots.generation ≤ generation) {changes : List InventoryChange}
    (hsub : changes ⊆ fold.changes)
    (hsorted : changes.Pairwise fun x y => changeKey x < changeKey y) {previous : Option ℕ}
    (hprevious : ∀ id ∈ previous,∀ change ∈ changes,id < changeKey change) :
    checkChanges a.roots generation previous changes = .ok () := by
  induction changes generalizing previous with
  | nil => rfl
  | cons change changes ih =>
    obtain ⟨hfirst,hrest⟩ := pairwise_cons.mp hsorted
    have hlisted:=changes_listed hfold (hsub (mem_cons_self ..))
    have hvalid:=validate_mono hlater (listed_valid h hlisted)
    have hordered : ¬ (previous.any fun id => changeKey change ≤ id) = true := by
      intro hany
      obtain ⟨id,hid,hle⟩ := Option.any_eq_true .. |>.mp hany
      have hlt:=hprevious id hid change (mem_cons_self ..)
      exact absurd (of_decide_eq_true hle) (Nat.not_le_of_lt hlt)
    have hsame : ¬ ((a.roots.find (changeKey change)).any
        fun actual => actual.object ≠ change.object) = true := by
      intro hany
      obtain ⟨actual,hactual,hne⟩ := Option.any_eq_true .. |>.mp hany
      exact of_decide_eq_true hne (find_object h (mem_append_left _ hlisted) hactual)
    rw [checkChanges,hvalid,ok_bind,failIf_neg _ hordered,ok_bind,failIf_neg _ hsame,ok_bind]
    apply ih (fun c hc => hsub (mem_cons_of_mem _ hc)) hrest
    intro id hid c hc
    rw [← Option.mem_some.mp hid]
    exact hfirst c hc

theorem applyInventory_ok (hlater : a.roots.generation ≤ generation)
    (hsorted : fold.changes.Pairwise fun x y => changeKey x < changeKey y) :
    applyInventory a.roots fold.changes generation = .ok (commitOf fold generation a).roots := by
  rw [applyInventory,failIf_neg _ (BitVec.not_lt.mpr hlater),ok_bind,
    checkChanges_ok h hfold hlater (List.Subset.refl _) hsorted
      fun id hid => absurd hid (Option.not_mem_none id)]
  rfl

omit h in
theorem checkSelected_ok {changes : List InventoryChange} (hsub : changes ⊆ fold.changes) :
    checkSelected (commitOf fold generation a).roots fold.segments.flatten changes = .ok () := by
  induction changes with
  | nil => rfl
  | cons change changes ih =>
    have hchange:=hsub (mem_cons_self ..)
    have horigin:=(mem_flatten_segments hfold.segments).mpr (hfold.origin change hchange)
    have hfound : (commitOf fold generation a).roots.find (artifactKey change.object) =
        some change := insertChanges_of_mem hfold.selected.distinct hchange
    obtain ⟨object,-,hretained,-⟩ := hfold.selected.fresh change hchange
    have hauthorized : (fold.segments.flatten.any fun expected =>
        expected.object = change.object) = true :=
      any_eq_true.mpr ⟨change,horigin,by simp⟩
    rw [checkSelected,failIf_neg _ (not_not.mpr hauthorized),ok_bind,lookupInventory,hfound]
    dsimp only
    rw [if_neg (not_not.mpr rfl),ok_bind]
    dsimp only
    rw [failIf_neg _ (by rw [hretained]; simp [retained]),ok_bind]
    exact ih fun c hc => hsub (mem_cons_of_mem _ hc)

theorem checkRetired_ok {rows : List InventoryChange}
    (hrows : ∀ row ∈ rows,row.object ∈ known source a ∧
      CoveredBy a.roots fold.changes row.object) :
    checkRetired (commitOf fold generation a).roots rows = .ok () := by
  induction rows with
  | nil => rfl
  | cons row rows ih =>
    obtain ⟨hknown,hcovered⟩ := hrows row (mem_cons_self ..)
    obtain ⟨change,hfind,hobject,hstate⟩ :=
      @rooted_of_covered _ _ h _ _ _ hfold generation _ hknown hcovered
    rw [checkRetired,lookupInventory,hfind]
    dsimp only
    rw [if_neg (not_not.mpr hobject),ok_bind]
    dsimp only
    rw [failIf_neg _ (not_not.mpr hstate),ok_bind]
    exact ih fun r hr => hrows r (mem_cons_of_mem _ hr)

theorem validateCandidate_ok (hlater : a.roots.generation < generation)
    (hrun : run <+: a.manifests) :
    fold.validateCandidate a.roots (commitOf fold generation a).roots generation = .ok () := by
  have hretired : ∀ row ∈ (fold.segments.take fold.retired).flatten,
      row.object ∈ known source a ∧ CoveredBy a.roots fold.changes row.object := by
    intro row hrow
    obtain ⟨required,hrequired,object,hobject,rfl⟩ :=
      (mem_flatten_segments (forall₂_take _ hfold.segments)).mp hrow
    have hmanifest:=hrun.subset (hfold.leading.subset (mem_of_mem_take hrequired))
    exact ⟨known_of_manifest hmanifest hobject,hfold.covered required hrequired object hobject⟩
  rw [PreparedInventoryFold.validateCandidate,failIf_neg _ ?_,ok_bind,
    checkSelected_ok hfold (List.Subset.refl _),ok_bind,checkRetired_ok h hfold hretired]
  intro hrefused
  rcases hrefused with hle | hne | hne
  · exact absurd hlater (BitVec.not_lt.mpr hle)
  · exact hne rfl
  · exact hne rfl

omit hfold in
theorem listed_commit (hlater : a.roots.generation ≤ generation) :
    listed source (commitOf fold generation a) =
      (a.manifests.drop fold.retired).flatMap (manifestDescriptors source a.roots) := by
  rw [listed]
  refine flatMap_congr fun required hrequired => ?_
  exact manifestDescriptors_later h hlater (mem_of_mem_drop hrequired)

theorem known_commit (hlater : a.roots.generation ≤ generation) {object : ArtifactDescriptor}
    (hobject : object ∈ known source (commitOf fold generation a)) : object ∈ known source a := by
  rcases mem_append.mp hobject with hlist | hroot
  · rw [listed_commit h hlater] at hlist
    obtain ⟨required,hrequired,hmem⟩ := mem_flatMap.mp hlist
    exact known_of_manifest (mem_of_mem_drop hrequired) hmem
  · obtain ⟨entry,hentry,rfl⟩ := mem_map.mp hroot
    rcases mem_insertChanges hentry with ⟨hchange,-⟩ | hold
    · exact mem_append_left _ (changes_listed hfold hchange)
    · exact known_of_root hold

theorem Agreeing.commit (hlater : a.roots.generation ≤ generation) :
    Agreeing source (commitOf fold generation a) := by
  have hdescriptors : ∀ required ∈ (commitOf fold generation a).manifests,
      manifestDescriptors source (commitOf fold generation a).roots required =
        manifestDescriptors source a.roots required :=
    fun required hr => manifestDescriptors_later h hlater (mem_of_mem_drop hr)
  refine ⟨?_,?_,?_,?_,?_,?_⟩
  · intro required hr
    obtain ⟨rows,hrows⟩ := h.reads required (mem_of_mem_drop hr)
    exact ⟨rows,manifestRows_mono hlater hrows⟩
  · exact fun required hr => validate_mono hlater (h.owner required (mem_of_mem_drop hr))
  · intro required hr
    rw [hdescriptors required hr]
    exact h.distinct required (mem_of_mem_drop hr)
  · intro entry hentry
    rcases mem_insertChanges hentry with ⟨-,hkey⟩ | hold
    · exact hkey
    · exact h.keyed entry hold
  · exact fun x hx y hy =>
      h.artifact x (known_commit h hfold hlater hx) y (known_commit h hfold hlater hy)
  · exact fun x hx y hy =>
      h.serial x (known_commit h hfold hlater hx) y (known_commit h hfold hlater hy)

end Commit

instance (root : GraphRoots) (object : ArtifactDescriptor) : Decidable (Rooted root object) :=
  decidable_of_iff ((root.find (artifactKey object)).any fun change =>
      change.object = object ∧ coveredState change.state = true) <| by
    simp [Rooted,Option.any_eq_true]

def pending (source : BlockSource) (a : Admitted) : ℕ :=
  a.manifests.length+((listed source a).filter fun object => ¬ Rooted a.roots object).length

/-- A row of the first inventory is still there, with its object. -/
def KeepsRows (first last : GraphRoots) : Prop :=
  ∀ key change,first.find key = some change →
    ∃ kept,last.find key = some kept ∧ kept.object = change.object

structure Commits (source : BlockSource) (a next : Admitted) : Prop where
  agreeing : Agreeing source next
  rooted : ∀ object,Rooted a.roots object → Rooted next.roots object
  listed : ∀ object ∈ listed source a,object ∈ listed source next ∨ Rooted next.roots object
  rows : KeepsRows a.roots next.roots
  manifests : next.manifests <:+ a.manifests
  decreases : a.manifests ≠ [] → pending source next < pending source a

theorem Prepared.progress {source : BlockSource} {a : Admitted} {limit : ℕ}
    {run : List RequiredRef} {fold : PreparedInventoryFold} (hlimit : 0 < limit)
    (hfold : Prepared source a limit run fold) (hrun : run ≠ []) :
    0 < fold.retired ∨ fold.changes ≠ [] := by
  rcases hfold.stops with ⟨hall,hselected⟩ | ⟨required,-,hfull,-⟩
  · rw [hall,hselected]
    exact .inl (length_pos_iff.mpr hrun)
  · exact .inr (ne_nil_of_length_pos (hfull ▸ hlimit))

theorem Rooted.known {source : BlockSource} {a : Admitted} {object : ArtifactDescriptor}
    (h : Rooted a.roots object) : object ∈ known source a := by
  obtain ⟨change,hfind,rfl,-⟩ := h
  exact known_of_root (mem_of_lookup_eq hfind)

section Runs
variable {source : BlockSource} {a : Admitted} (h : Agreeing source a) {limit : ℕ}
  {run : List RequiredRef} {fold : PreparedInventoryFold}
  (hfold : Prepared source a limit run fold) {generation : GraphGeneration}
include h hfold

theorem keepsRows_commit : KeepsRows a.roots (commitOf fold generation a).roots := by
  intro key change hfind
  by_cases hkey : ∃ c ∈ fold.changes,changeKey c = key
  · obtain ⟨c,hc,rfl⟩ := hkey
    have hknown : c.object ∈ known source a :=
      mem_append_left _ (changes_listed hfold hc)
    exact ⟨c,insertChanges_of_mem hfold.selected.distinct hc,(find_object h hknown hfind).symm⟩
  · have hnot : ∀ c ∈ fold.changes,changeKey c ≠ key := fun c hc heq => hkey ⟨c,hc,heq⟩
    exact ⟨change,(insertChanges_of_ne hnot).trans hfind,rfl⟩

theorem rooted_commit {object : ArtifactDescriptor} (hrooted : Rooted a.roots object) :
    Rooted (commitOf fold generation a).roots object :=
  rooted_of_covered h hfold hrooted.known (.inl hrooted)

theorem listed_after (hrun : run <+: a.manifests) (hlater : a.roots.generation ≤ generation)
    {object : ArtifactDescriptor} (hobject : object ∈ listed source a) :
    object ∈ listed source (commitOf fold generation a) ∨
      Rooted (commitOf fold generation a).roots object := by
  obtain ⟨required,hrequired,hmem⟩ := mem_flatMap.mp hobject
  rw [← take_append_drop fold.retired a.manifests] at hrequired
  rcases mem_append.mp hrequired with htaken | hleft
  · obtain ⟨rest,hrest⟩ := hfold.leading.trans hrun
    rw [← hrest,take_append_of_le_length hfold.retired] at htaken
    exact .inr (rooted_of_covered h hfold (mem_append_left _ hobject)
      (hfold.covered required htaken object hmem))
  · rw [listed_commit h hlater]
    exact .inl (mem_flatMap.mpr ⟨required,hleft,hmem⟩)

theorem pending_commit (hlater : a.roots.generation ≤ generation) (hmanifests : a.manifests ≠ [])
    (hprogress : 0 < fold.retired ∨ fold.changes ≠ []) :
    pending source (commitOf fold generation a) < pending source a := by
  let still (root : GraphRoots) (object : ArtifactDescriptor) : Bool := ¬ Rooted root object
  have hfewer : (listed source (commitOf fold generation a)).Sublist (listed source a) := by
    rw [listed_commit h hlater]
    exact (drop_sublist ..).flatMap _
  have htwice : (listed source a).filter (still (commitOf fold generation a).roots) =
      ((listed source a).filter (still a.roots)).filter
        (still (commitOf fold generation a).roots) := by
    rw [filter_filter]
    refine filter_congr fun object _ => ?_
    have hkeep : Rooted a.roots object → Rooted (commitOf fold generation a).roots object :=
      rooted_commit h hfold
    by_cases hrooted : Rooted a.roots object
    · simp [still,hrooted,hkeep hrooted]
    · simp [still,hrooted]
  have hle:=(hfewer.filter (still (commitOf fold generation a).roots)).length_le
  rw [htwice] at hle
  have hless:=length_filter_le (still (commitOf fold generation a).roots)
    ((listed source a).filter (still a.roots))
  have hlength : (commitOf fold generation a).manifests.length =
      a.manifests.length-fold.retired := length_drop ..
  have hpositive:=length_pos_iff.mpr hmanifests
  show _+(List.filter (still _) _).length < _+(List.filter (still _) _).length
  rcases hprogress with hretired | hchanges
  · omega
  · obtain ⟨change,hchange⟩ := exists_mem_of_ne_nil _ hchanges
    obtain ⟨object,hobject,rfl,hfresh⟩ := hfold.selected.fresh change hchange
    have hnow : Rooted (commitOf fold generation a).roots object :=
      rooted_of_covered h hfold (mem_append_left _ hobject) (.inr hchange)
    have hstrict : (((listed source a).filter (still a.roots)).filter
        (still (commitOf fold generation a).roots)).length <
          ((listed source a).filter (still a.roots)).length := by
      rw [length_filter_lt_length_iff_exists]
      exact ⟨object,mem_filter.mpr ⟨hobject,by simp [still,hfresh]⟩,by simp [still,hnow]⟩
    omega

omit hfold

theorem foldCommit_ok (hlimit : 0 < limit) (hmax : limit ≤ inventoryFoldAdditionLimit)
    (hlater : a.roots.generation < generation) :
    ∃ next,foldCommit source limit generation a = .ok next ∧
      next.roots.generation = generation ∧ Commits source a next := by
  obtain ⟨fold,hprepare,⟨run,hrun,hne,hfold⟩,hsorted⟩ := prepare_spec h hlimit hmax
  have hle : a.roots.generation ≤ generation := Nat.le_of_lt hlater
  refine ⟨commitOf fold generation a,?_,rfl,h.commit hfold hle,
    fun object => rooted_commit h hfold,fun object => listed_after h hfold hrun hle,
    keepsRows_commit h hfold,drop_suffix ..,fun hmanifests => ?_⟩
  · rw [foldCommit,hprepare,ok_bind,applyInventory_ok h hfold hle hsorted,ok_bind,
      validateCandidate_ok h hfold hlater hrun,ok_bind]
    rfl
  · exact pending_commit h hfold hle hmanifests (hfold.progress hlimit (hne hmanifests))

theorem foldCommits_retire (hlimit : 0 < limit) (hmax : limit ≤ inventoryFoldAdditionLimit)
    {generations : List GraphGeneration}
    (hascending : (a.roots.generation::generations).Pairwise fun x y => x < y)
    (henough : pending source a ≤ generations.length) :
    ∃ last,foldCommits source limit generations a = .ok last ∧ last.manifests = [] ∧
      (∀ object,object ∈ listed source a ∨ Rooted a.roots object → Rooted last.roots object) ∧
      KeepsRows a.roots last.roots := by
  induction generations generalizing a with
  | nil =>
    have hzero : pending source a = 0 := Nat.le_zero.mp henough
    have hmanifests : a.manifests = [] := length_eq_zero_iff.mp (by rw [pending] at hzero; omega)
    refine ⟨a,rfl,hmanifests,fun object hobject => ?_,fun key change hfind => ⟨change,hfind,rfl⟩⟩
    rcases hobject with hlisted | hrooted
    · rw [listed,hmanifests] at hlisted
      cases hlisted
    · exact hrooted
  | cons generation generations ih =>
    obtain ⟨hfirst,hrest⟩ := pairwise_cons.mp hascending
    obtain ⟨next,hnext,rfl,hcommits⟩ :=
      foldCommit_ok h hlimit hmax (hfirst generation (mem_cons_self ..))
    have hpending : pending source next ≤ generations.length := by
      by_cases hmanifests : a.manifests = []
      · have hempty : next.manifests = [] :=
          suffix_nil.mp (hmanifests ▸ hcommits.manifests)
        rw [pending,listed,hempty]
        exact Nat.zero_le _
      · have hless:=hcommits.decreases hmanifests
        rw [length_cons] at henough
        omega
    obtain ⟨last,hlast,hmanifests,hrooted,hrows⟩ := ih hcommits.agreeing hrest hpending
    refine ⟨last,?_,hmanifests,?_,?_⟩
    · rw [foldCommits,hnext,ok_bind,hlast]
    · intro object hobject
      apply hrooted
      rcases hobject with hlisted | hold
      · exact hcommits.listed object hlisted
      · exact .inr (hcommits.rooted object hold)
    · intro key change hfind
      obtain ⟨kept,hkept,hobject⟩ := hcommits.rows key change hfind
      obtain ⟨final,hfinal,hsame⟩ := hrows key kept hkept
      exact ⟨final,hfinal,hsame.trans hobject⟩

structure Conserves (source : BlockSource) (a : Admitted) (limit : ℕ)
    (fold : PreparedInventoryFold) : Prop where
  budget : fold.changes.length ≤ limit
  examined : fold.selected <+: a.manifests
  origin : ∀ change ∈ fold.changes,∃ required ∈ fold.selected,
    ∃ object ∈ manifestDescriptors source a.roots required,change = retained object
  retired : fold.retired ≤ fold.selected.length
  covered : ∀ required ∈ fold.selected.take fold.retired,
    CoveredManifest source a.roots fold.changes required
  longest : ∀ count ≤ fold.selected.length,(∀ required ∈ fold.selected.take count,
    CoveredManifest source a.roots fold.changes required) → count ≤ fold.retired
  progress : a.manifests ≠ [] → 0 < fold.retired ∨ fold.changes ≠ []

omit h in
theorem Prepared.longest (hfold : Prepared source a limit run fold) {count : ℕ}
    (hcount : count ≤ fold.selected.length) (hcovered : ∀ required ∈ fold.selected.take count,
      CoveredManifest source a.roots fold.changes required) : count ≤ fold.retired := by
  rcases hfold.stops with ⟨hall,-⟩ | ⟨required,hget,-,hnot⟩
  · rwa [hall]
  · by_contra hmore
    apply hnot
    apply hcovered
    apply mem_of_getElem?
    rw [getElem?_take_of_lt (Nat.lt_of_not_le hmore)]
    exact hget

/-- Over manifests that agree with the inventory a fold selects within the budget, retires the
longest covered run and makes progress, and repeated commits root every descriptor. -/
theorem inventory_folds_retire (hlimit : 0 < limit)
    (hmax : limit ≤ inventoryFoldAdditionLimit) :
    (∃ fold,prepareInventoryFold source a.manifests a.roots limit = .ok fold ∧
      Conserves source a limit fold) ∧
    ∀ generations : List GraphGeneration,
      (a.roots.generation::generations).Pairwise (fun x y => x < y) →
      pending source a ≤ generations.length →
      ∃ last,foldCommits source limit generations a = .ok last ∧ last.manifests = [] ∧
        (∀ object ∈ listed source a,Rooted last.roots object) ∧
        KeepsRows a.roots last.roots := by
  constructor
  · obtain ⟨fold,hprepare,⟨run,hrun,hne,hfold⟩,-⟩ := prepare_spec h hlimit hmax
    exact ⟨fold,hprepare,hfold.selected.length,hfold.leading.trans hrun,hfold.origin,
      hfold.retired,hfold.covered,fun _ => hfold.longest,
      fun hmanifests => hfold.progress hlimit (hne hmanifests)⟩
  · intro generations hascending henough
    obtain ⟨last,hlast,hmanifests,hrooted,hrows⟩ :=
      foldCommits_retire h hlimit hmax hascending henough
    exact ⟨last,hlast,hmanifests,fun object hobject => hrooted object (.inl hobject),hrows⟩

end Runs

def sampleObject (artifact : U128) (serial : U64) (hne : artifact ≠ 0) : ArtifactDescriptor where
  store := ⟨7,seven_nonzero⟩
  artifact := ⟨artifact,hne⟩
  generation := 1
  serial
  bytes := 104
  family := 17
  version := 1
  checksum := 0

def descriptorBytes (object : ArtifactDescriptor) : Bytes :=
  toLe 16 object.store.get++toLe 16 object.artifact.get++toLe 8 object.generation++
    toLe 8 object.serial++toLe 4 object.bytes++toLe 2 object.family++
      toLe 2 object.version++toLe 8 object.checksum

def sampleManifest (object : ArtifactDescriptor) : RequiredRef :=
  ⟨object,⟨object.artifact,0,104,.commitParticipant,1⟩⟩

def sampleBlock (object : ArtifactDescriptor) (rows : List ArtifactDescriptor) : Block where
  store := object.store
  artifact := object.artifact
  generation := object.generation
  creationSerial := object.serial
  reference := (sampleManifest object).block
  fileLength := 104
  fileChecksum := 0
  payload := utf8Bytes "ZGCP"++[2,0,1,0]++toLe 4 (BitVec.ofNat 32 rows.length)++
    [0,0,0,0]++rows.flatMap descriptorBytes

def firstOwner : ArtifactDescriptor := sampleObject 10 3 (by decide)
def secondOwner : ArtifactDescriptor := sampleObject 20 4 (by decide)
def commonRow : ArtifactDescriptor := sampleObject 1 1 one_nonzero
def secondRow : ArtifactDescriptor := sampleObject 2 2 two_nonzero

def sampleSource : BlockSource := fun reference =>
  if reference = (sampleManifest firstOwner).block then .ok (sampleBlock firstOwner [commonRow])
  else if reference = (sampleManifest secondOwner).block then
    .ok (sampleBlock secondOwner [secondRow,commonRow])
  else .error (.invalid "absent block")

def sampleAdmitted : Admitted where
  manifests := [sampleManifest firstOwner,sampleManifest secondOwner]
  roots := ⟨⟨7,seven_nonzero⟩,1,(SortedMap.empty.insert 1 ⟨commonRow,.prepared⟩).2⟩

theorem sampleAdmitted_agreeing : Agreeing sampleSource sampleAdmitted := by
  refine ⟨?_,by decide +kernel,by decide +kernel,by decide +kernel,by decide +kernel,
    by decide +kernel⟩
  intro required hrequired
  rcases mem_pair.mp hrequired with rfl | rfl
  · exact ⟨[commonRow],by decide +kernel⟩
  · exact ⟨[secondRow,commonRow],by decide +kernel⟩

theorem inventory_folds_retire_sample :
    ∃ last,foldCommits sampleSource 1 [2,3,4,5,6,7,8] sampleAdmitted = .ok last ∧
      last.manifests = [] ∧
      (∀ object ∈ [firstOwner,secondOwner,commonRow,secondRow],Rooted last.roots object) := by
  obtain ⟨last,hlast,hmanifests,hrooted,-⟩ :=
    (@inventory_folds_retire _ _ sampleAdmitted_agreeing 1 (by decide) (by decide)).2
      [2,3,4,5,6,7,8] (by decide) (by decide +kernel)
  refine ⟨last,hlast,hmanifests,fun object hobject => hrooted object ?_⟩
  revert object
  decide +kernel

end Zeppelin.GraphStore.Inventory
