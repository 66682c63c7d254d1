import Zeppelin.GraphStore.Inventory

namespace Zeppelin.GraphStore.Inventory
open Collections GraphWal PropertyGraph List

def manifestDescriptors (source : BlockSource) (roots : GraphRoots) (required : RequiredRef) :
    List ArtifactDescriptor :=
  (manifestRows source required roots.store roots.generation).toOption.getD []++[required.object]

def listed (source : BlockSource) (a : Admitted) : List ArtifactDescriptor :=
  a.manifests.flatMap (manifestDescriptors source a.roots)

def known (source : BlockSource) (a : Admitted) : List ArtifactDescriptor :=
  listed source a++a.roots.rows.entries.map fun entry => entry.2.object

/-- Admitted manifests can be read, and no row contradicts another or the inventory. -/
structure Agreeing (source : BlockSource) (a : Admitted) : Prop where
  reads : ∀ required ∈ a.manifests,∃ rows,
    manifestRows source required a.roots.store a.roots.generation = .ok rows
  owner : ∀ required ∈ a.manifests,
    validate required.object a.roots.store a.roots.generation = .ok ()
  distinct : ∀ required ∈ a.manifests,(manifestDescriptors source a.roots required).Pairwise
    fun x y => x.artifact ≠ y.artifact
  keyed : ∀ entry ∈ a.roots.rows.entries,entry.1 = changeKey entry.2
  artifact : ∀ x ∈ known source a,∀ y ∈ known source a,x.artifact = y.artifact → x = y
  serial : ∀ x ∈ known source a,∀ y ∈ known source a,x.serial = y.serial →
    x.artifact = y.artifact

theorem artifactKey_inj {x y : ArtifactDescriptor} :
    artifactKey x = artifactKey y ↔ x.artifact = y.artifact := by
  constructor
  · intro h
    exact NonzeroId.ext (BitVec.eq_of_toNat_eq h)
  · intro h
    rw [artifactKey,h,artifactKey]

section Agreeing
variable {source : BlockSource} {a : Admitted} (h : Agreeing source a)

theorem manifestDescriptors_eq {required : RequiredRef} {rows : List ArtifactDescriptor}
    (hrows : manifestRows source required a.roots.store a.roots.generation = .ok rows) :
    manifestDescriptors source a.roots required = rows++[required.object] := by
  rw [manifestDescriptors,hrows]
  rfl

theorem known_of_manifest {required : RequiredRef} (hrequired : required ∈ a.manifests)
    {object : ArtifactDescriptor} (hobject : object ∈ manifestDescriptors source a.roots required) :
    object ∈ known source a :=
  mem_append_left _ (mem_flatMap.mpr ⟨required,hrequired,hobject⟩)

theorem known_of_root {entry : ℕ × InventoryChange} (hentry : entry ∈ a.roots.rows.entries) :
    entry.2.object ∈ known source a :=
  mem_append_right _ (mem_map.mpr ⟨entry,hentry,rfl⟩)

include h

theorem find_object {object : ArtifactDescriptor} (hknown : object ∈ known source a)
    {change : InventoryChange} (hfind : a.roots.find (artifactKey object) = some change) :
    change.object = object := by
  have hmem:=mem_of_lookup_eq hfind
  have hkey:=h.keyed _ hmem
  exact h.artifact _ (known_of_root hmem) _ hknown (artifactKey_inj.mp hkey.symm)

theorem lookupInventory_known {object : ArtifactDescriptor} (hknown : object ∈ known source a) :
    lookupInventory a.roots object = .ok (a.roots.find (artifactKey object)) := by
  rw [lookupInventory]
  cases hfind : a.roots.find (artifactKey object) with
  | none => rfl
  | some change =>
    dsimp only
    rw [if_neg (not_not.mpr (find_object h hknown hfind))]

end Agreeing

def Rooted (root : GraphRoots) (object : ArtifactDescriptor) : Prop :=
  ∃ change,root.find (artifactKey object) = some change ∧ change.object = object ∧
    coveredState change.state = true

def CoveredBy (root : GraphRoots) (changes : List InventoryChange)
    (object : ArtifactDescriptor) : Prop :=
  Rooted root object ∨ retained object ∈ changes

theorem CoveredBy.mono {root : GraphRoots} {changes more : List InventoryChange}
    {object : ArtifactDescriptor} (h : CoveredBy root changes object) (hsub : changes ⊆ more) :
    CoveredBy root more object :=
  h.imp_right fun hmem => hsub hmem

def CoveredManifest (source : BlockSource) (root : GraphRoots) (changes : List InventoryChange)
    (required : RequiredRef) : Prop :=
  ∀ object ∈ manifestDescriptors source root required,CoveredBy root changes object

def IsSegment (source : BlockSource) (root : GraphRoots) (required : RequiredRef)
    (segment : List InventoryChange) : Prop :=
  ∀ change,change ∈ segment ↔
    ∃ object ∈ manifestDescriptors source root required,change = retained object

section Segments
variable {source : BlockSource} {a : Admitted} (h : Agreeing source a)
include h

theorem checkSerial_known {serials : List InventoryChange}
    (hserials : ∀ change ∈ serials,change.object ∈ known source a)
    {owner : ArtifactDescriptor} (howner : owner ∈ known source a)
    {entry : ℕ × InventoryChange} (hentry : entry ∈ a.roots.rows.entries) :
    checkSerial serials owner entry.2 = .ok () := by
  have hrooted : entry.2.object ∈ known source a := known_of_root hentry
  refine failIf_neg _ (not_or.mpr ⟨?_,?_⟩)
  · intro hany
    cases hfound : binarySearchBy changeSerial (changeSerial entry.2) serials with
    | none =>
      rw [hfound] at hany
      cases hany
    | some change =>
      rw [hfound,Option.any_some,decide_eq_true_eq] at hany
      obtain ⟨hmem,hserial⟩ := binarySearchBy_some hfound
      exact hany (h.serial _ (hserials change hmem) _ hrooted (BitVec.eq_of_toNat_eq hserial))
  · intro ⟨hserial,hdiffers⟩
    exact hdiffers (h.serial _ hrooted _ howner hserial)

theorem segmentOf_ok {required : RequiredRef} (hrequired : required ∈ a.manifests)
    {rows : List ArtifactDescriptor}
    (hrows : manifestRows source required a.roots.store a.roots.generation = .ok rows) :
    ∃ segment,segmentOf a.roots required.object rows = .ok segment ∧
      IsSegment source a.roots required segment := by
  have hdescriptors:=manifestDescriptors_eq hrows
  have hdistinct:=h.distinct required hrequired
  rw [hdescriptors,pairwise_append] at hdistinct
  obtain ⟨hdistinct,-,howner⟩ := hdistinct
  have hknown : ∀ object ∈ rows,object ∈ known source a := by
    intro object hobject
    exact known_of_manifest hrequired (hdescriptors ▸ mem_append_left _ hobject)
  have hownerKnown : required.object ∈ known source a :=
    known_of_manifest hrequired (hdescriptors ▸ mem_append_right _ (mem_singleton_self _))
  have hobject : ∀ change ∈ rows.map retained,change.object ∈ rows := by
    intro change hchange
    obtain ⟨object,hmem,rfl⟩ := mem_map.mp hchange
    exact hmem
  -- the rows differ in their artifacts, and so in their serials
  have hkeys : (sortBy changeKey (rows.map retained)).Pairwise
      fun x y => changeKey x ≠ changeKey y := by
    apply sortBy_distinct
    rw [pairwise_map]
    exact hdistinct.imp fun hne hkey => hne (artifactKey_inj.mp hkey)
  have hserials : (sortBy changeSerial (sortBy changeKey (rows.map retained))).Pairwise
      fun x y => changeSerial x ≠ changeSerial y := by
    apply sortBy_distinct
    refine hkeys.imp_of_mem fun {x y} hx hy hne hserial => hne ?_
    refine artifactKey_inj.mpr (h.serial _ (hknown _ (hobject x (mem_sortBy.mp hx))) _
      (hknown _ (hobject y (mem_sortBy.mp hy))) ?_)
    exact BitVec.eq_of_toNat_eq hserial
  have hnoOwner : ¬ (binarySearchBy changeKey (artifactKey required.object)
      (sortBy changeKey (rows.map retained))).isSome = true := by
    rw [binarySearchBy_isSome (sortBy_pairwise ..)]
    intro ⟨change,hchange,hkey⟩
    exact howner _ (hobject change (mem_sortBy.mp hchange)) _ (mem_singleton_self _)
      (artifactKey_inj.mp hkey)
  have hnoSerial : ¬ (binarySearchBy changeSerial required.object.serial.toNat
      (sortBy changeSerial (sortBy changeKey (rows.map retained)))).isSome = true := by
    rw [binarySearchBy_isSome (sortBy_pairwise ..)]
    intro ⟨change,hchange,hserial⟩
    have hmem:=hobject change (mem_sortBy.mp (mem_sortBy.mp hchange))
    exact howner _ hmem _ (mem_singleton_self _)
      (h.serial _ (hknown _ hmem) _ hownerKnown (BitVec.eq_of_toNat_eq hserial))
  have hroots : rootSerialsInWindows a.roots
      (sortBy changeSerial (sortBy changeKey (rows.map retained))) required.object
      (a.roots.rows.entries.length+1) 0 = .ok () := by
    apply (rootSerialsInWindows_iff ?_ ?_).mpr
    · intro entry hentry
      refine checkSerial_known h ?_ hownerKnown (mem_filter.mp hentry).1
      intro change hchange
      exact hknown _ (hobject change (mem_sortBy.mp (mem_sortBy.mp hchange)))
    · intro entry hentry
      rw [h.keyed entry hentry]
      exact BitVec.isLt _
    · exact Nat.lt_succ_of_le (length_filter_le ..)
  refine ⟨sortBy changeKey (sortBy changeSerial (sortBy changeKey (rows.map retained)))++
    [retained required.object],?_,?_⟩
  · rw [segmentOf]
    dsimp only
    rw [failIf_neg _ hnoOwner,ok_bind,failIf_neg _ (by rw [adjacentEqual_eq_false hkeys]; simp),
      ok_bind,failIf_neg _ hnoSerial,ok_bind,
      failIf_neg _ (by rw [adjacentEqual_eq_false hserials]; simp),ok_bind,hroots,ok_bind]
    rfl
  · intro change
    rw [hdescriptors]
    simp only [mem_append,mem_sortBy,mem_map,mem_singleton]
    constructor
    · rintro (⟨object,hmem,rfl⟩ | rfl)
      · exact ⟨object,.inl hmem,rfl⟩
      · exact ⟨required.object,.inr rfl,rfl⟩
    · rintro ⟨object,hmem | rfl,rfl⟩
      · exact .inl ⟨object,hmem,rfl⟩
      · exact .inr rfl

end Segments

/-- Selected changes: new descriptors to be retained, each once, within the budget. -/
structure Selected (source : BlockSource) (a : Admitted) (limit : ℕ)
    (changes : List InventoryChange) : Prop where
  length : changes.length ≤ limit
  distinct : changes.Pairwise fun x y => changeKey x ≠ changeKey y
  fresh : ∀ change ∈ changes,∃ object ∈ listed source a,change = retained object ∧
    ¬ Rooted a.roots object

section Select
variable {source : BlockSource} {a : Admitted} (h : Agreeing source a) {limit : ℕ}
  {changes : List InventoryChange} {complete : Bool}
include h

theorem selectRow_spec (hselected : Selected source a limit changes)
    {object : ArtifactDescriptor} (hobject : object ∈ listed source a) :
    (CoveredBy a.roots changes object ∧
        selectRow a.roots limit (changes,complete) (retained object) = .ok (changes,complete)) ∨
      (¬ CoveredBy a.roots changes object ∧
        (∀ change ∈ changes,changeKey change ≠ artifactKey object) ∧
        selectRow a.roots limit (changes,complete) (retained object) =
          .ok (select limit (retained object) (changes,complete))) := by
  have hknown : object ∈ known source a := mem_append_left _ hobject
  rw [selectRow]
  cases hfind : changes.find? fun change =>
      change.object.artifact = (retained object).object.artifact with
  | some change =>
    have hmem:=mem_of_find?_eq_some hfind
    have hartifact : change.object.artifact = object.artifact := by
      have hfound:=find?_some hfind
      exact of_decide_eq_true hfound
    obtain ⟨other,hother,rfl,-⟩ := hselected.fresh change hmem
    have hsame : other = object :=
      h.artifact _ (mem_append_left _ hother) _ hknown hartifact
    subst hsame
    exact .inl ⟨.inr hmem,if_pos rfl⟩
  | none =>
    have hnone : ∀ change ∈ changes,change.object.artifact ≠ object.artifact := by
      intro change hchange heq
      exact find?_eq_none.mp hfind change hchange (decide_eq_true heq)
    have hkeys : ∀ change ∈ changes,changeKey change ≠ artifactKey object :=
      fun change hchange hkey => hnone change hchange (artifactKey_inj.mp hkey)
    have hnot : retained object ∉ changes := fun hmem => hnone _ hmem rfl
    have hlookup : lookupInventory a.roots (retained object).object =
        .ok (a.roots.find (artifactKey object)) := lookupInventory_known h hknown
    dsimp only
    rw [hlookup,ok_bind]
    cases hroot : a.roots.find (artifactKey object) with
    | none =>
      refine .inr ⟨?_,hkeys,rfl⟩
      intro hcovered
      rcases hcovered with ⟨change,hchange,-⟩ | hmem
      · rw [hroot] at hchange
        cases hchange
      · exact hnot hmem
    | some change =>
      have hsame:=find_object h hknown hroot
      cases hstate : coveredState change.state with
      | true =>
        refine .inl ⟨.inl ⟨change,hroot,hsame,hstate⟩,?_⟩
        dsimp only
        rw [if_pos hstate]
        rfl
      | false =>
        have hprepared : change.state = .prepared := by
          cases hcase : change.state with
          | prepared => rfl
          | retained | reclaimPending _ | reclaimed _ =>
            rw [hcase] at hstate
            cases hstate
        refine .inr ⟨?_,hkeys,?_⟩
        · intro hcovered
          rcases hcovered with ⟨other,hother,-,hcovers⟩ | hmem
          · rw [hroot] at hother
            cases hother
            rw [hstate] at hcovers
            cases hcovers
          · exact hnot hmem
        · dsimp only
          rw [hstate,if_neg Bool.false_ne_true,if_neg (not_not.mpr hprepared)]
          rfl

structure Selects (source : BlockSource) (a : Admitted) (limit : ℕ)
    (changes : List InventoryChange) (complete : Bool) (rows : List InventoryChange)
    (next : Selection) : Prop where
  selected : Selected source a limit next.1
  extends_changes : changes <+: next.1
  origin : ∀ change ∈ next.1,change ∈ changes ∨ change ∈ rows
  covered : next.2 = true → complete = true ∧ ∀ row ∈ rows,CoveredBy a.roots next.1 row.object
  partial_rows : next.2 = false → complete = false ∨
    next.1.length = limit ∧ ∃ row ∈ rows,¬ CoveredBy a.roots next.1 row.object

theorem selectRows_spec (hselected : Selected source a limit changes)
    {rows : List InventoryChange}
    (hrows : ∀ row ∈ rows,∃ object ∈ listed source a,row = retained object) :
    ∃ next,selectRows a.roots limit (changes,complete) rows = .ok next ∧
      Selects source a limit changes complete rows next := by
  induction rows generalizing changes complete with
  | nil =>
    exact ⟨(changes,complete),rfl,hselected,prefix_rfl,fun change hc => .inl hc,
      fun hcomplete => ⟨hcomplete,nofun⟩,fun hpartial => .inl hpartial⟩
  | cons row rows ih =>
    obtain ⟨object,hobject,rfl⟩ := hrows _ (mem_cons_self ..)
    have hrest:=fun r hr => hrows r (mem_cons_of_mem _ hr)
    rw [selectRows]
    rcases @selectRow_spec _ _ h _ _ complete hselected _ hobject with ⟨hcovered,hstep⟩ |
      ⟨huncovered,hkeys,hstep⟩
    · obtain ⟨next,hnext,hspec⟩ := @ih changes complete hselected hrest
      rw [hstep,ok_bind,hnext]
      refine ⟨next,rfl,hspec.selected,hspec.extends_changes,?_,?_,?_⟩
      · exact fun change hc => (hspec.origin change hc).imp_right (mem_cons_of_mem _)
      · intro hcomplete
        obtain ⟨hbefore,hall⟩ := hspec.covered hcomplete
        exact ⟨hbefore,forall_mem_cons.mpr
          ⟨hcovered.mono hspec.extends_changes.subset,hall⟩⟩
      · intro hpartial
        refine (hspec.partial_rows hpartial).imp_right fun ⟨hfull,r,hr,hnot⟩ => ?_
        exact ⟨hfull,r,mem_cons_of_mem _ hr,hnot⟩
    · rw [hstep,ok_bind,select]
      by_cases hroom : changes.length < limit
      · -- the row is selected
        have hmore : Selected source a limit (changes++[retained object]) := by
          refine ⟨by rw [length_append,length_singleton]; omega,?_,?_⟩
          · rw [pairwise_append]
            refine ⟨hselected.distinct,pairwise_singleton ..,fun x hx y hy => ?_⟩
            rw [mem_singleton.mp hy]
            exact hkeys x hx
          · intro change hchange
            rcases mem_append.mp hchange with hmem | hmem
            · exact hselected.fresh change hmem
            · exact ⟨object,hobject,mem_singleton.mp hmem,
                fun hrooted => huncovered (.inl hrooted)⟩
        obtain ⟨next,hnext,hspec⟩ := @ih (changes++[retained object]) complete hmore hrest
        dsimp only
        rw [if_pos hroom,hnext]
        refine ⟨next,rfl,hspec.selected,(prefix_append ..).trans hspec.extends_changes,
          ?_,?_,?_⟩
        · intro change hc
          rcases hspec.origin change hc with hmem | hmem
          · rcases mem_append.mp hmem with hold | hnew
            · exact .inl hold
            · rw [mem_singleton.mp hnew]
              exact .inr (mem_cons_self ..)
          · exact .inr (mem_cons_of_mem _ hmem)
        · intro hcomplete
          obtain ⟨hbefore,hall⟩ := hspec.covered hcomplete
          refine ⟨hbefore,forall_mem_cons.mpr ⟨.inr ?_,hall⟩⟩
          exact hspec.extends_changes.subset
            (mem_append_right _ (mem_singleton_self _))
        · intro hpartial
          refine (hspec.partial_rows hpartial).imp_right fun ⟨hfull,r,hr,hnot⟩ => ?_
          exact ⟨hfull,r,mem_cons_of_mem _ hr,hnot⟩
      · -- the budget is spent: nothing more is selected
        obtain ⟨next,hnext,hspec⟩ := @ih changes false hselected hrest
        dsimp only
        rw [if_neg hroom,hnext]
        have hsame : changes = next.1 :=
          hspec.extends_changes.eq_of_length_le
            (hspec.selected.length.trans (Nat.le_of_not_lt hroom))
        refine ⟨next,rfl,hspec.selected,hspec.extends_changes,?_,?_,?_⟩
        · exact fun change hc => (hspec.origin change hc).imp_right (mem_cons_of_mem _)
        · intro hcomplete
          cases (hspec.covered hcomplete).1
        · intro _
          have hlength:=hselected.length
          exact .inr ⟨by rw [← hsame]; omega,_,mem_cons_self ..,by rwa [← hsame]⟩

end Select

structure Prepared (source : BlockSource) (a : Admitted) (limit : ℕ) (run : List RequiredRef)
    (fold : PreparedInventoryFold) : Prop where
  selected : Selected source a limit fold.changes
  leading : fold.selected <+: run
  segments : List.Forall₂ (IsSegment source a.roots) fold.selected fold.segments
  origin : ∀ change ∈ fold.changes,∃ required ∈ fold.selected,
    ∃ object ∈ manifestDescriptors source a.roots required,change = retained object
  retired : fold.retired ≤ fold.selected.length
  covered : ∀ required ∈ fold.selected.take fold.retired,
    CoveredManifest source a.roots fold.changes required
  stops : fold.retired = fold.selected.length ∧ fold.selected = run ∨
    ∃ required,fold.selected[fold.retired]? = some required ∧ fold.changes.length = limit ∧
      ¬ CoveredManifest source a.roots fold.changes required

section Walk
variable {source : BlockSource} {a : Admitted} (h : Agreeing source a) {limit : ℕ}
  {required : RequiredRef} {segment : List InventoryChange}

theorem segment_listed (hrequired : required ∈ a.manifests)
    (hsegment : IsSegment source a.roots required segment) :
    ∀ row ∈ segment,∃ object ∈ listed source a,row = retained object := by
  intro row hrow
  obtain ⟨object,hobject,hretained⟩ := (hsegment row).mp hrow
  exact ⟨object,mem_flatMap.mpr ⟨required,hrequired,hobject⟩,hretained⟩

theorem coveredManifest_iff {changes : List InventoryChange}
    (hsegment : IsSegment source a.roots required segment) :
    CoveredManifest source a.roots changes required ↔
      ∀ row ∈ segment,CoveredBy a.roots changes row.object := by
  constructor
  · intro hcovered row hrow
    obtain ⟨object,hobject,hretained⟩ := (hsegment row).mp hrow
    rw [hretained]
    exact hcovered object hobject
  · intro hcovered object hobject
    exact hcovered (retained object) ((hsegment _).mpr ⟨object,hobject,rfl⟩)

theorem Prepared.next {before : List RequiredRef} {fold : PreparedInventoryFold}
    (hfold : Prepared source a limit before fold) (hbefore : fold.selected = before)
    (hretired : fold.retired = fold.selected.length)
    (hsegment : IsSegment source a.roots required segment)
    {next : Selection} (hnext : Selects source a limit fold.changes true segment next)
    (rest : List RequiredRef) :
    Prepared source a limit (before++required::if next.2 = true then [] else rest)
      ⟨fold.selected++[required],fold.retired+(if next.2 = true then 1 else 0),
        fold.segments++[segment],next.1⟩ := by
  have hkept : ∀ r ∈ fold.selected,CoveredManifest source a.roots next.1 r := by
    intro r hr object hobject
    apply CoveredBy.mono _ hnext.extends_changes.subset
    refine hfold.covered r ?_ object hobject
    rwa [hretired,take_length]
  have hsegments : List.Forall₂ (IsSegment source a.roots) (fold.selected++[required])
      (fold.segments++[segment]) :=
    rel_append hfold.segments (.cons hsegment .nil)
  have horigin : ∀ change ∈ next.1,∃ r ∈ fold.selected++[required],
      ∃ object ∈ manifestDescriptors source a.roots r,change = retained object := by
    intro change hchange
    rcases hnext.origin change hchange with hold | hnew
    · obtain ⟨r,hr,hobject⟩ := hfold.origin change hold
      exact ⟨r,mem_append_left _ hr,hobject⟩
    · exact ⟨required,mem_append_right _ (mem_singleton_self _),
        (hsegment change).mp hnew⟩
  cases hcomplete : next.2 with
  | true =>
    have hrequired : CoveredManifest source a.roots next.1 required :=
      (coveredManifest_iff hsegment).mpr (hnext.covered hcomplete).2
    rw [if_pos rfl,if_pos rfl,← hbefore]
    refine ⟨hnext.selected,prefix_rfl,hsegments,horigin,?_,?_,.inl ⟨?_,rfl⟩⟩
    · simp [hretired]
    · intro r hr
      rcases mem_append.mp (mem_of_mem_take hr) with hold | hnew
      · exact hkept r hold
      · rw [mem_singleton.mp hnew]
        exact hrequired
    · simp [hretired]
  | false =>
    obtain ⟨hfull,row,hrow,huncovered⟩ :=
      (hnext.partial_rows hcomplete).resolve_left (by simp)
    rw [if_neg Bool.false_ne_true,if_neg Bool.false_ne_true]
    refine ⟨hnext.selected,?_,hsegments,horigin,?_,?_,.inr ⟨required,?_,hfull,?_⟩⟩
    · rw [hbefore]
      exact ⟨rest,by simp⟩
    · simp [hretired]
    · intro r hr
      refine hkept r ?_
      simpa [hretired] using hr
    · simp [hretired]
    · intro hcovered
      exact huncovered ((coveredManifest_iff hsegment).mp hcovered row hrow)

include h

theorem examine_spec {rest before : List RequiredRef} {fold : PreparedInventoryFold}
    (hrest : ∀ required ∈ rest,required ∈ a.manifests)
    (hfold : Prepared source a limit before fold) (hbefore : fold.selected = before)
    (hretired : fold.retired = fold.selected.length) :
    ∃ examined,examine source a.roots limit rest fold = .ok examined ∧
      Prepared source a limit (before++rest) examined := by
  induction rest generalizing before fold with
  | nil =>
    rw [append_nil]
    exact ⟨fold,rfl,hfold⟩
  | cons required rest ih =>
    have hrequired:=hrest _ (mem_cons_self ..)
    obtain ⟨rows,hrows⟩ := h.reads required hrequired
    obtain ⟨segment,hsegment,hsegmentSpec⟩ := segmentOf_ok h hrequired hrows
    obtain ⟨next,hnext,hselects⟩ := selectRows_spec h hfold.selected
      (segment_listed hrequired hsegmentSpec)
    have hstep:=hfold.next hbefore hretired hsegmentSpec hselects rest
    rw [examine,hrows,ok_bind,hsegment,ok_bind,hnext,ok_bind]
    dsimp only
    cases hcomplete : next.2 with
    | true =>
      rw [hcomplete] at hstep
      rw [if_pos rfl]
      have hresult:=ih (fun r hr => hrest r (mem_cons_of_mem _ hr)) hstep
        (by simp [hbefore]) (by simp [hretired])
      simpa using hresult
    | false =>
      rw [hcomplete,if_neg Bool.false_ne_true,if_neg Bool.false_ne_true,Nat.add_zero] at hstep
      rw [if_neg Bool.false_ne_true]
      exact ⟨_,rfl,hstep⟩

theorem admittedRun_ok {run : List RequiredRef} (hrun : ∀ required ∈ run,required ∈ a.manifests)
    (capacity admitted : ℕ) :
    ∃ count,admittedRun source a.roots capacity admitted run = .ok count ∧ admitted ≤ count ∧
      (admitted = 0 → run ≠ [] → 0 < count) := by
  induction run generalizing capacity admitted with
  | nil => exact ⟨admitted,rfl,le_rfl,fun _ hne => absurd rfl hne⟩
  | cons required rest ih =>
    obtain ⟨rows,hrows⟩ := h.reads required (hrun _ (mem_cons_self ..))
    rw [manifestRows] at hrows
    obtain ⟨⟨payload,count⟩,hmanifest,-⟩ := bind_eq_ok hrows
    rw [admittedRun,hmanifest,ok_bind]
    dsimp only
    by_cases hstop : 0 < admitted ∧ maxPreparedManifestDescriptors < capacity+count+1
    · rw [if_pos hstop]
      exact ⟨admitted,rfl,le_rfl,fun hzero => by omega⟩
    · obtain ⟨total,htotal,hle,-⟩ := ih (fun r hr => hrun r (mem_cons_of_mem _ hr))
        (capacity+count+1) (admitted+1)
      rw [if_neg hstop]
      exact ⟨total,htotal,by omega,fun _ _ => by omega⟩

end Walk

section Observe
variable {source : BlockSource} {a : Admitted} (h : Agreeing source a) {limit : ℕ}
  {changes : List InventoryChange}

theorem Selected.sorted (hselected : Selected source a limit changes) :
    Selected source a limit (sortBy changeKey changes) :=
  ⟨by rw [sortBy,length_mergeSort]; exact hselected.length,
    sortBy_distinct hselected.distinct,
    fun change hchange => hselected.fresh change (mem_sortBy.mp hchange)⟩

variable {root : GraphRoots} {run : List RequiredRef} {fold : PreparedInventoryFold}

theorem coveredManifest_sorted {required : RequiredRef} :
    CoveredManifest source root (sortBy changeKey changes) required ↔
      CoveredManifest source root changes required := by
  simp only [CoveredManifest,CoveredBy,mem_sortBy]

theorem Prepared.sorted (hfold : Prepared source a limit run fold) :
    Prepared source a limit run { fold with changes := sortBy changeKey fold.changes } := by
  refine ⟨hfold.selected.sorted,hfold.leading,hfold.segments,
    fun change hchange => hfold.origin change (mem_sortBy.mp hchange),hfold.retired,
    fun required hr => coveredManifest_sorted.mpr (hfold.covered required hr),?_⟩
  refine hfold.stops.imp_right fun ⟨required,hget,hfull,hnot⟩ => ⟨required,hget,?_,?_⟩
  · rw [sortBy,length_mergeSort]
    exact hfull
  · exact mt coveredManifest_sorted.mp hnot

theorem mem_flatten_segments {manifests : List RequiredRef} {segments : List (List InventoryChange)}
    (h : List.Forall₂ (IsSegment source root) manifests segments) {change : InventoryChange} :
    change ∈ segments.flatten ↔ ∃ required ∈ manifests,
      ∃ object ∈ manifestDescriptors source root required,change = retained object := by
  induction h with
  | nil => simp
  | @cons required segment manifests segments hsegment hrest ih =>
    rw [flatten_cons,mem_append,ih,hsegment change,exists_mem_cons_iff]

theorem Prepared.authorized (hfold : Prepared source a limit run fold) :
    ¬ (fold.changes.any fun change => !(fold.segments.flatten.any fun expected =>
        expected.object = change.object ∧ expected.state = change.state) ||
      change.state ≠ .retained) = true := by
  intro hany
  obtain ⟨change,hchange,hrefused⟩ := any_eq_true.mp hany
  have horigin:=hfold.origin change hchange
  have hmem:=(mem_flatten_segments hfold.segments).mpr horigin
  have hfound : (fold.segments.flatten.any fun expected =>
      expected.object = change.object ∧ expected.state = change.state) = true :=
    any_eq_true.mpr ⟨change,hmem,by simp⟩
  have hstate : change.state = .retained := by
    obtain ⟨_,_,object,_,rfl⟩ := horigin
    rfl
  rw [hfound,hstate] at hrefused
  cases hrefused

include h

theorem selectedChange_iff (hselected : Selected source a limit changes)
    (hsorted : changes.Pairwise fun x y => changeKey x ≤ changeKey y)
    {object : ArtifactDescriptor} (hobject : object ∈ listed source a) :
    selectedChange changes (retained object) = true ↔ retained object ∈ changes := by
  have hsame : ∀ change ∈ changes,changeKey change = artifactKey object →
      change = retained object := by
    intro change hchange hkey
    obtain ⟨other,hother,hretained,-⟩ := hselected.fresh change hchange
    rw [hretained] at hkey ⊢
    rw [h.artifact other (mem_append_left _ hother) object (mem_append_left _ hobject)
      (artifactKey_inj.mp hkey)]
  rw [selectedChange]
  constructor
  · intro hany
    obtain ⟨change,hchange,-⟩ := Option.any_eq_true .. |>.mp hany
    obtain ⟨hmem,hkey⟩ := binarySearchBy_some hchange
    rwa [← hsame change hmem hkey]
  · intro hmem
    have hfound:=(binarySearchBy_isSome hsorted).mpr ⟨retained object,hmem,rfl⟩
    obtain ⟨change,hchange⟩ := Option.isSome_iff_exists.mp hfound
    obtain ⟨hchangeMem,hkey⟩ := binarySearchBy_some hchange
    rw [hchange,hsame change hchangeMem hkey]
    simp [retained]

theorem rooted_iff {object : ArtifactDescriptor} (hobject : object ∈ known source a) :
    (a.roots.find (artifactKey object)).any (fun change => coveredState change.state) = true ↔
      Rooted a.roots object := by
  constructor
  · intro hany
    obtain ⟨change,hchange,hstate⟩ := Option.any_eq_true .. |>.mp hany
    exact ⟨change,hchange,find_object h hobject hchange,hstate⟩
  · intro ⟨change,hchange,_,hstate⟩
    rw [hchange,Option.any_some]
    exact hstate

theorem coveredRows_spec (hselected : Selected source a limit changes)
    (hsorted : changes.Pairwise fun x y => changeKey x ≤ changeKey y)
    {rows : List InventoryChange}
    (hrows : ∀ row ∈ rows,∃ object ∈ listed source a,row = retained object) :
    ∃ covered,coveredRows a.roots changes rows = .ok covered ∧
      (covered = true ↔ ∀ row ∈ rows,CoveredBy a.roots changes row.object) := by
  induction rows with
  | nil => exact ⟨true,rfl,iff_of_true rfl nofun⟩
  | cons row rows ih =>
    obtain ⟨object,hobject,rfl⟩ := hrows _ (mem_cons_self ..)
    obtain ⟨covered,hcovered,hspec⟩ := ih fun r hr => hrows r (mem_cons_of_mem _ hr)
    have hknown : object ∈ known source a := mem_append_left _ hobject
    have hlookup : lookupInventory a.roots (retained object).object =
        .ok (a.roots.find (artifactKey object)) := lookupInventory_known h hknown
    refine ⟨((a.roots.find (artifactKey object)).any (fun change => coveredState change.state) ||
      selectedChange changes (retained object)) && covered,?_,?_⟩
    · rw [coveredRows,hlookup,ok_bind,hcovered,ok_bind]
      rfl
    · rw [Bool.and_eq_true,Bool.or_eq_true,rooted_iff h hknown,
        selectedChange_iff h hselected hsorted hobject,hspec,forall_mem_cons]
      rfl

theorem observedRetired_spec (hselected : Selected source a limit changes)
    (hsorted : changes.Pairwise fun x y => changeKey x ≤ changeKey y)
    {manifests : List RequiredRef} {segments : List (List InventoryChange)}
    (hmanifests : ∀ required ∈ manifests,required ∈ a.manifests)
    (hsegments : List.Forall₂ (IsSegment source a.roots) manifests segments) {retired : ℕ}
    (hcovered : ∀ required ∈ manifests.take retired,
      CoveredManifest source a.roots changes required)
    (hstops : retired = manifests.length ∨ ∃ required,manifests[retired]? = some required ∧
      ¬ CoveredManifest source a.roots changes required) :
    observedRetired a.roots changes segments = .ok retired := by
  induction hsegments generalizing retired with
  | nil =>
    rcases hstops with hall | ⟨required,hget,-⟩
    · rw [hall]
      rfl
    · cases hget
  | @cons required segment manifests segments hsegment hrest ih =>
    have hrequired:=hmanifests _ (mem_cons_self ..)
    obtain ⟨covered,hrows,hspec⟩ := coveredRows_spec h hselected hsorted
      (segment_listed hrequired hsegment)
    rw [← coveredManifest_iff hsegment] at hspec
    rw [observedRetired,hrows,ok_bind]
    cases retired with
    | zero =>
      have hnot : ¬ CoveredManifest source a.roots changes required := by
        rcases hstops with hall | ⟨other,hget,hnot⟩
        · cases hall
        · cases hget
          exact hnot
      rw [if_neg (mt hspec.mp hnot)]
      rfl
    | succ retired =>
      have hfirst : CoveredManifest source a.roots changes required :=
        hcovered _ (mem_cons_self ..)
      have hobserved:=@ih (fun r hr => hmanifests r (mem_cons_of_mem _ hr)) retired
        (fun r hr => hcovered r (mem_cons_of_mem _ hr))
        (hstops.imp (fun hall => Nat.succ.inj hall) fun ⟨other,hget,hnot⟩ =>
          ⟨other,hget,hnot⟩)
      rw [if_pos (hspec.mpr hfirst),hobserved]
      rfl

theorem prepare_spec (hlimit : 0 < limit) (hmax : limit ≤ inventoryFoldAdditionLimit) :
    ∃ fold,prepareInventoryFold source a.manifests a.roots limit = .ok fold ∧
      (∃ run,run <+: a.manifests ∧ (a.manifests ≠ [] → run ≠ []) ∧
        Prepared source a limit run fold) ∧
      fold.changes.Pairwise fun x y => changeKey x < changeKey y := by
  have hrun : ∀ required ∈ a.manifests.take inventoryFoldManifestLimit,
      required ∈ a.manifests := fun required hr => mem_of_mem_take hr
  obtain ⟨admitted,hadmitted,-,hpositive⟩ := admittedRun_ok h hrun 0 0
  have hstart : Prepared source a limit [] ⟨[],0,[],[]⟩ :=
    ⟨⟨Nat.zero_le _,.nil,nofun⟩,prefix_rfl,.nil,nofun,le_rfl,nofun,
      .inl ⟨rfl,rfl⟩⟩
  have hadmittedRun : ∀ required ∈ (a.manifests.take inventoryFoldManifestLimit).take admitted,
      required ∈ a.manifests := fun required hr => hrun required (mem_of_mem_take hr)
  obtain ⟨examined,hexamined,hspec⟩ := examine_spec h hadmittedRun hstart rfl rfl
  have hfrom : ∀ required ∈ examined.selected,required ∈ a.manifests := fun required hr =>
    hrun required (mem_of_mem_take (hspec.leading.subset hr))
  have hfold:=hspec.sorted
  have hsorted:=sortBy_pairwise changeKey examined.changes
  have hobserved:=observedRetired_spec h hfold.selected hsorted hfrom hfold.segments
    hfold.covered (hfold.stops.imp (fun hall => hall.1) fun ⟨r,hget,_,hnot⟩ => ⟨r,hget,hnot⟩)
  refine ⟨_,?_,⟨_,?_,?_,hfold⟩,?_⟩
  · rw [prepareInventoryFold]
    dsimp only
    rw [failIf_neg _ (by omega),ok_bind,hadmitted,ok_bind,hexamined,ok_bind,
      failIf_neg _ hfold.authorized,ok_bind,hobserved,ok_bind,failIf_neg _ (by simp),ok_bind]
    rfl
  · exact ( take_prefix ..).trans ( take_prefix ..)
  · intro hne hnil
    have hrunNe : a.manifests.take inventoryFoldManifestLimit ≠ [] := by
      intro htake
      rcases take_eq_nil_iff.mp htake with hzero | hempty
      · cases hzero
      · exact hne hempty
    rcases take_eq_nil_iff.mp hnil with hzero | hempty
    · have := hpositive rfl hrunNe
      omega
    · exact hrunNe hempty
  · exact (hsorted.and hfold.selected.distinct).imp fun hboth => lt_of_le_of_ne hboth.1 hboth.2

end Observe

end Zeppelin.GraphStore.Inventory
