import Mathlib.Data.List.TakeWhile
import Zeppelin.GraphStore.RangesSpec

namespace Zeppelin.GraphStore.Adjacency
open List

def Ordered (changes : List Change) : Prop := changes.Pairwise fun a b => a.sortKey < b.sortKey

def RootsOk (sequence : ℕ) (roots : Roots) : Prop :=
  ∀ direction,DirectoryOk direction sequence (roots.directory direction)

theorem Direction.code_injective {a b : Direction} (h : a.code = b.code) : a = b := by
  cases a <;> cases b <;> first | rfl | cases h

theorem change_group_iff {a b : Change} : a.group = b.group ↔
    a.direction = b.direction ∧ a.node = b.node ∧ a.relType = b.relType := by
  simp [Change.group]

theorem sortKey_lt_of_group {a b : Change} (h : a.group = b.group) :
    a.sortKey < b.sortKey ↔ a.rel < b.rel := by
  obtain ⟨hdirection,hnode,htype⟩ := change_group_iff.mp h
  simp [Change.sortKey,Prod.Lex.lt_iff,hdirection,hnode,htype]

theorem group_of_sortKey_between {a b c : Change} (hac : a.group = c.group)
    (hab : a.sortKey ≤ b.sortKey) (hbc : b.sortKey ≤ c.sortKey) : b.group = a.group := by
  obtain ⟨hdirection,hnode,htype⟩ := change_group_iff.mp hac
  simp only [Change.sortKey,Prod.Lex.le_iff,ofLex_toLex,← hdirection] at hab hbc
  rw [change_group_iff]
  refine ⟨Direction.code_injective ?_,?_,?_⟩
  · omega
  · omega
  · omega

theorem Ordered.ascending {changes : List Change} (h : Ordered changes)
    {group : Direction × ℕ × ℕ} (hgroup : ∀ change ∈ changes,change.group = group) :
    Ascending (changes.map Change.delta) := by
  apply pairwise_map.mpr
  refine List.Pairwise.imp_of_mem (fun ha hb hlt => ?_) h
  exact (sortKey_lt_of_group ((hgroup _ ha).trans (hgroup _ hb).symm)).mp hlt

theorem dropWhile_inRange {first : Change} {changes : List Change} {upper : UpperBound}
    (h : Ordered (first::changes)) :
    ∀ change ∈ (first::changes).dropWhile (first.inRange upper),change.group = first.group →
      ¬ upper.above change.rel = true := by
  intro change hchange hgroup habove
  cases hleft : (first::changes).dropWhile (first.inRange upper) with
  | nil =>
    rw [hleft] at hchange
    cases hchange
  | cons stop rest =>
    have hstop : ¬ first.inRange upper stop = true := by
      have := head?_dropWhile_not (first.inRange upper) (first::changes)
      simpa [hleft] using this
    have hordered : Ordered (stop::rest) := by
      rw [← hleft]
      exact h.sublist (dropWhile_sublist _)
    have hfirst : first.sortKey ≤ stop.sortKey := by
      have hmem : stop ∈ first::changes :=
        dropWhile_subset (first.inRange upper) (hleft ▸ mem_cons_self)
      rcases mem_cons.mp hmem with rfl | hmem
      · exact le_rfl
      · exact ((pairwise_cons.mp h).1 stop hmem).le
    rw [hleft] at hchange
    have hlast : stop.sortKey ≤ change.sortKey := by
      rcases mem_cons.mp hchange with rfl | hmem
      · exact le_rfl
      · exact ((pairwise_cons.mp hordered).1 change hmem).le
    have hstopGroup:=group_of_sortKey_between hgroup.symm hfirst hlast
    have hrel : stop.rel ≤ change.rel := by
      by_contra hlt
      have := (sortKey_lt_of_group (hgroup.trans hstopGroup.symm)).mpr (Nat.lt_of_not_le hlt)
      exact absurd this (not_lt.mpr hlast)
    apply hstop
    rw [Change.inRange,decide_eq_true_eq]
    exact ⟨hstopGroup,UpperBound.above_of_le hrel habove⟩

/-- One round of the loop: an interval, its changes and the edits they become. -/
structure Slot where
  first : Change
  selected : Selected
  incoming : List Change
  edits : List Edit

structure Slot.Ok (base : ℕ) (roots : Roots) (slot : Slot) : Prop where
  selected : SelectedOk (roots.directory slot.first.direction) slot.first slot.selected
  first_mem : slot.first ∈ slot.incoming
  incoming : ∀ change ∈ slot.incoming,
    change.group = slot.first.group ∧ slot.selected.key.holds change.rel
  ascending : Ascending (slot.incoming.map Change.delta)
  updated : Updated (base+1) slot.selected (slot.incoming.map Change.delta) slot.edits

structure Routed (base : ℕ) (roots : Roots) (changes : List Change) (edits : List Edit)
    (slots : List Slot) : Prop where
  edits_eq : edits = slots.flatMap Slot.edits
  changes_eq : changes = slots.flatMap Slot.incoming
  ok : ∀ slot ∈ slots,slot.Ok base roots
  apart : slots.Pairwise fun a b => a.first.group = b.first.group →
    a.selected.key.Apart b.selected.key

theorem Slot.Ok.apart_of_behind {base : ℕ} {roots : Roots} {slot later : Slot}
    (h : slot.Ok base roots) (hlater : later.Ok base roots)
    (hgroup : slot.first.group = later.first.group)
    (hbehind : ¬ slot.selected.key.upper.above later.first.rel = true) :
    slot.selected.key.Apart later.selected.key := by
  obtain ⟨hdirection,-,-⟩ := change_group_iff.mp hgroup
  cases hold : later.selected.old with
  | none =>
    obtain ⟨hlower,-⟩ := hlater.selected.gap hold
    intro rel hboth
    apply hbehind
    exact UpperBound.above_of_le (hlower ▸ hboth.2.1) hboth.1.2
  | some d =>
    obtain ⟨hmem,hkey,-⟩ := hlater.selected.old d hold
    rw [← hdirection] at hmem
    rw [← hkey]
    apply RangeKey.Apart.symm
    apply h.selected.apart d hmem
    · rw [hkey,hlater.selected.group,hgroup]
    · intro hsame
      apply hbehind
      rw [← (h.selected.old d hsame).2.1,hkey]
      exact hlater.selected.holds.2

theorem collectEdits_ok {base : ℕ} {roots : Roots} {fuel : ℕ} {changes : List Change}
    {edits : List Edit} (hroots : RootsOk base roots) (hchanges : Ordered changes)
    (h : collectEdits base roots fuel changes = .ok edits) :
    ∃ slots,Routed base roots changes edits slots := by
  induction fuel generalizing changes edits with
  | zero =>
    cases changes with
    | cons first changes => cases h
    | nil =>
      cases h
      exact ⟨[],rfl,rfl,by simp,.nil⟩
  | succ fuel ih =>
    cases changes with
    | nil =>
      cases h
      exact ⟨[],rfl,rfl,by simp,.nil⟩
    | cons first changes =>
      obtain ⟨selected,hselect,h⟩ := bind_eq_ok h
      obtain ⟨⟨⟩,-,h⟩ := bind_eq_ok h
      obtain ⟨here,hupdate,h⟩ := bind_eq_ok h
      obtain ⟨rest,hrest,hret⟩ := bind_eq_ok h
      cases hret
      have hselected:=select_ok (hroots first.direction) hselect
      have hleft : Ordered ((first::changes).dropWhile (first.inRange selected.key.upper)) :=
        hchanges.sublist (dropWhile_sublist _)
      obtain ⟨slots,hslots⟩ := ih hleft hrest
      have hinRange : first.inRange selected.key.upper first = true := by
        rw [Change.inRange,decide_eq_true_eq]
        exact ⟨rfl,hselected.holds.2⟩
      have hincoming : ∀ change ∈ (first::changes).takeWhile (first.inRange selected.key.upper),
          change.group = first.group ∧ selected.key.holds change.rel := by
        intro change hchange
        have hpred:=mem_takeWhile_imp hchange
        rw [Change.inRange,decide_eq_true_eq] at hpred
        refine ⟨hpred.1,?_,hpred.2⟩
        rcases mem_cons.mp (takeWhile_subset _ hchange) with rfl | hlater
        · exact hselected.holds.1
        · have hlt:=(pairwise_cons.mp hchanges).1 change hlater
          exact hselected.holds.1.trans ((sortKey_lt_of_group hpred.1.symm).mp hlt).le
      have hascending:=Ordered.ascending
        (hchanges.sublist (takeWhile_sublist (first.inRange selected.key.upper)))
        (fun change hchange => (hincoming change hchange).1)
      have hupdated:=update_ok (hroots first.direction) hselected hascending (by
        intro entry hentry
        obtain ⟨change,hchange,rfl⟩ := mem_map.mp hentry
        exact (hincoming change hchange).2) hupdate
      have hfirst : first ∈ (first::changes).takeWhile (first.inRange selected.key.upper) := by
        rw [takeWhile_cons_of_pos hinRange]
        exact mem_cons_self
      have hok : Slot.Ok base roots ⟨first,selected,_,here⟩ :=
        ⟨hselected,hfirst,hincoming,hascending,hupdated⟩
      refine ⟨⟨first,selected,_,here⟩::slots,?_,?_,forall_mem_cons.mpr ⟨hok,hslots.ok⟩,
        pairwise_cons.mpr ⟨?_,hslots.apart⟩⟩
      · rw [flatMap_cons,← hslots.edits_eq]
      · rw [flatMap_cons,← hslots.changes_eq]
        exact takeWhile_append_dropWhile.symm
      · intro later hlater hgroup
        refine hok.apart_of_behind (hslots.ok later hlater) hgroup ?_
        refine dropWhile_inRange hchanges later.first ?_ hgroup.symm
        rw [hslots.changes_eq]
        exact mem_flatMap.mpr ⟨later,hlater,(hslots.ok later hlater).first_mem⟩

theorem validatePut_valid {direction : Direction} {cutoff sequence : ℕ} {dir : Directory}
    {d : RangeDescriptor} (h : validatePut direction cutoff sequence dir d = .ok ()) :
    d.Valid sequence := by
  obtain ⟨⟨⟩,-,h⟩ := bind_eq_ok h
  obtain ⟨edges,hvalid,-⟩ := bind_eq_ok h
  exact (validateRange_eq_ok.mp hvalid).1

theorem checkPrepared_valid {sequence : ℕ} {roots : Roots} {ds : List RangeDescriptor}
    (h : checkPrepared sequence roots ds = .ok ()) : ∀ d ∈ ds,d.Valid sequence := by
  induction ds with
  | nil => simp
  | cons d ds ih =>
    obtain ⟨⟨⟩,hput,hrest⟩ := bind_eq_ok h
    exact forall_mem_cons.mpr ⟨validatePut_valid hput,ih hrest⟩

theorem apply_inv {base : ℕ} {roots next : Roots} {changes : List Change}
    (h : apply base roots changes = .ok next) :
    ∃ edits,collectEdits base roots changes.length changes = .ok edits ∧
      (∀ direction,flush (editsOf direction edits) (roots.directory direction) =
        .ok (next.directory direction)) ∧ ∀ d,puts edits d → d.Valid (base+1) := by
  obtain ⟨edits,hedits,h⟩ := bind_eq_ok h
  obtain ⟨out,hout,h⟩ := bind_eq_ok h
  obtain ⟨incoming,hincoming,h⟩ := bind_eq_ok h
  obtain ⟨⟨⟩,hcheck,hret⟩ := bind_eq_ok h
  cases hret
  refine ⟨edits,hedits,?_,?_⟩
  · intro direction
    cases direction with
    | out => exact hout
    | incoming => exact hincoming
  · rintro d ⟨edit,hedit,hvalue⟩
    exact checkPrepared_valid hcheck d (mem_filterMap.mpr ⟨edit,hedit,hvalue⟩)

section Apply

variable {base : ℕ} {roots : Roots} {changes : List Change} {edits : List Edit} {slots : List Slot}
  {edit : Edit} {slot : Slot} {d : RangeDescriptor}

theorem Routed.mem_edits (h : Routed base roots changes edits slots) :
    edit ∈ edits ↔ ∃ slot ∈ slots,edit ∈ slot.edits := by
  rw [h.edits_eq,mem_flatMap]

theorem Routed.mem_changes (h : Routed base roots changes edits slots) {change : Change} :
    change ∈ changes ↔ ∃ slot ∈ slots,change ∈ slot.incoming := by
  rw [h.changes_eq,mem_flatMap]

theorem Slot.Ok.edit_group (h : slot.Ok base roots)
    (hedit : edit ∈ slot.edits) : edit.key.group = slot.first.group :=
  (h.updated.group edit hedit).trans h.selected.group

theorem Slot.Ok.edit_direction (h : slot.Ok base roots)
    (hedit : edit ∈ slot.edits) : edit.key.direction = slot.first.direction :=
  congrArg Prod.fst (h.edit_group hedit)

theorem Slot.Ok.put_group (h : slot.Ok base roots)
    (hd : puts slot.edits d) : d.key.group = slot.first.group := by
  obtain ⟨edit,hedit,hvalue⟩ := hd
  rw [h.updated.placed edit hedit d hvalue]
  exact h.edit_group hedit

theorem Slot.Ok.old_of_meets (h : slot.Ok base roots)
    (hd : d ∈ roots.directory slot.first.direction) (hgroup : d.key.group = slot.first.group)
    {rel : ℕ} (hholds : d.key.holds rel) (hslot : slot.selected.key.holds rel) :
    slot.selected.old = some d := by
  by_contra hne
  exact h.selected.apart d hd hgroup hne rel ⟨hholds,hslot⟩

theorem Routed.slot_eq (h : Routed base roots changes edits slots) {a b : Slot} (ha : a ∈ slots)
    (hb : b ∈ slots) (hgroup : a.first.group = b.first.group) {rel : ℕ}
    (hholdsA : a.selected.key.holds rel) (hholdsB : b.selected.key.holds rel) : a = b := by
  by_contra hne
  have hsymm : Std.Symm fun a b : Slot => a.first.group = b.first.group →
      a.selected.key.Apart b.selected.key := ⟨fun a b hab heq => (hab heq.symm).symm⟩
  exact h.apart.forall ha hb hne hgroup rel ⟨hholdsA,hholdsB⟩

theorem Routed.named_iff (hroots : RootsOk base roots) (h : Routed base roots changes edits slots)
    {direction : Direction} (hd : d ∈ roots.directory direction) :
    (∃ edit ∈ editsOf direction edits,d.key.pos = edit.key.pos) ↔
      ∃ slot ∈ slots,slot.selected.old = some d := by
  have hdirection:=(hroots direction).direction_eq d hd
  constructor
  · rintro ⟨edit,hedit,hpos⟩
    rw [editsOf,mem_filter,decide_eq_true_eq] at hedit
    obtain ⟨slot,hslot,hmem⟩ := h.mem_edits.mp hedit.1
    have hok:=h.ok slot hslot
    obtain ⟨hnode,htype,hlower⟩ := pos_eq_iff.mp hpos
    have hgroup : d.key.group = slot.first.group := by
      rw [← hok.edit_group hmem,group_eq_iff]
      exact ⟨hdirection.trans hedit.2.symm,hnode,htype⟩
    have hsame : slot.first.direction = direction :=
      (hok.edit_direction hmem).symm.trans hedit.2
    refine ⟨slot,hslot,hok.old_of_meets (hsame ▸ hd) hgroup ((hroots direction).holds_lower hd) ?_⟩
    rw [hlower]
    exact hok.updated.lower edit hmem
  · rintro ⟨slot,hslot,hold⟩
    have hok:=h.ok slot hslot
    obtain ⟨edit,hmem,hpos⟩ := hok.updated.named (hold ▸ rfl)
    obtain ⟨-,hkey,-⟩ := hok.selected.old d hold
    refine ⟨edit,?_,by rw [hpos,hkey]⟩
    rw [editsOf,mem_filter,decide_eq_true_eq]
    refine ⟨h.mem_edits.mpr ⟨slot,hslot,hmem⟩,?_⟩
    rw [hok.edit_direction hmem,← hdirection,hkey]
    exact (congrArg Prod.fst hok.selected.group).symm

theorem Routed.flush_ok (hroots : RootsOk base roots) (h : Routed base roots changes edits slots)
    {direction : Direction} {next : Directory}
    (hflush : flush (editsOf direction edits) (roots.directory direction) = .ok next) :
    Sorted next ∧ ∀ d,d ∈ next ↔
      (∃ slot ∈ slots,slot.first.direction = direction ∧ puts slot.edits d) ∨
        (d ∈ roots.directory direction ∧ ∀ slot ∈ slots,slot.selected.old ≠ some d) := by
  have hplaced : ∀ edit ∈ editsOf direction edits,edit.Placed := by
    intro edit hedit
    obtain ⟨slot,hslot,hmem⟩ := h.mem_edits.mp (mem_filter.mp hedit).1
    exact (h.ok slot hslot).updated.placed edit hmem
  obtain ⟨hsorted,hmem⟩ :=
    Adjacency.flush_ok hplaced (hroots direction).sorted hflush
  refine ⟨hsorted,fun d => ?_⟩
  rw [hmem]
  apply or_congr
  · constructor
    · rintro ⟨edit,hedit,hvalue⟩
      rw [editsOf,mem_filter,decide_eq_true_eq] at hedit
      obtain ⟨slot,hslot,hin⟩ := h.mem_edits.mp hedit.1
      exact ⟨slot,hslot,((h.ok slot hslot).edit_direction hin).symm.trans hedit.2,
        edit,hin,hvalue⟩
    · rintro ⟨slot,hslot,hdirection,edit,hin,hvalue⟩
      refine ⟨edit,?_,hvalue⟩
      rw [editsOf,mem_filter,decide_eq_true_eq]
      exact ⟨h.mem_edits.mpr ⟨slot,hslot,hin⟩,
        ((h.ok slot hslot).edit_direction hin).trans hdirection⟩
  · apply and_congr_right
    intro hd
    have hnamed:=h.named_iff hroots hd
    constructor
    · intro hfree slot hslot hold
      obtain ⟨edit,hedit,hpos⟩ := hnamed.mpr ⟨slot,hslot,hold⟩
      exact hfree edit hedit hpos
    · intro hfree edit hedit hpos
      obtain ⟨slot,hslot,hold⟩ := hnamed.mp ⟨edit,hedit,hpos⟩
      exact hfree slot hslot hold

theorem Routed.directoryOk (hroots : RootsOk base roots)
    (h : Routed base roots changes edits slots) (hvalid : ∀ d,puts edits d → d.Valid (base+1))
    {direction : Direction} {next : Directory}
    (hflush : flush (editsOf direction edits) (roots.directory direction) = .ok next) :
    DirectoryOk direction (base+1) next := by
  obtain ⟨hsorted,hmem⟩ := h.flush_ok hroots hflush
  have hdir:=hroots direction
  -- a range that stays is apart from every interval of its group
  have hstays : ∀ old ∈ roots.directory direction,(∀ slot ∈ slots,slot.selected.old ≠ some old) →
      ∀ slot ∈ slots,slot.first.direction = direction → ∀ new,puts slot.edits new →
        old.key.group = new.key.group → old.key.Apart new.key := by
    intro old hold hfree slot hslot hdirection new hnew hgroup rel hboth
    have hok:=h.ok slot hslot
    exact hfree slot hslot (hok.old_of_meets (hdirection ▸ hold) (hgroup.trans (hok.put_group hnew))
      hboth.1 (hok.updated.within new hnew rel hboth.2))
  constructor
  · exact hsorted
  · intro d hd
    rcases (hmem d).mp hd with ⟨slot,hslot,hdirection,hput⟩ | hold
    · exact (congrArg Prod.fst ((h.ok slot hslot).put_group hput)).trans hdirection
    · exact hdir.direction_eq d hold.1
  · intro d hd
    rcases (hmem d).mp hd with ⟨slot,hslot,-,edit,hedit,hvalue⟩ | hold
    · exact hvalid d ⟨edit,h.mem_edits.mpr ⟨slot,hslot,hedit⟩,hvalue⟩
    · exact (hdir.valid d hold.1).mono (Nat.le_succ base)
  · intro a ha b hb hne hgroup
    rcases (hmem a).mp ha with ⟨slotA,hslotA,hdirA,hputA⟩ | ⟨holdA,hfreeA⟩
    · rcases (hmem b).mp hb with ⟨slotB,hslotB,hdirB,hputB⟩ | ⟨holdB,hfreeB⟩
      · have hokA:=h.ok slotA hslotA
        have hokB:=h.ok slotB hslotB
        have hslots : slotA.first.group = slotB.first.group := by
          rw [← hokA.put_group hputA,← hokB.put_group hputB,hgroup]
        intro rel hboth
        have hsame:=h.slot_eq hslotA hslotB hslots (hokA.updated.within a hputA rel hboth.1)
          (hokB.updated.within b hputB rel hboth.2)
        subst hsame
        exact hokA.updated.apart a b hputA hputB hne rel hboth
      · exact (hstays b holdB hfreeB slotA hslotA hdirA a hputA hgroup.symm).symm
    · rcases (hmem b).mp hb with ⟨slotB,hslotB,hdirB,hputB⟩ | ⟨holdB,-⟩
      · exact hstays a holdA hfreeA slotB hslotB hdirB b hputB hgroup
      · exact hdir.apart a holdA b holdB hne hgroup

def HasEdge (dir : Directory) (group : Direction × ℕ × ℕ) (edge : Edge) : Prop :=
  ∃ d ∈ dir,d.key.group = group ∧ edge ∈ d.edges

def Changes (changes : List Change) (group : Direction × ℕ × ℕ) (entry : DeltaEntry) : Prop :=
  ∃ change ∈ changes,change.group = group ∧ change.delta = entry

theorem Slot.Ok.mem_incoming {entry : DeltaEntry} (h : slot.Ok base roots)
    (hentry : entry ∈ slot.incoming.map Change.delta) :
    ∃ change ∈ slot.incoming,change.group = slot.first.group ∧ change.delta = entry := by
  obtain ⟨change,hchange,rfl⟩ := mem_map.mp hentry
  exact ⟨change,hchange,(h.incoming change hchange).1,rfl⟩

theorem Routed.incoming_of_holds (h : Routed base roots changes edits slots)
    (hslot : slot ∈ slots) {change : Change} (hchange : change ∈ changes)
    (hgroup : change.group = slot.first.group) (hholds : slot.selected.key.holds change.rel) :
    change ∈ slot.incoming := by
  obtain ⟨other,hother,hmem⟩ := h.mem_changes.mp hchange
  obtain ⟨hotherGroup,hotherHolds⟩ := (h.ok other hother).incoming change hmem
  rw [h.slot_eq hslot hother (hgroup.symm.trans hotherGroup) hholds hotherHolds]
  exact hmem

section Edges

variable {direction : Direction} {next : Directory} {group : Direction × ℕ × ℕ} {edge : Edge}

theorem Routed.edges_sound (hroots : RootsOk base roots)
    (h : Routed base roots changes edits slots) (hvalid : ∀ d,puts edits d → d.Valid (base+1))
    (hflush : flush (editsOf direction edits) (roots.directory direction) = .ok next)
    (hedge : HasEdge next group edge) :
    (HasEdge (roots.directory direction) group edge ∧ ¬ Changes changes group ⟨edge,.delete⟩) ∨
      Changes changes group ⟨edge,.insert⟩ := by
  obtain ⟨-,hmem⟩ := h.flush_ok hroots hflush
  obtain ⟨d,hd,rfl,hin⟩ := hedge
  rcases (hmem d).mp hd with ⟨slot,hslot,hdirection,hput⟩ | ⟨hold,hfree⟩
  · have hok:=h.ok slot hslot
    have hslotValid : ∀ d,puts slot.edits d → d.Valid (base+1) := by
      rintro d ⟨edit,hedit,hvalue⟩
      exact hvalid d ⟨edit,h.mem_edits.mpr ⟨slot,hslot,hedit⟩,hvalue⟩
    have hgroup:=hok.put_group hput
    obtain ⟨survivors,hcombined,hputs⟩ := hok.updated.combined
    rcases (hcombined.mem edge).mp ((hputs hslotValid edge).mpr ⟨d,hput,hin⟩) with hkept | hnew
    · left
      have hholds:=hok.updated.within d hput edge.rel ((hslotValid d hput).holds edge hin)
      constructor
      · cases holdSlot : slot.selected.old with
        | none =>
          rw [(hok.selected.gap holdSlot).2] at hkept
          exact absurd hkept.1 not_mem_nil
        | some old =>
          obtain ⟨holdMem,hkey,hedges⟩ := hok.selected.old old holdSlot
          refine ⟨old,hdirection ▸ holdMem,?_,hedges ▸ hkept.1⟩
          rw [hkey,hok.selected.group,hgroup]
      · rintro ⟨change,hchange,hchangeGroup,hdelta⟩
        have hrel : change.rel = edge.rel := by rw [Change.rel,hdelta]
        have hmine:=h.incoming_of_holds hslot hchange (hchangeGroup.trans hgroup) (hrel ▸ hholds)
        exact hkept.2 change.delta (mem_map.mpr ⟨change,hmine,rfl⟩) hrel
    · right
      obtain ⟨change,hchange,hchangeGroup,hdelta⟩ := hok.mem_incoming hnew
      exact ⟨change,h.mem_changes.mpr ⟨slot,hslot,hchange⟩,hchangeGroup.trans hgroup.symm,hdelta⟩
  · left
    refine ⟨⟨d,hold,rfl,hin⟩,?_⟩
    rintro ⟨change,hchange,hchangeGroup,hdelta⟩
    obtain ⟨slot,hslot,hmine⟩ := h.mem_changes.mp hchange
    have hok:=h.ok slot hslot
    obtain ⟨hslotGroup,hslotHolds⟩ := hok.incoming change hmine
    have hrel : change.rel = edge.rel := by rw [Change.rel,hdelta]
    have hsame : slot.first.direction = direction := by
      rw [← (hroots direction).direction_eq d hold]
      exact congrArg Prod.fst (hslotGroup.symm.trans hchangeGroup)
    exact hfree slot hslot (hok.old_of_meets (hsame ▸ hold) (hchangeGroup.symm.trans hslotGroup)
      (((hroots direction).valid d hold).holds edge hin) (hrel ▸ hslotHolds))

theorem Routed.hasEdge_of_survivor (hroots : RootsOk base roots)
    (h : Routed base roots changes edits slots) (hvalid : ∀ d,puts edits d → d.Valid (base+1))
    (hflush : flush (editsOf direction edits) (roots.directory direction) = .ok next)
    {slot : Slot} (hslot : slot ∈ slots) (hdirection : slot.first.direction = direction)
    (hedge : (edge ∈ slot.selected.edges ∧
        ∀ entry ∈ slot.incoming.map Change.delta,entry.edge.rel ≠ edge.rel) ∨
      (⟨edge,.insert⟩ : DeltaEntry) ∈ slot.incoming.map Change.delta) :
    HasEdge next slot.first.group edge := by
  have hok:=h.ok slot hslot
  obtain ⟨survivors,hcombined,hputs⟩ := hok.updated.combined
  have hslotValid : ∀ d,puts slot.edits d → d.Valid (base+1) := by
    rintro d ⟨edit,hedit,hvalue⟩
    exact hvalid d ⟨edit,h.mem_edits.mpr ⟨slot,hslot,hedit⟩,hvalue⟩
  obtain ⟨d,hput,hin⟩ := (hputs hslotValid edge).mp ((hcombined.mem edge).mpr hedge)
  exact ⟨d,((h.flush_ok hroots hflush).2 d).mpr (.inl ⟨slot,hslot,hdirection,hput⟩),
    hok.put_group hput,hin⟩

theorem Routed.edges_complete (hroots : RootsOk base roots)
    (h : Routed base roots changes edits slots) (hvalid : ∀ d,puts edits d → d.Valid (base+1))
    (hflush : flush (editsOf direction edits) (roots.directory direction) = .ok next)
    (hgroup : group.1 = direction)
    (hedge : (HasEdge (roots.directory direction) group edge ∧
        ¬ Changes changes group ⟨edge,.delete⟩) ∨ Changes changes group ⟨edge,.insert⟩) :
    HasEdge next group edge := by
  rcases hedge with ⟨⟨d,hd,rfl,hin⟩,hkept⟩ | ⟨change,hchange,rfl,hdelta⟩
  · by_cases hfree : ∀ slot ∈ slots,slot.selected.old ≠ some d
    · exact ⟨d,((h.flush_ok hroots hflush).2 d).mpr (.inr ⟨hd,hfree⟩),rfl,hin⟩
    · simp only [not_forall,not_not] at hfree
      obtain ⟨slot,hslot,hold⟩ := hfree
      have hok:=h.ok slot hslot
      obtain ⟨-,hkey,hedges⟩ := hok.selected.old d hold
      have hslotGroup : d.key.group = slot.first.group := by rw [hkey,hok.selected.group]
      rw [hslotGroup]
      refine h.hasEdge_of_survivor hroots hvalid hflush hslot ?_ (.inl ⟨hedges ▸ hin,?_⟩)
      · exact (congrArg Prod.fst hslotGroup).symm.trans hgroup
      · intro entry hentry hrel
        apply hkept
        obtain ⟨survivors,hcombined,-⟩ := hok.updated.combined
        obtain ⟨change,hchange,hchangeGroup,hdelta⟩ := hok.mem_incoming hentry
        refine ⟨change,h.mem_changes.mpr ⟨slot,hslot,hchange⟩,
          hchangeGroup.trans hslotGroup.symm,?_⟩
        -- an accepted change of a stored edge deletes it
        obtain ⟨found,action⟩ := entry
        cases action with
        | insert =>
          exact absurd hrel.symm (hcombined.insert_absent _ hentry rfl edge (hedges ▸ hin))
        | delete =>
          have hmem : found ∈ slot.selected.edges := hcombined.delete_mem _ hentry rfl
          have hsame : found = edge :=
            ((hroots direction).valid d hd).edge_eq (hedges ▸ hmem) hin hrel
          rw [hdelta,hsame]
  · obtain ⟨slot,hslot,hmine⟩ := h.mem_changes.mp hchange
    have hok:=h.ok slot hslot
    have hslotGroup:=(hok.incoming change hmine).1
    rw [hslotGroup]
    refine h.hasEdge_of_survivor hroots hvalid hflush hslot ?_ (.inr ?_)
    · exact (congrArg Prod.fst hslotGroup).symm.trans hgroup
    · rw [← hdelta]
      exact mem_map.mpr ⟨change,hmine,rfl⟩

end Edges

end Apply

end Zeppelin.GraphStore.Adjacency
