import Mathlib.Data.List.Pairwise
import Zeppelin.GraphStore.RangeEdits

namespace Zeppelin.GraphStore.Adjacency
open List

def RangeKey.Apart (a b : RangeKey) : Prop := ∀ rel,¬ (a.holds rel ∧ b.holds rel)

variable {a b probe : RangeKey}

theorem RangeKey.Apart.symm (h : a.Apart b) : b.Apart a :=
  fun rel hboth => h rel hboth.symm

theorem UpperBound.above_of_le {upper : UpperBound} {a b : ℕ} (hle : a ≤ b)
    (h : upper.above b = true) : upper.above a = true := by
  cases upper with
  | infinity => rfl
  | exclusive bound =>
    simp only [UpperBound.above,decide_eq_true_eq] at h ⊢
    omega

theorem RangeKey.holds_between {key : RangeKey} {a b c : ℕ} (ha : key.holds a) (hc : key.holds c)
    (hab : a ≤ b) (hbc : b ≤ c) : key.holds b :=
  ⟨ha.1.trans hab,UpperBound.above_of_le hbc hc.2⟩

theorem group_eq_iff :
    a.group = b.group ↔ a.direction = b.direction ∧ a.node = b.node ∧ a.relType = b.relType := by
  simp [RangeKey.group]

/-- A directory whose ranges are valid at `sequence` and pairwise apart in each group. -/
structure DirectoryOk (direction : Direction) (sequence : ℕ) (dir : Directory) : Prop where
  sorted : Sorted dir
  direction_eq : ∀ d ∈ dir,d.key.direction = direction
  valid : ∀ d ∈ dir,d.Valid sequence
  apart : ∀ a ∈ dir,∀ b ∈ dir,a ≠ b → a.key.group = b.key.group → a.key.Apart b.key

theorem DirectoryOk.mono {direction : Direction} {sequence later : ℕ} {dir : Directory}
    (h : DirectoryOk direction sequence dir) (hle : sequence ≤ later) :
    DirectoryOk direction later dir :=
  ⟨h.sorted,h.direction_eq,fun d hd => (h.valid d hd).mono hle,h.apart⟩

theorem DirectoryOk.holds_lower {direction : Direction} {sequence : ℕ} {dir : Directory}
    (h : DirectoryOk direction sequence dir) {d : RangeDescriptor} (hd : d ∈ dir) :
    d.key.holds d.key.lower := ⟨Nat.le_refl _,(h.valid d hd).interval⟩

theorem lookupPredecessor_none {dir : Directory}
    (h : lookupPredecessor dir probe = none) : ∀ d ∈ dir,probe.pos < d.key.pos := by
  intro d hd
  rw [lookupPredecessor,getLast?_eq_none_iff,filter_eq_nil_iff] at h
  have := h d hd
  simpa [keyLt_iff] using this

theorem lookupPredecessor_some {dir : Directory} {found : RangeDescriptor}
    (hdir : Sorted dir) (h : lookupPredecessor dir probe = some found) :
    found ∈ dir ∧ found.key.pos ≤ probe.pos ∧
      ∀ d ∈ dir,d.key.pos ≤ probe.pos → d.key.pos ≤ found.key.pos := by
  obtain ⟨front,hfront⟩ := getLast?_eq_some_iff.mp h
  have hmem : found ∈ dir.filter fun d => ¬ KeyLt probe d.key := by
    rw [hfront]
    exact mem_append_right _ mem_cons_self
  rw [mem_filter] at hmem
  refine ⟨hmem.1,by simpa [keyLt_iff] using hmem.2,fun d hd hle => ?_⟩
  have hin : d ∈ front++[found] := by
    rw [← hfront,mem_filter]
    exact ⟨hd,by simpa [keyLt_iff] using hle⟩
  have hsorted : (front++[found]).Pairwise fun a b => a.key.pos < b.key.pos := by
    rw [← hfront]
    exact hdir.filter _
  rcases mem_append.mp hin with hin | hin
  · exact ((pairwise_append.mp hsorted).2.2 d hin found mem_cons_self).le
  · rw [mem_singleton.mp hin]

theorem seek_none {dir : Directory} (h : (seek dir probe).head? = none) :
    ∀ d ∈ dir,d.key.pos < probe.pos := by
  intro d hd
  rw [head?_eq_none_iff,seek,filter_eq_nil_iff] at h
  have := h d hd
  simpa [keyLt_iff] using this

theorem seek_some {dir : Directory} {next : RangeDescriptor}
    (hdir : Sorted dir) (h : (seek dir probe).head? = some next) :
    next ∈ dir ∧ probe.pos ≤ next.key.pos ∧
      ∀ d ∈ dir,probe.pos ≤ d.key.pos → next.key.pos ≤ d.key.pos := by
  obtain ⟨rest,hrest⟩ := head?_eq_some_iff.mp h
  have hmem : next ∈ seek dir probe := by
    rw [hrest]
    exact mem_cons_self
  rw [seek,mem_filter] at hmem
  refine ⟨hmem.1,by simpa [keyLt_iff] using hmem.2,fun d hd hle => ?_⟩
  have hin : d ∈ next::rest := by
    rw [← hrest,seek,mem_filter]
    exact ⟨hd,by simpa [keyLt_iff] using hle⟩
  have hsorted : (next::rest).Pairwise fun a b => a.key.pos < b.key.pos := by
    rw [← hrest]
    exact hdir.filter _
  rcases mem_cons.mp hin with rfl | hin
  · exact le_rfl
  · exact ((pairwise_cons.mp hsorted).1 d hin).le

structure SelectedOk (dir : Directory) (first : Change) (selected : Selected) : Prop where
  group : selected.key.group = first.group
  holds : selected.key.holds first.rel
  old : ∀ d ∈ selected.old,d ∈ dir ∧ d.key = selected.key ∧ d.edges = selected.edges
  gap : selected.old = none → selected.key.lower = first.rel ∧ selected.edges = []
  apart : ∀ d ∈ dir,d.key.group = first.group → selected.old ≠ some d → d.key.Apart selected.key

theorem pos_le_of_group (h : a.group = b.group) : a.pos ≤ b.pos ↔ a.lower ≤ b.lower := by
  obtain ⟨-,hnode,htype⟩ := group_eq_iff.mp h
  simp [RangeKey.pos,Prod.Lex.le_iff,hnode,htype]

theorem group_of_pos_between {c : RangeKey} (hac : a.group = c.group)
    (hdir : b.direction = a.direction) (hab : a.pos ≤ b.pos) (hbc : b.pos ≤ c.pos) :
    b.group = a.group := by
  obtain ⟨-,hnode,htype⟩ := group_eq_iff.mp hac
  rw [group_eq_iff]
  simp only [RangeKey.pos,Prod.Lex.le_iff,ofLex_toLex] at hab hbc
  refine ⟨hdir,?_,?_⟩
  · omega
  · omega

section Select

variable {sequence : ℕ} {dir : Directory} {first : Change}

theorem predecessor_of_holds (hdir : DirectoryOk first.direction sequence dir)
    {d : RangeDescriptor} (hd : d ∈ dir) (hgroup : d.key.group = first.group)
    (hholds : d.key.holds first.rel) : lookupPredecessor dir first.key = some d := by
  have hpos : d.key.pos ≤ first.key.pos := (pos_le_of_group (b := first.key) hgroup).mpr hholds.1
  cases hfound : lookupPredecessor dir first.key with
  | none => exact absurd (lookupPredecessor_none hfound d hd) (not_lt.mpr hpos)
  | some found =>
    obtain ⟨hmem,hle,hlast⟩ := lookupPredecessor_some hdir.sorted hfound
    have hbelow:=hlast d hd hpos
    have hsame : found.key.group = d.key.group :=
      group_of_pos_between (c := first.key) hgroup
        ((hdir.direction_eq found hmem).trans (hdir.direction_eq d hd).symm) hbelow hle
    by_contra hne
    have hdiff : d ≠ found := fun heq => hne (congrArg some heq.symm)
    refine hdir.apart d hd found hmem hdiff hsame.symm found.key.lower ⟨?_,hdir.holds_lower hmem⟩
    exact RangeKey.holds_between (hdir.holds_lower hd) hholds ((pos_le_of_group hsame.symm).mp hbelow)
      ((pos_le_of_group (b := first.key) (hsame.trans hgroup)).mp hle)

theorem selectGap_ok (hdir : DirectoryOk first.direction sequence dir) {selected : Selected}
    (hgap : ∀ d ∈ dir,d.key.group = first.group → ¬ d.key.holds first.rel)
    (h : selectGap dir first = .ok selected) : SelectedOk dir first selected := by
  have hstart : ∀ d ∈ dir,d.key.group = first.group → ∀ rel,d.key.holds rel →
      first.rel ≤ rel → first.key.pos ≤ d.key.pos := by
    intro d hd hgroup rel hholds hle
    apply (pos_le_of_group (a := first.key) hgroup.symm).mpr
    by_contra hlow
    exact hgap d hd hgroup (RangeKey.holds_between (hdir.holds_lower hd) hholds
      (Nat.le_of_lt (Nat.lt_of_not_le hlow)) hle)
  rw [selectGap] at h
  cases hnext : (seek dir first.key).head? with
  | none =>
    rw [hnext] at h
    cases h
    refine ⟨rfl,⟨Nat.le_refl _,rfl⟩,by simp,fun _ => ⟨rfl,rfl⟩,?_⟩
    intro d hd hgroup _ rel hboth
    exact absurd (seek_none hnext d hd) (not_lt.mpr (hstart d hd hgroup rel hboth.1 hboth.2.1))
  | some next =>
    obtain ⟨hmem,hle,hleast⟩ := seek_some hdir.sorted hnext
    simp only [hnext] at h
    split_ifs at h with hgroup hlower
    · cases h
      refine ⟨rfl,⟨Nat.le_refl _,rfl⟩,by simp,fun _ => ⟨rfl,rfl⟩,?_⟩
      intro d hd hsame _ rel hboth
      have hpos:=hstart d hd hsame rel hboth.1 hboth.2.1
      exact hgroup (group_of_pos_between (a := first.key) hsame.symm (hdir.direction_eq next hmem)
        hle (hleast d hd hpos))
    · cases h
      simp only [ne_eq,not_not] at hgroup
      refine ⟨rfl,⟨Nat.le_refl _,?_⟩,by simp,fun _ => ⟨rfl,rfl⟩,?_⟩
      · simpa [UpperBound.above] using hlower
      · intro d hd hsame _ rel hboth
        have hpos:=hstart d hd hsame rel hboth.1 hboth.2.1
        have hafter:=(pos_le_of_group (hgroup.trans hsame.symm)).mp (hleast d hd hpos)
        have habove : rel < next.key.lower := by simpa [UpperBound.above] using hboth.2.2
        have := hboth.1.1
        omega

theorem select_ok (hdir : DirectoryOk first.direction sequence dir) {selected : Selected}
    (h : select sequence dir first = .ok selected) : SelectedOk dir first selected := by
  rw [select] at h
  cases hfound : lookupPredecessor dir first.key with
  | none =>
    rw [hfound] at h
    refine selectGap_ok hdir (fun d hd hgroup hholds => ?_) h
    rw [predecessor_of_holds hdir hd hgroup hholds] at hfound
    cases hfound
  | some candidate =>
    simp only [hfound] at h
    obtain ⟨hmem,hle,-⟩ := lookupPredecessor_some hdir.sorted hfound
    split_ifs at h with hhit
    · obtain ⟨edges,hvalid,hret⟩ := bind_eq_ok h
      cases hret
      have hlower:=(pos_le_of_group (b := first.key) hhit.1).mp hle
      refine ⟨hhit.1,⟨hlower,hhit.2⟩,?_,by simp,?_⟩
      · intro d hd
        cases hd
        exact ⟨hmem,rfl,(validateRange_eq_ok.mp hvalid).2⟩
      · intro d hd hgroup hne
        exact hdir.apart d hd candidate hmem (fun heq => hne (congrArg some heq.symm))
          (hgroup.trans hhit.1.symm)
    · refine selectGap_ok hdir (fun d hd hgroup hholds => ?_) h
      rw [predecessor_of_holds hdir hd hgroup hholds] at hfound
      cases hfound
      exact hhit ⟨hgroup,hholds.2⟩

end Select

variable {key : RangeKey} {edges : List Edge} {edge : Edge} {edit : Edit} {lower base : ℕ}
  {edits : List Edit} {selected : Selected} {incoming : List DeltaEntry}

theorem RangeDescriptor.new_ok {watermark baseCount pending : ℕ} {base : Run}
    {deltas : List Run} {d : RangeDescriptor}
    (h : RangeDescriptor.new key watermark baseCount base deltas pending = .ok d) :
    d = ⟨key,watermark,baseCount,base,deltas,pending⟩ := by
  rw [RangeDescriptor.new] at h
  split_ifs at h
  exact (Except.ok.inj h).symm

def inserts (edges : List Edge) : List DeltaEntry := edges.map fun edge => ⟨edge,.insert⟩

theorem mem_inserts : (⟨edge,.insert⟩ : DeltaEntry) ∈ inserts edges ↔ edge ∈ edges := by
  simp [inserts]

theorem encodeBase_ok {sequence : ℕ} {run : Run}
    (h : Except.mapError mapInner (encodeBase key sequence edges) = .ok run) :
    run = ⟨key,sequence,false,inserts edges⟩ ∧ run.Fits key false :=
  encode_eq_ok.mp (mapError_eq_ok h)

theorem emit_ok {sequence : ℕ} (h : emit sequence key edges = .ok edit) :
    edit = ⟨key,some ⟨key,sequence,edges.length,⟨key,sequence,false,inserts edges⟩,[],0⟩⟩ ∧
      key.upper.above key.lower = true := by
  obtain ⟨base,hbase,h⟩ := bind_eq_ok h
  obtain ⟨d,hnew,hret⟩ := bind_eq_ok h
  cases hret
  obtain ⟨rfl,hfits⟩ := encodeBase_ok hbase
  rw [RangeDescriptor.new_ok hnew]
  exact ⟨rfl,hfits.interval⟩

/-- Bases that cut `[lower, key.upper)` and hold the edges. -/
structure Emission (key : RangeKey) (lower : ℕ) (edges : List Edge) (edits : List Edit) : Prop where
  base_only : ∀ edit ∈ edits,∃ d,edit.value = some d ∧ d.key = edit.key ∧ d.deltas = []
  group : ∀ edit ∈ edits,edit.key.group = key.group
  lower_le : ∀ edit ∈ edits,lower ≤ edit.key.lower ∧ edit.key.holds edit.key.lower
  within : ∀ edit ∈ edits,∀ rel,edit.key.holds rel → key.upper.above rel = true
  apart : edits.Pairwise fun a b => a.key.Apart b.key
  first : ∃ edit ∈ edits,edit.key.lower = lower
  mem : ∀ edge,edge ∈ edges ↔
    ∃ edit ∈ edits,∃ d,edit.value = some d ∧ (⟨edge,.insert⟩ : DeltaEntry) ∈ d.base.entries

theorem Emission.single {sequence : ℕ}
    (h : emit sequence { key with lower := lower } edges = .ok edit) :
    Emission key lower edges [edit] := by
  obtain ⟨rfl,hinterval⟩ := emit_ok h
  constructor
  · simp
  · simp [RangeKey.group]
  · simpa [RangeKey.holds] using hinterval
  · intro edit hedit rel hholds
    rw [mem_singleton.mp hedit] at hholds
    exact hholds.2
  · exact pairwise_singleton ..
  · exact ⟨_,mem_cons_self,rfl⟩
  · intro edge
    simp [mem_inserts]

theorem Emission.cons {sequence : ℕ} {buffer : List Edge} {full : Edit} {rest : List Edit}
    (hfull : emit sequence { key with lower := lower,upper := .exclusive edge.rel } buffer =
      .ok full)
    (habove : key.upper.above edge.rel = true)
    (h : Emission key edge.rel (edge::edges) rest) :
    Emission key lower (buffer++edge::edges) (full::rest) := by
  obtain ⟨rfl,hinterval⟩ := emit_ok hfull
  have hbelow : lower < edge.rel := by simpa [UpperBound.above] using hinterval
  constructor
  · exact forall_mem_cons.mpr ⟨by simp,h.base_only⟩
  · exact forall_mem_cons.mpr ⟨by simp [RangeKey.group],h.group⟩
  · refine forall_mem_cons.mpr ⟨by simpa [RangeKey.holds] using hinterval,?_⟩
    intro edit hedit
    exact ⟨hbelow.le.trans (h.lower_le edit hedit).1,(h.lower_le edit hedit).2⟩
  · refine forall_mem_cons.mpr ⟨fun rel hholds => ?_,h.within⟩
    have hlt : rel < edge.rel := by simpa [UpperBound.above] using hholds.2
    exact UpperBound.above_of_le hlt.le habove
  · apply pairwise_cons.mpr
    refine ⟨fun edit hedit rel hboth => ?_,h.apart⟩
    have hlt : rel < edge.rel := by simpa [UpperBound.above] using hboth.1.2
    have := (h.lower_le edit hedit).1
    have := hboth.2.1
    omega
  · exact ⟨_,mem_cons_self,rfl⟩
  · intro found
    rw [mem_append,h.mem,exists_mem_cons_iff]
    apply or_congr _ Iff.rfl
    simp [mem_inserts]

theorem emitBases_ok {sequence : ℕ} {buffer : List Edge}
    (habove : ∀ edge ∈ edges,key.upper.above edge.rel = true)
    (h : emitBases sequence key lower buffer edges = .ok edits) :
    Emission key lower (buffer++edges) edits := by
  induction edges generalizing lower buffer edits with
  | nil =>
    rw [emitBases] at h
    split_ifs at h
    obtain ⟨last,hlast,hret⟩ := bind_eq_ok h
    cases hret
    rw [append_nil]
    exact Emission.single hlast
  | cons edge edges ih =>
    have hrest : ∀ other ∈ edges,key.upper.above other.rel = true :=
      fun other hother => habove other (mem_cons_of_mem _ hother)
    rw [emitBases] at h
    split_ifs at h
    · obtain ⟨full,hfull,h⟩ := bind_eq_ok h
      obtain ⟨rest,hmore,hret⟩ := bind_eq_ok h
      cases hret
      exact Emission.cons hfull (habove edge mem_cons_self) (ih hrest hmore)
    · have hopen:=ih hrest h
      rwa [append_assoc,singleton_append] at hopen

def puts (edits : List Edit) (d : RangeDescriptor) : Prop := ∃ edit ∈ edits,edit.value = some d

/-- The edits of one interval, at the sequence where its new ranges are valid. -/
structure Updated (sequence : ℕ) (selected : Selected) (incoming : List DeltaEntry)
    (edits : List Edit) : Prop where
  placed : ∀ edit ∈ edits,edit.Placed
  group : ∀ edit ∈ edits,edit.key.group = selected.key.group
  lower : ∀ edit ∈ edits,selected.key.holds edit.key.lower
  within : ∀ d,puts edits d → ∀ rel,d.key.holds rel → selected.key.holds rel
  apart : ∀ a b,puts edits a → puts edits b → a ≠ b → a.key.Apart b.key
  named : selected.old.isSome → ∃ edit ∈ edits,edit.key.pos = selected.key.pos
  combined : ∃ edges,Combines selected.edges incoming edges ∧
    ((∀ d,puts edits d → d.Valid sequence) →
      ∀ edge,edge ∈ edges ↔ ∃ d,puts edits d ∧ edge ∈ d.edges)

theorem SelectedOk.holds_lower {dir : Directory} {first : Change}
    (h : SelectedOk dir first selected) : selected.key.holds selected.key.lower :=
  ⟨Nat.le_refl _,UpperBound.above_of_le h.holds.1 h.holds.2⟩

theorem SelectedOk.ascending {dir : Directory} {first : Change}
    {sequence : ℕ} (hdir : DirectoryOk first.direction sequence dir)
    (h : SelectedOk dir first selected) : AscendingEdges selected.edges := by
  cases hold : selected.old with
  | none =>
    rw [(h.gap hold).2]
    exact .nil
  | some d =>
    obtain ⟨hmem,-,hedges⟩ := h.old d hold
    rw [← hedges]
    exact (hdir.valid d hmem).ascending

theorem SelectedOk.edges_holds {dir : Directory} {first : Change}
    {sequence : ℕ} (hdir : DirectoryOk first.direction sequence dir)
    (h : SelectedOk dir first selected) : ∀ edge ∈ selected.edges,selected.key.holds edge.rel := by
  cases hold : selected.old with
  | none =>
    rw [(h.gap hold).2]
    simp
  | some d =>
    obtain ⟨hmem,hkey,hedges⟩ := h.old d hold
    rw [← hedges,← hkey]
    exact (hdir.valid d hmem).holds

theorem Updated.remove {dir : Directory} {first : Change} {sequence : ℕ}
    {old : RangeDescriptor} (h : SelectedOk dir first selected)
    (hold : selected.old = some old) (hcombined : Combines selected.edges incoming []) :
    Updated sequence selected incoming [removal old] := by
  have hkey:=(h.old old hold).2.1
  have hputs : ∀ d,¬ puts [removal old] d := by
    rintro d ⟨edit,hedit,hvalue⟩
    rw [mem_singleton.mp hedit] at hvalue
    cases hvalue
  constructor
  · intro edit hedit d hd
    rw [mem_singleton.mp hedit] at hd
    cases hd
  · simp [removal,hkey]
  · simpa [removal,hkey] using h.holds_lower
  · exact fun d hd => absurd hd (hputs d)
  · exact fun a b ha => absurd ha (hputs a)
  · exact fun _ => ⟨removal old,mem_cons_self,congrArg RangeKey.pos hkey⟩
  · refine ⟨[],hcombined,fun _ edge => ?_⟩
    constructor
    · exact fun habs => absurd habs not_mem_nil
    · exact fun ⟨d,hd,_⟩ => absurd hd (hputs d)

theorem latest_append_iff {runs : List (List DeltaEntry)} (hincoming : Ascending incoming) :
    latest edge.rel (runs++[incoming]) = some ⟨edge,.insert⟩ ↔
      (latest edge.rel runs = some ⟨edge,.insert⟩ ∧
        ∀ entry ∈ incoming,entry.edge.rel ≠ edge.rel) ∨
      (⟨edge,.insert⟩ : DeltaEntry) ∈ incoming := by
  rw [latest_append,Option.or_eq_some_iff,hincoming.entryAt_iff,entryAt_eq_none]
  constructor
  · rintro (hmem | hold)
    · exact .inr hmem.1
    · exact .inl hold.symm
  · rintro (hold | hmem)
    · exact .inr hold.symm
    · exact .inl ⟨hmem,rfl⟩

theorem Updated.append {dir : Directory} {first : Change}
    (hdir : DirectoryOk first.direction base dir) (h : SelectedOk dir first selected)
    (hincoming : Ascending incoming) (hcombined : Combines selected.edges incoming edges)
    (hedit : appendRun base selected incoming = .ok edit) :
    Updated (base+1) selected incoming [edit] := by
  obtain ⟨run,hrun,hedit⟩ := bind_eq_ok hedit
  obtain ⟨delta,hdelta,hedit⟩ := bind_eq_ok hedit
  obtain ⟨d,hnew,hret⟩ := bind_eq_ok hedit
  cases hret
  have hd:=RangeDescriptor.new_ok hnew
  have hkey : d.key = selected.key := congrArg RangeDescriptor.key hd
  have hentries : delta.entries = incoming := by
    have := mapError_eq_ok hdelta
    rw [encodeDelta,if_neg (Nat.succ_ne_zero base)] at this
    exact congrArg Run.entries (encode_eq_ok.mp this).1
  -- the runs before the batch hold the old edges
  have hruns : ∃ runs,runEntries (d.base::d.deltas) = runs++[incoming] ∧
      ∀ edge : Edge,edge ∈ selected.edges ↔ latest edge.rel runs = some ⟨edge,.insert⟩ := by
    cases hold : selected.old with
    | none =>
      rw [hold] at hrun hd
      rw [hd,(encodeBase_ok hrun).1,(h.gap hold).2]
      exact ⟨[[]],by simp [runEntries,inserts,hentries],by simp [latest,entryAt]⟩
    | some old =>
      rw [hold] at hrun hd
      cases hrun
      obtain ⟨hmem,-,hedges⟩ := h.old old hold
      rw [hd,← hedges]
      exact ⟨runEntries (old.base::old.deltas),by simp [runEntries,hentries],
        (hdir.valid old hmem).walked.2⟩
  have hputs : ∀ found,puts [⟨selected.key,some d⟩] found ↔ found = d := by
    intro found
    simp [puts,eq_comm]
  constructor
  · intro edit hedit found hfound
    rw [mem_singleton.mp hedit] at hfound ⊢
    cases hfound
    exact hkey
  · simp
  · simpa using h.holds_lower
  · intro found hfound rel hholds
    rw [(hputs found).mp hfound,hkey] at hholds
    exact hholds
  · intro a b ha hb hne
    exact absurd (((hputs a).mp ha).trans ((hputs b).mp hb).symm) hne
  · exact fun _ => ⟨_,mem_cons_self,rfl⟩
  · refine ⟨edges,hcombined,fun hvalid edge => ?_⟩
    obtain ⟨runs,hsplit,hold⟩ := hruns
    have hfound : (∃ found,puts [⟨selected.key,some d⟩] found ∧ edge ∈ found.edges) ↔
        edge ∈ d.edges := by
      simp [hputs]
    rw [hfound,(hvalid d ((hputs d).mpr rfl)).walked.2,hsplit,latest_append_iff hincoming,
      hcombined.mem,hold]

theorem Updated.rebuild {dir : Directory} {first : Change}
    (h : SelectedOk dir first selected) (hcombined : Combines selected.edges incoming edges)
    (hedits : Emission selected.key selected.key.lower edges edits) :
    Updated (base+1) selected incoming (selected.old.toList.map removal++edits) := by
  have hremoved : ∀ edit ∈ selected.old.toList.map removal,
      edit.value = none ∧ edit.key = selected.key := by
    intro edit hedit
    obtain ⟨old,hold,rfl⟩ := mem_map.mp hedit
    exact ⟨rfl,(h.old old (Option.mem_toList.mp hold)).2.1⟩
  have hputs : ∀ d,puts (selected.old.toList.map removal++edits) d ↔
      ∃ edit ∈ edits,edit.value = some d := by
    intro d
    constructor
    · rintro ⟨edit,hedit,hvalue⟩
      rcases mem_append.mp hedit with hold | hnew
      · rw [(hremoved edit hold).1] at hvalue
        cases hvalue
      · exact ⟨edit,hnew,hvalue⟩
    · rintro ⟨edit,hedit,hvalue⟩
      exact ⟨edit,mem_append_right _ hedit,hvalue⟩
  have hkeys : ∀ edit ∈ edits,∀ d,edit.value = some d → d.key = edit.key ∧ d.deltas = [] := by
    intro edit hedit d hvalue
    obtain ⟨found,hfound,hkey,hdeltas⟩ := hedits.base_only edit hedit
    rw [hvalue] at hfound
    cases hfound
    exact ⟨hkey,hdeltas⟩
  constructor
  · intro edit hedit d hd
    rcases mem_append.mp hedit with hold | hnew
    · rw [(hremoved edit hold).1] at hd
      cases hd
    · exact (hkeys edit hnew d hd).1
  · intro edit hedit
    rcases mem_append.mp hedit with hold | hnew
    · rw [(hremoved edit hold).2]
    · exact hedits.group edit hnew
  · intro edit hedit
    rcases mem_append.mp hedit with hold | hnew
    · rw [(hremoved edit hold).2]
      exact h.holds_lower
    · obtain ⟨hle,hholds⟩ := hedits.lower_le edit hnew
      exact ⟨hle,hedits.within edit hnew _ hholds⟩
  · intro d hd rel hholds
    obtain ⟨edit,hedit,hvalue⟩ := (hputs d).mp hd
    rw [(hkeys edit hedit d hvalue).1] at hholds
    exact ⟨(hedits.lower_le edit hedit).1.trans hholds.1,hedits.within edit hedit rel hholds⟩
  · intro a b ha hb hne
    obtain ⟨left,hleft,hvalueA⟩ := (hputs a).mp ha
    obtain ⟨right,hright,hvalueB⟩ := (hputs b).mp hb
    rw [(hkeys left hleft a hvalueA).1,(hkeys right hright b hvalueB).1]
    have hsymm : Std.Symm fun x y : Edit => x.key.Apart y.key := ⟨fun x y hxy => hxy.symm⟩
    refine hedits.apart.forall hleft hright ?_
    intro heq
    rw [heq,hvalueB] at hvalueA
    exact hne (Option.some.inj hvalueA).symm
  · intro _
    obtain ⟨edit,hedit,hlower⟩ := hedits.first
    obtain ⟨-,hnode,htype⟩ := group_eq_iff.mp (hedits.group edit hedit)
    exact ⟨edit,mem_append_right _ hedit,pos_eq_iff.mpr ⟨hnode,htype,hlower⟩⟩
  · refine ⟨edges,hcombined,fun hvalid edge => ?_⟩
    rw [hedits.mem]
    have hbase : ∀ d,puts (selected.old.toList.map removal++edits) d →
        (edge ∈ d.edges ↔ (⟨edge,.insert⟩ : DeltaEntry) ∈ d.base.entries) := by
      intro d hd
      obtain ⟨edit,hedit,hvalue⟩ := (hputs d).mp hd
      have hbaseOnly:=(hkeys edit hedit d hvalue).2
      rw [(hvalid d hd).walked.2,hbaseOnly]
      simp only [runEntries,map_cons,map_nil,latest,Option.none_or]
      rw [(hvalid d hd).merged.base_fits.ascending.entryAt_iff]
      simp
    constructor
    · rintro ⟨edit,hedit,d,hvalue,hmem⟩
      have hd:=(hputs d).mpr ⟨edit,hedit,hvalue⟩
      exact ⟨d,hd,(hbase d hd).mpr hmem⟩
    · rintro ⟨d,hd,hmem⟩
      obtain ⟨edit,hedit,hvalue⟩ := (hputs d).mp hd
      exact ⟨edit,hedit,d,hvalue,(hbase d hd).mp hmem⟩

theorem update_ok {dir : Directory} {first : Change}
    (hdir : DirectoryOk first.direction base dir) (h : SelectedOk dir first selected)
    (hincoming : Ascending incoming)
    (hholds : ∀ entry ∈ incoming,selected.key.holds entry.edge.rel)
    (hedits : update base selected incoming = .ok edits) :
    Updated (base+1) selected incoming edits := by
  obtain ⟨survivors,hcombine,hedits⟩ := bind_eq_ok hedits
  have hcombined:=combine_ok (h.ascending hdir) hincoming hcombine
  split_ifs at hedits with hempty hfits
  · rw [List.isEmpty_iff] at hempty
    subst hempty
    cases hold : selected.old with
    | none =>
      rw [hold] at hedits
      cases hedits
    | some old =>
      rw [hold] at hedits
      cases hedits
      exact Updated.remove h hold hcombined
  · obtain ⟨edit,hedit,hret⟩ := bind_eq_ok hedits
    cases hret
    exact Updated.append hdir h hincoming hcombined hedit
  · obtain ⟨bases,hbases,hret⟩ := bind_eq_ok hedits
    cases hret
    have habove : ∀ edge ∈ survivors,selected.key.upper.above edge.rel = true := by
      intro edge hedge
      rcases (hcombined.mem edge).mp hedge with hold | hnew
      · exact (h.edges_holds hdir edge hold.1).2
      · exact (hholds _ hnew).2
    exact Updated.rebuild h hcombined (emitBases_ok habove hbases)

end Zeppelin.GraphStore.Adjacency
