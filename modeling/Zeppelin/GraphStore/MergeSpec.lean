import Zeppelin.GraphStore.Adjacency

namespace Zeppelin.GraphStore.Adjacency
open List

def Ascending (entries : List DeltaEntry) : Prop :=
  entries.Pairwise fun a b => a.edge.rel < b.edge.rel

def AscendingEdges (edges : List Edge) : Prop := edges.Pairwise fun a b => a.rel < b.rel

def entryAt (rel : ℕ) (entries : List DeltaEntry) : Option DeltaEntry :=
  entries.find? fun entry => entry.edge.rel = rel

def latest (rel : ℕ) : List (List DeltaEntry) → Option DeltaEntry
  | [] => none
  | run::runs => (latest rel runs).or (entryAt rel run)

variable {rel : ℕ} {entries incoming : List DeltaEntry} {entry : DeltaEntry}
  {runs : List (List DeltaEntry)} {cursors : List Cursor} {cursor : Cursor} {edges old : List Edge}

theorem entryAt_rel (h : entryAt rel entries = some entry) : entry.edge.rel = rel := by
  have := find?_some h
  simpa using this

theorem entryAt_mem
    (h : entryAt rel entries = some entry) : entry ∈ entries := mem_of_find?_eq_some h

theorem entryAt_eq_none : entryAt rel entries = none ↔ ∀ entry ∈ entries,entry.edge.rel ≠ rel := by
  simp [entryAt]

theorem entryAt_cons (rel : ℕ) (head : DeltaEntry) (tail : List DeltaEntry) :
    entryAt rel (head::tail) = if head.edge.rel = rel then some head else entryAt rel tail := by
  rw [entryAt,find?_cons]
  by_cases h : head.edge.rel = rel
  · simp [h]
  · simp [h,entryAt]

variable {head : DeltaEntry} {last : Option (DeltaEntry × ℕ)} {edge : Edge} {fuel : ℕ}

theorem Ascending.head_lt {tail : List DeltaEntry}
    (h : Ascending (head::tail)) : ∀ entry ∈ tail,head.edge.rel < entry.edge.rel :=
  (pairwise_cons.mp h).1

theorem Ascending.tail {tail : List DeltaEntry}
    (h : Ascending (head::tail)) : Ascending tail := (pairwise_cons.mp h).2

theorem Ascending.entryAt_of_mem (h : Ascending entries) (hmem : entry ∈ entries) :
    entryAt entry.edge.rel entries = some entry := by
  induction entries with
  | nil => cases hmem
  | cons head tail ih =>
    rw [entryAt_cons]
    cases hmem with
    | head => rw [if_pos rfl]
    | tail _ hmem =>
      rw [if_neg (Nat.ne_of_lt (h.head_lt entry hmem))]
      exact ih h.tail hmem

theorem Ascending.entryAt_iff (h : Ascending entries) :
    entryAt rel entries = some entry ↔ entry ∈ entries ∧ entry.edge.rel = rel := by
  constructor
  · intro hentry
    exact ⟨entryAt_mem hentry,entryAt_rel hentry⟩
  · intro hmem
    rw [← hmem.2]
    exact h.entryAt_of_mem hmem.1

theorem latest_append (rel : ℕ) (runs : List (List DeltaEntry)) (run : List DeltaEntry) :
    latest rel (runs++[run]) = (entryAt rel run).or (latest rel runs) := by
  induction runs with
  | nil => simp [latest]
  | cons first runs ih => rw [cons_append,latest,latest,ih,Option.or_assoc]

theorem latest_rel (h : latest rel runs = some entry) : entry.edge.rel = rel := by
  induction runs with
  | nil => cases h
  | cons run runs ih =>
    rw [latest,Option.or_eq_some_iff] at h
    rcases h with h | h
    · exact ih h
    · exact entryAt_rel h.2

theorem latest_mem (h : latest rel runs = some entry) : ∃ run ∈ runs,entry ∈ run := by
  induction runs with
  | nil => cases h
  | cons run runs ih =>
    rw [latest,Option.or_eq_some_iff] at h
    rcases h with h | h
    · obtain ⟨found,hmem,hentry⟩ := ih h
      exact ⟨found,mem_cons_of_mem _ hmem,hentry⟩
    · exact ⟨run,mem_cons_self,entryAt_mem h.2⟩

def Cursor.advance (rel : ℕ) (cursor : Cursor) : Cursor :=
  match cursor.left with
  | [] => cursor
  | head::tail => if head.edge.rel = rel then ⟨cursor.sequence,tail⟩ else cursor

def front (rel : ℕ) (cursors : List Cursor) : Option DeltaEntry :=
  latest rel (cursors.map fun cursor => cursor.left.head?.toList)

def lefts (cursors : List Cursor) : List (List DeltaEntry) := cursors.map Cursor.left

theorem takeLatest_ok {start : Option (DeltaEntry × ℕ)}
    {moved : List Cursor} (h : takeLatest rel start cursors = .ok (last,moved)) :
    moved = cursors.map (Cursor.advance rel) ∧
      last.map Prod.fst = (front rel cursors).or (start.map Prod.fst) := by
  induction cursors generalizing start last moved with
  | nil =>
    cases h
    exact ⟨rfl,rfl⟩
  | cons cursor cursors ih =>
    obtain ⟨sequence,left⟩ := cursor
    cases left with
    | nil =>
      obtain ⟨⟨last',moved'⟩,hrest,hret⟩ := bind_eq_ok h
      cases hret
      have := ih hrest
      simp [Cursor.advance,front,latest,entryAt,this.1,this.2]
    | cons head tail =>
      by_cases hhead : head.edge.rel = rel
      · simp only [takeLatest,ne_eq,hhead,not_true_eq_false,if_false] at h
        obtain ⟨-,-,h⟩ := bind_eq_ok h
        obtain ⟨⟨last',moved'⟩,hrest,hret⟩ := bind_eq_ok h
        cases hret
        have := ih hrest
        simp only [front] at this
        simp [Cursor.advance,front,latest,entryAt,this.1,this.2,hhead]
      · simp only [takeLatest,ne_eq,hhead,not_false_eq_true,if_true] at h
        obtain ⟨⟨last',moved'⟩,hrest,hret⟩ := bind_eq_ok h
        cases hret
        have := ih hrest
        simp only [front] at this
        simp [Cursor.advance,front,latest,entryAt,this.1,this.2,hhead]

theorem minRel_eq_none (h : minRel cursors = none) : ∀ cursor ∈ cursors,cursor.left = [] := by
  induction cursors with
  | nil => simp
  | cons cursor cursors ih =>
    obtain ⟨sequence,left⟩ := cursor
    cases left with
    | nil => simpa using ih h
    | cons head tail =>
      rw [minRel] at h
      cases hrest : minRel cursors with
      | none => simp [hrest] at h
      | some rel => simp [hrest] at h

theorem minRel_eq_some (h : minRel cursors = some rel) :
    (∀ cursor ∈ cursors,∀ head ∈ cursor.left.head?,rel ≤ head.edge.rel) ∧
      ∃ cursor ∈ cursors,∃ head ∈ cursor.left.head?,head.edge.rel = rel := by
  induction cursors generalizing rel with
  | nil => cases h
  | cons cursor cursors ih =>
    obtain ⟨sequence,left⟩ := cursor
    cases left with
    | nil =>
      obtain ⟨hall,hat⟩ := ih h
      constructor
      · simpa using hall
      · simpa using hat
    | cons head tail =>
      rw [minRel] at h
      cases hrest : minRel cursors with
      | none =>
        simp only [hrest,Option.some.injEq] at h
        have hempty:=minRel_eq_none hrest
        constructor
        · intro c hc entry hentry
          rcases mem_cons.mp hc with rfl | hc
          · simp only [head?_cons,Option.mem_def,Option.some.injEq] at hentry
            rw [← hentry,h]
          · simp [hempty c hc] at hentry
        · exact ⟨_,mem_cons_self,head,rfl,h⟩
      | some least =>
        simp only [hrest,Option.some.injEq] at h
        obtain ⟨hall,c,hc,first,hfirst,hat⟩ := ih hrest
        constructor
        · intro c hc entry hentry
          rcases mem_cons.mp hc with rfl | hc
          · simp only [head?_cons,Option.mem_def,Option.some.injEq] at hentry
            rw [← hentry]
            omega
          · have := hall c hc entry hentry
            omega
        · rcases Nat.le_total head.edge.rel least with hle | hle
          · exact ⟨_,mem_cons_self,head,rfl,by omega⟩
          · exact ⟨c,mem_cons_of_mem _ hc,first,hfirst,by omega⟩

/-- No entry of the cursor is below `rel`, and its entries ascend. -/
structure Cursor.From (rel : ℕ) (cursor : Cursor) : Prop where
  ascending : Ascending cursor.left
  bound : ∀ head ∈ cursor.left.head?,rel ≤ head.edge.rel

theorem Cursor.From.le (h : cursor.From rel) : ∀ entry ∈ cursor.left,rel ≤ entry.edge.rel := by
  obtain ⟨sequence,left⟩ := cursor
  intro entry hentry
  cases left with
  | nil => cases hentry
  | cons head tail =>
    have hhead:=h.bound head rfl
    rcases mem_cons.mp hentry with rfl | htail
    · exact hhead
    · exact hhead.trans (Nat.le_of_lt (h.ascending.head_lt entry htail))

theorem Cursor.From.front_eq (h : cursor.From rel) :
    entryAt rel cursor.left.head?.toList = entryAt rel cursor.left := by
  obtain ⟨sequence,left⟩ := cursor
  cases left with
  | nil => rfl
  | cons head tail =>
    have hnone : head.edge.rel ≠ rel → entryAt rel tail = none := by
      intro hne
      apply entryAt_eq_none.mpr
      intro entry hentry
      have hhead:=h.bound head rfl
      have htail:=h.ascending.head_lt entry hentry
      omega
    simp only [head?_cons,Option.toList_some,entryAt_cons]
    split_ifs with hat
    · rfl
    · rw [hnone hat]
      rfl

theorem Cursor.From.entryAt_advance (h : cursor.From rel) (r : ℕ) :
    entryAt r (cursor.advance rel).left = if r = rel then none else entryAt r cursor.left := by
  obtain ⟨sequence,left⟩ := cursor
  cases left with
  | nil => simp [Cursor.advance,entryAt]
  | cons head tail =>
    have hhead:=h.bound head rfl
    have htail:=h.ascending.head_lt
    by_cases hat : head.edge.rel = rel
    · simp only [Cursor.advance,if_pos hat]
      by_cases hr : r = rel
      · rw [if_pos hr]
        apply entryAt_eq_none.mpr
        intro entry hentry
        have := htail entry hentry
        omega
      · rw [if_neg hr,entryAt_cons,if_neg (by omega)]
    · simp only [Cursor.advance,if_neg hat]
      split_ifs with hr
      · apply entryAt_eq_none.mpr
        intro entry hentry
        have := h.le entry hentry
        rcases mem_cons.mp hentry with rfl | hmem
        · omega
        · have := htail entry hmem
          omega
      · rfl

theorem Cursor.From.advance (h : cursor.From rel) : (cursor.advance rel).From (rel+1) := by
  obtain ⟨sequence,left⟩ := cursor
  cases left with
  | nil => exact ⟨h.ascending,by simp [Cursor.advance]⟩
  | cons head tail =>
    have hhead:=h.bound head rfl
    by_cases hat : head.edge.rel = rel
    · rw [Cursor.advance]
      simp only [if_pos hat]
      refine ⟨h.ascending.tail,fun entry hentry => ?_⟩
      have := h.ascending.head_lt entry (mem_of_mem_head? hentry)
      omega
    · rw [Cursor.advance]
      simp only [if_neg hat]
      refine ⟨h.ascending,fun entry hentry => ?_⟩
      have := h.bound entry hentry
      simp only [head?_cons,Option.mem_def,Option.some.injEq] at hentry
      subst hentry
      omega

theorem front_eq_latest
    (h : ∀ cursor ∈ cursors,cursor.From rel) : front rel cursors = latest rel (lefts cursors) := by
  induction cursors with
  | nil => rfl
  | cons cursor cursors ih =>
    have hrest:=ih fun c hc => h c (mem_cons_of_mem _ hc)
    simp only [front,lefts,map_cons,latest] at hrest ⊢
    rw [hrest,(h cursor mem_cons_self).front_eq]

theorem latest_advance (h : ∀ cursor ∈ cursors,cursor.From rel) (r : ℕ) :
    latest r (lefts (cursors.map (Cursor.advance rel))) =
      if r = rel then none else latest r (lefts cursors) := by
  induction cursors with
  | nil => simp [lefts,latest]
  | cons cursor cursors ih =>
    have hrest:=ih fun c hc => h c (mem_cons_of_mem _ hc)
    simp only [lefts,map_cons,latest] at hrest ⊢
    rw [hrest,(h cursor mem_cons_self).entryAt_advance]
    split_ifs
    · rfl
    · rfl

theorem Cursor.advance_length_le (rel : ℕ) (cursor : Cursor) :
    (cursor.advance rel).left.length ≤ cursor.left.length := by
  obtain ⟨sequence,left⟩ := cursor
  cases left with
  | nil => simp [Cursor.advance]
  | cons head tail =>
    simp only [Cursor.advance]
    split_ifs
    · simp
    · simp

theorem entryCount_advance_le (rel : ℕ) (cursors : List Cursor) :
    entryCount (cursors.map (Cursor.advance rel)) ≤ entryCount cursors := by
  induction cursors with
  | nil => simp
  | cons cursor cursors ih =>
    have := cursor.advance_length_le rel
    simp only [entryCount,map_cons,sum_cons] at ih ⊢
    omega

theorem entryCount_advance_lt
    (h : ∃ cursor ∈ cursors,∃ head ∈ cursor.left.head?,head.edge.rel = rel) :
    entryCount (cursors.map (Cursor.advance rel)) < entryCount cursors := by
  induction cursors with
  | nil => simp at h
  | cons cursor cursors ih =>
    have hle:=cursor.advance_length_le rel
    have hrest:=entryCount_advance_le rel cursors
    obtain ⟨c,hc,head,hhead,hat⟩ := h
    rcases mem_cons.mp hc with rfl | hc
    · obtain ⟨sequence,left⟩ := c
      cases left with
      | nil => cases hhead
      | cons first tail =>
        simp only [head?_cons,Option.mem_def,Option.some.injEq] at hhead
        subst hhead
        simp only [entryCount,map_cons,sum_cons,Cursor.advance,if_pos hat,
          length_cons] at hrest ⊢
        omega
    · have := ih ⟨c,hc,head,hhead,hat⟩
      simp only [entryCount,map_cons,sum_cons] at this hrest ⊢
      omega

theorem emitted_mem : edge ∈ emitted last ↔ last.map Prod.fst = some ⟨edge,.insert⟩ := by
  cases last with
  | none => simp [emitted]
  | some winner =>
    obtain ⟨⟨found,action⟩,sequence⟩ := winner
    cases action with
    | insert => simp [emitted,eq_comm]
    | delete => simp [emitted]

theorem emitted_pairwise (last : Option (DeltaEntry × ℕ)) : AscendingEdges (emitted last) := by
  unfold AscendingEdges
  cases last with
  | none => exact .nil
  | some winner =>
    rw [emitted]
    split_ifs
    · exact pairwise_singleton ..
    · exact .nil

theorem latest_of_empty (h : ∀ run ∈ runs,run = []) (rel : ℕ) : latest rel runs = none := by
  cases hlatest : latest rel runs with
  | none => rfl
  | some entry =>
    obtain ⟨run,hrun,hentry⟩ := latest_mem hlatest
    rw [h run hrun] at hentry
    cases hentry

/-- By induction on the fuel: a round decides the least relationship that is left and
leaves the others as they were. -/
theorem walkFrom_ok {bound : ℕ}
    (hfuel : entryCount cursors ≤ fuel) (hfrom : ∀ cursor ∈ cursors,cursor.From bound)
    (h : walkFrom fuel cursors = .ok edges) :
    AscendingEdges edges ∧ (∀ edge ∈ edges,bound ≤ edge.rel) ∧
      ∀ edge,edge ∈ edges ↔ latest edge.rel (lefts cursors) = some ⟨edge,.insert⟩ := by
  induction fuel generalizing cursors edges bound with
  | zero =>
    cases h
    have hempty : ∀ run ∈ lefts cursors,run = [] := by
      intro run hrun
      obtain ⟨cursor,hcursor,rfl⟩ := mem_map.mp hrun
      rw [entryCount,Nat.le_zero,List.sum_eq_zero_iff_forall_eq_nat] at hfuel
      exact length_eq_zero_iff.mp (hfuel _ (mem_map.mpr ⟨cursor,hcursor,rfl⟩))
    refine ⟨.nil,by simp,fun edge => ?_⟩
    simp [latest_of_empty hempty]
  | succ fuel ih =>
    rw [walkFrom] at h
    cases hmin : minRel cursors with
    | none =>
      rw [hmin] at h
      cases h
      have hempty : ∀ run ∈ lefts cursors,run = [] := by
        intro run hrun
        obtain ⟨cursor,hcursor,rfl⟩ := mem_map.mp hrun
        exact minRel_eq_none hmin cursor hcursor
      refine ⟨.nil,by simp,fun edge => ?_⟩
      simp [latest_of_empty hempty]
    | some rel =>
      simp only [hmin] at h
      obtain ⟨⟨last,moved⟩,htake,h⟩ := bind_eq_ok h
      obtain ⟨rest,hrest,hret⟩ := bind_eq_ok h
      cases hret
      obtain ⟨hleast,hat⟩ := minRel_eq_some hmin
      have hrel : ∀ cursor ∈ cursors,cursor.From rel :=
        fun cursor hc => ⟨(hfrom cursor hc).ascending,hleast cursor hc⟩
      obtain ⟨rfl,hlast⟩ := takeLatest_ok htake
      rw [front_eq_latest hrel,Option.map_none,Option.or_none] at hlast
      have hcount:=entryCount_advance_lt hat
      have hmoved : ∀ cursor ∈ cursors.map (Cursor.advance rel),cursor.From (rel+1) := by
        intro cursor hc
        obtain ⟨old,hold,rfl⟩ := mem_map.mp hc
        exact (hrel old hold).advance
      obtain ⟨hsorted,hbound,hmem⟩ := ih (by omega) hmoved hrest
      have hfirst : ∀ edge ∈ emitted last,edge.rel = rel := by
        intro edge hedge
        rw [emitted_mem,hlast] at hedge
        exact latest_rel hedge
      have hbelow : bound ≤ rel := by
        obtain ⟨cursor,hc,head,hhead,rfl⟩ := hat
        exact (hfrom cursor hc).bound head hhead
      refine ⟨?_,?_,fun edge => ?_⟩
      · apply pairwise_append.mpr
        refine ⟨emitted_pairwise last,hsorted,fun a ha b hb => ?_⟩
        have := hfirst a ha
        have := hbound b hb
        omega
      · intro edge hedge
        rcases mem_append.mp hedge with hedge | hedge
        · exact hbelow.trans (Nat.le_of_eq (hfirst edge hedge).symm)
        · have := hbound edge hedge
          omega
      · rw [mem_append,hmem,emitted_mem,hlast,latest_advance hrel]
        by_cases heq : edge.rel = rel
        · simp [heq]
        · simp only [heq,if_false]
          refine ⟨fun hor => hor.resolve_left fun habs => heq ?_,Or.inr⟩
          exact latest_rel habs

def runEntries (runs : List Run) : List (List DeltaEntry) := runs.map Run.entries

theorem walk_ok {runs : List Run}
    (hruns : ∀ run ∈ runs,Ascending run.entries) (h : walk runs = .ok edges) :
    AscendingEdges edges ∧
      ∀ edge,edge ∈ edges ↔ latest edge.rel (runEntries runs) = some ⟨edge,.insert⟩ := by
  rw [walk] at h
  have hfrom : ∀ cursor ∈ runs.map fun run => (⟨run.sequence,run.entries⟩ : Cursor),
      cursor.From 0 := by
    intro cursor hc
    obtain ⟨run,hrun,rfl⟩ := mem_map.mp hc
    exact ⟨hruns run hrun,fun _ _ => Nat.zero_le _⟩
  obtain ⟨hsorted,-,hmem⟩ := walkFrom_ok (Nat.le_refl _) hfrom h
  refine ⟨hsorted,fun edge => ?_⟩
  rw [hmem,lefts,map_map]
  rfl

structure Combines (old : List Edge) (incoming : List DeltaEntry) (edges : List Edge) : Prop where
  ascending : AscendingEdges edges
  mem : ∀ edge,edge ∈ edges ↔
    (edge ∈ old ∧ ∀ entry ∈ incoming,entry.edge.rel ≠ edge.rel) ∨
      (⟨edge,.insert⟩ : DeltaEntry) ∈ incoming
  delete_mem : ∀ entry ∈ incoming,entry.action = .delete → entry.edge ∈ old
  insert_absent : ∀ entry ∈ incoming,entry.action = .insert → ∀ edge ∈ old,
    edge.rel ≠ entry.edge.rel

theorem AscendingEdges.head_lt {head : Edge} {tail : List Edge}
    (h : AscendingEdges (head::tail)) : ∀ edge ∈ tail,head.rel < edge.rel :=
  (pairwise_cons.mp h).1

theorem AscendingEdges.tail {head : Edge} {tail : List Edge}
    (h : AscendingEdges (head::tail)) : AscendingEdges tail := (pairwise_cons.mp h).2

theorem Combines.insert (h : Combines old incoming edges) (haction : entry.action = .insert)
    (hold : ∀ edge ∈ old,entry.edge.rel < edge.rel)
    (hincoming : ∀ other ∈ incoming,entry.edge.rel < other.edge.rel) :
    Combines old (entry::incoming) (entry.edge::edges) := by
  obtain ⟨edge,action⟩ := entry
  simp only at haction hold hincoming
  subst haction
  constructor
  · apply pairwise_cons.mpr
    refine ⟨fun other hother => ?_,h.ascending⟩
    rcases (h.mem other).mp hother with hmem | hmem
    · exact hold other hmem.1
    · exact hincoming _ hmem
  · intro other
    rw [mem_cons,h.mem,mem_cons]
    constructor
    · rintro (rfl | hmem | hmem)
      · exact .inr (.inl rfl)
      · refine .inl ⟨hmem.1,fun found hfound => ?_⟩
        rcases mem_cons.mp hfound with rfl | hfound
        · exact Nat.ne_of_lt (hold other hmem.1)
        · exact hmem.2 found hfound
      · exact .inr (.inr hmem)
    · rintro (hmem | hmem | hmem)
      · exact .inr (.inl ⟨hmem.1,fun found hfound => hmem.2 found (mem_cons_of_mem _ hfound)⟩)
      · exact .inl (DeltaEntry.mk.inj hmem).1
      · exact .inr (.inr hmem)
  · intro found hfound hdelete
    rcases mem_cons.mp hfound with rfl | hfound
    · cases hdelete
    · exact h.delete_mem found hfound hdelete
  · intro found hfound hinsert other hother
    rcases mem_cons.mp hfound with rfl | hfound
    · exact Nat.ne_of_gt (hold other hother)
    · exact h.insert_absent found hfound hinsert other hother

theorem Combines.keep (h : Combines old incoming edges) (hold : ∀ other ∈ old,edge.rel < other.rel)
    (hincoming : ∀ entry ∈ incoming,edge.rel < entry.edge.rel) :
    Combines (edge::old) incoming (edge::edges) := by
  constructor
  · apply pairwise_cons.mpr
    refine ⟨fun other hother => ?_,h.ascending⟩
    rcases (h.mem other).mp hother with hmem | hmem
    · exact hold other hmem.1
    · exact hincoming _ hmem
  · intro other
    rw [mem_cons,h.mem,mem_cons]
    constructor
    · rintro (rfl | hmem | hmem)
      · exact .inl ⟨.inl rfl,fun entry hentry => Nat.ne_of_gt (hincoming entry hentry)⟩
      · exact .inl ⟨.inr hmem.1,hmem.2⟩
      · exact .inr hmem
    · rintro (⟨rfl | hmem,hfree⟩ | hmem)
      · exact .inl rfl
      · exact .inr (.inl ⟨hmem,hfree⟩)
      · exact .inr (.inr hmem)
  · intro entry hentry hdelete
    exact mem_cons_of_mem _ (h.delete_mem entry hentry hdelete)
  · intro entry hentry hinsert other hother
    rcases mem_cons.mp hother with rfl | hother
    · exact Nat.ne_of_lt (hincoming entry hentry)
    · exact h.insert_absent entry hentry hinsert other hother

theorem Combines.delete (h : Combines old incoming edges) (haction : entry.action = .delete)
    (hold : ∀ edge ∈ old,entry.edge.rel < edge.rel)
    (hincoming : ∀ other ∈ incoming,entry.edge.rel < other.edge.rel) :
    Combines (entry.edge::old) (entry::incoming) edges := by
  obtain ⟨edge,action⟩ := entry
  simp only at haction hold hincoming
  subst haction
  constructor
  · exact h.ascending
  · intro other
    rw [h.mem,mem_cons,mem_cons]
    constructor
    · rintro (hmem | hmem)
      · refine .inl ⟨.inr hmem.1,fun found hfound => ?_⟩
        rcases mem_cons.mp hfound with rfl | hfound
        · exact Nat.ne_of_lt (hold other hmem.1)
        · exact hmem.2 found hfound
      · exact .inr (.inr hmem)
    · rintro (⟨rfl | hmem,hfree⟩ | hmem | hmem)
      · exact absurd rfl (hfree _ mem_cons_self)
      · exact .inl ⟨hmem,fun found hfound => hfree found (mem_cons_of_mem _ hfound)⟩
      · cases hmem
      · exact .inr hmem
  · intro found hfound hdelete
    rcases mem_cons.mp hfound with rfl | hfound
    · exact mem_cons_self
    · exact mem_cons_of_mem _ (h.delete_mem found hfound hdelete)
  · intro found hfound hinsert other hother
    rcases mem_cons.mp hfound with rfl | hin
    · cases hinsert
    · rcases mem_cons.mp hother with rfl | hother
      · exact Nat.ne_of_lt (hincoming found hin)
      · exact h.insert_absent found hin hinsert other hother

theorem Action.eq_insert_of_ne {action : Action} (h : ¬ action ≠ .insert) : action = .insert := by
  simpa using h

theorem combineFrom_ok (hold : AscendingEdges old) (hincoming : Ascending incoming)
    (h : combineFrom fuel old incoming = .ok edges) : Combines old incoming edges := by
  induction fuel generalizing old incoming edges with
  | zero =>
    cases incoming with
    | cons entry incoming => cases h
    | nil =>
      cases h
      exact ⟨hold,by simp,by simp,by simp⟩
  | succ fuel ih =>
    cases incoming with
    | nil =>
      cases h
      exact ⟨hold,by simp,by simp,by simp⟩
    | cons entry incoming =>
      cases old with
      | nil =>
        rw [combineFrom] at h
        split_ifs at h with haction
        obtain ⟨rest,hrest,hret⟩ := bind_eq_ok h
        cases hret
        exact (ih hold hincoming.tail hrest).insert (Action.eq_insert_of_ne haction) (by simp)
          hincoming.head_lt
      | cons edge old =>
        rw [combineFrom] at h
        split_ifs at h with hlt haction hgt hbad
        · obtain ⟨rest,hrest,hret⟩ := bind_eq_ok h
          cases hret
          refine (ih hold hincoming.tail hrest).insert (Action.eq_insert_of_ne haction) ?_
            hincoming.head_lt
          intro other hother
          rcases mem_cons.mp hother with rfl | hother
          · exact hlt
          · exact hlt.trans (hold.head_lt other hother)
        · obtain ⟨rest,hrest,hret⟩ := bind_eq_ok h
          cases hret
          refine (ih hold.tail hincoming hrest).keep hold.head_lt ?_
          intro other hother
          rcases mem_cons.mp hother with rfl | hother
          · exact hgt
          · exact hgt.trans (hincoming.head_lt other hother)
        · have hedge : edge = entry.edge := by
            obtain ⟨rel,neighbor⟩ := edge
            obtain ⟨⟨rel',neighbor'⟩,action⟩ := entry
            simp only [not_lt,not_or,ne_eq,not_not] at hlt hgt hbad
            rw [Nat.le_antisymm hlt hgt,hbad.1]
          subst hedge
          have haction : entry.action = .delete := by simpa using (not_or.mp hbad).2
          exact (ih hold.tail hincoming.tail h).delete haction hold.head_lt hincoming.head_lt

theorem combine_ok (hold : AscendingEdges old) (hincoming : Ascending incoming)
    (h : combine old incoming = .ok edges) : Combines old incoming edges :=
  combineFrom_ok hold hincoming h

end Zeppelin.GraphStore.Adjacency
