import Mathlib.Data.List.Pairwise
import Zeppelin.GraphStore.MergeSpec

namespace Zeppelin.GraphStore.Adjacency
open List

abbrev Seen := DeltaEntry × ℕ

def Agrees (x y : Seen) : Prop :=
  x.1.edge.neighbor = y.1.edge.neighbor ∧ (x.2 = y.2 → x.1.action = y.1.action)

theorem agree_eq_ok {latest : Option Seen} {head : DeltaEntry} {sequence : ℕ} :
    agree latest head sequence = .ok () ↔ ∀ x ∈ latest,Agrees x (head,sequence) := by
  cases latest with
  | none => simp [agree]
  | some x =>
    obtain ⟨old,oldSequence⟩ := x
    simp only [agree,Agrees,Option.mem_def,Option.some.injEq,forall_eq']
    by_cases hneighbor : old.edge.neighbor = head.edge.neighbor
    · rw [if_neg (not_not.mpr hneighbor)]
      by_cases hconflict : oldSequence = sequence ∧ old.action ≠ head.action
      · simp [hconflict]
      · simp only [if_neg hconflict,hneighbor,true_and,true_iff]
        intro hsequence
        by_contra haction
        exact hconflict ⟨hsequence,haction⟩
    · simp [hneighbor]

def headsAt (rel : ℕ) (cursors : List Cursor) : List Seen :=
  cursors.filterMap fun c => (entryAt rel c.left.head?.toList).map fun e => (e,c.sequence)

def seenAt (rel : ℕ) (cursors : List Cursor) : List Seen :=
  cursors.filterMap fun c => (entryAt rel c.left).map fun e => (e,c.sequence)

theorem headsAt_cons_nil (rel sequence : ℕ) (cursors : List Cursor) :
    headsAt rel (⟨sequence,[]⟩::cursors) = headsAt rel cursors := rfl

theorem headsAt_cons_at {rel sequence : ℕ} {head : DeltaEntry} {tail : List DeltaEntry}
    (cursors : List Cursor) (h : head.edge.rel = rel) :
    headsAt rel (⟨sequence,head::tail⟩::cursors) =
      (head,sequence)::headsAt rel cursors := by
  simp [headsAt,entryAt,h]

theorem headsAt_cons_off {rel sequence : ℕ} {head : DeltaEntry} {tail : List DeltaEntry}
    (cursors : List Cursor) (h : head.edge.rel ≠ rel) :
    headsAt rel (⟨sequence,head::tail⟩::cursors) = headsAt rel cursors := by
  simp [headsAt,entryAt,h]

theorem exists_map_ok {ε α β : Type} {x : Except ε α} {f : α → β} :
    (∃ b,(do let a ← x; return f a) = Except.ok b) ↔ ∃ a,x = .ok a := by
  cases x with
  | error e => exact ⟨fun ⟨_,h⟩ => (nomatch h),fun ⟨_,h⟩ => (nomatch h)⟩
  | ok a => exact ⟨fun _ => ⟨a,rfl⟩,fun _ => ⟨f a,rfl⟩⟩

theorem takeLatest_exists {rel : ℕ} {start : Option Seen} {cursors : List Cursor} :
    (∃ result,takeLatest rel start cursors = .ok result) ↔
      (start.toList++headsAt rel cursors).IsChain Agrees := by
  induction cursors generalizing start with
  | nil =>
    cases start with
    | none => simp [takeLatest,headsAt]
    | some x => simp [takeLatest,headsAt]
  | cons cursor cursors ih =>
    obtain ⟨sequence,left⟩ := cursor
    cases left with
    | nil =>
      rw [headsAt_cons_nil,← ih,takeLatest]
      exact exists_map_ok
    | cons head tail =>
      by_cases hat : head.edge.rel = rel
      · rw [headsAt_cons_at cursors hat]
        simp only [takeLatest,ne_eq,hat,not_true_eq_false,if_false]
        have hrest:=@ih (some (head,sequence))
        rw [Option.toList_some,singleton_append] at hrest
        cases hagree : agree start head sequence with
        | error e =>
          simp only [error_bind,reduceCtorEq,exists_false,false_iff]
          intro hchain
          have hall : ∀ x ∈ start,Agrees x (head,sequence) := by
            intro x hx
            rw [Option.mem_def.mp hx,Option.toList_some,singleton_append,
              isChain_cons_cons] at hchain
            exact hchain.1
          rw [agree_eq_ok.mpr hall] at hagree
          cases hagree
        | ok u =>
          rw [ok_bind,exists_map_ok (x := takeLatest rel (some (head,sequence)) cursors),hrest]
          have hall:=agree_eq_ok.mp hagree
          cases start with
          | none => rw [Option.toList_none,nil_append]
          | some x =>
            rw [Option.toList_some,singleton_append,isChain_cons_cons]
            exact ⟨fun h => ⟨hall x rfl,h⟩,fun h => h.2⟩
      · rw [headsAt_cons_off cursors hat,← ih]
        simp only [takeLatest,ne_eq,hat,not_false_eq_true,if_true]
        exact exists_map_ok

theorem headsAt_eq_seenAt {rel : ℕ} {cursors : List Cursor}
    (h : ∀ cursor ∈ cursors,cursor.From rel) : headsAt rel cursors = seenAt rel cursors := by
  apply filterMap_congr
  intro cursor hcursor
  rw [(h cursor hcursor).front_eq]

theorem Cursor.advance_sequence (rel : ℕ) (cursor : Cursor) :
    (cursor.advance rel).sequence = cursor.sequence := by
  obtain ⟨sequence,left⟩ := cursor
  cases left with
  | nil => rfl
  | cons head tail =>
    rw [Cursor.advance]
    dsimp only
    split_ifs
    · rfl
    · rfl

theorem seenAt_advance {rel : ℕ} {cursors : List Cursor}
    (h : ∀ cursor ∈ cursors,cursor.From rel) (r : ℕ) :
    seenAt r (cursors.map (Cursor.advance rel)) = if r = rel then [] else seenAt r cursors := by
  rw [seenAt,filterMap_map]
  by_cases hr : r = rel
  · rw [if_pos hr]
    apply filterMap_eq_nil_iff.mpr
    intro cursor hcursor
    rw [Function.comp_apply,(h cursor hcursor).entryAt_advance,if_pos hr]
    rfl
  · rw [if_neg hr]
    apply filterMap_congr
    intro cursor hcursor
    rw [Function.comp_apply,(h cursor hcursor).entryAt_advance,if_neg hr,
      Cursor.advance_sequence]

def Compatible (cursors : List Cursor) : Prop := ∀ rel,(seenAt rel cursors).IsChain Agrees

theorem seenAt_of_empty {cursors : List Cursor} (h : ∀ cursor ∈ cursors,cursor.left = [])
    (rel : ℕ) : seenAt rel cursors = [] := by
  apply filterMap_eq_nil_iff.mpr
  intro cursor hcursor
  rw [h cursor hcursor]
  rfl

theorem left_of_entryCount {cursors : List Cursor} (h : entryCount cursors ≤ 0) :
    ∀ cursor ∈ cursors,cursor.left = [] := by
  intro cursor hcursor
  rw [entryCount,Nat.le_zero,List.sum_eq_zero_iff_forall_eq_nat] at h
  exact length_eq_zero_iff.mp (h _ (mem_map.mpr ⟨cursor,hcursor,rfl⟩))

theorem walkFrom_exists {fuel : ℕ} {cursors : List Cursor} {bound : ℕ}
    (hfuel : entryCount cursors ≤ fuel) (hfrom : ∀ cursor ∈ cursors,cursor.From bound) :
    (∃ edges,walkFrom fuel cursors = .ok edges) ↔ Compatible cursors := by
  induction fuel generalizing cursors bound with
  | zero =>
    refine iff_of_true ⟨[],rfl⟩ fun rel => ?_
    rw [seenAt_of_empty (left_of_entryCount hfuel)]
    exact .nil
  | succ fuel ih =>
    rw [walkFrom]
    cases hmin : minRel cursors with
    | none =>
      refine iff_of_true ⟨[],rfl⟩ fun rel => ?_
      rw [seenAt_of_empty (minRel_eq_none hmin)]
      exact .nil
    | some rel =>
      obtain ⟨hleast,hat⟩ := minRel_eq_some hmin
      have hrel : ∀ cursor ∈ cursors,cursor.From rel :=
        fun cursor hc => ⟨(hfrom cursor hc).ascending,hleast cursor hc⟩
      have hmoved : ∀ cursor ∈ cursors.map (Cursor.advance rel),cursor.From (rel+1) := by
        intro cursor hc
        obtain ⟨old,hold,rfl⟩ := mem_map.mp hc
        exact (hrel old hold).advance
      have hcount:=entryCount_advance_lt hat
      have hround:=@takeLatest_exists rel none cursors
      rw [Option.toList_none,nil_append,headsAt_eq_seenAt hrel] at hround
      -- the round decides `rel`, the rest of the walk every other relationship
      have hsplit : Compatible cursors ↔ (seenAt rel cursors).IsChain Agrees ∧
          Compatible (cursors.map (Cursor.advance rel)) := by
        simp only [Compatible,seenAt_advance hrel]
        constructor
        · intro h
          refine ⟨h rel,fun r => ?_⟩
          split_ifs
          · exact .nil
          · exact h r
        · intro hboth r
          obtain ⟨hat,h⟩ := hboth
          by_cases hr : r = rel
          · rw [hr]
            exact hat
          · have hother:=h r
            rw [if_neg hr] at hother
            exact hother
      rw [hsplit,← hround,← ih (by omega) hmoved]
      cases htake : takeLatest rel none cursors with
      | error e => simp [htake]
      | ok result =>
        obtain ⟨last,moved⟩ := result
        obtain ⟨rfl,-⟩ := takeLatest_ok htake
        simp only [htake,ok_bind,Except.ok.injEq,exists_eq',true_and]
        exact exists_map_ok

def OneNeighbor (runs : List Run) : Prop :=
  ∀ r ∈ runs,∀ s ∈ runs,∀ x ∈ r.entries,∀ y ∈ s.entries,
    x.edge.rel = y.edge.rel → x.edge.neighbor = y.edge.neighbor

def OneAction (runs : List Run) : Prop :=
  ∀ r ∈ runs,∀ s ∈ runs,r.sequence = s.sequence → ∀ x ∈ r.entries,∀ y ∈ s.entries,
    x.edge.rel = y.edge.rel → x.action = y.action

def cursorsOf (runs : List Run) : List Cursor := runs.map fun run => ⟨run.sequence,run.entries⟩

theorem isChain_and {α : Type} {R S : α → α → Prop} {l : List α} (hR : l.IsChain R)
    (hS : l.IsChain S) : l.IsChain fun x y => R x y ∧ S x y := by
  rw [isChain_iff_getElem] at *
  intro i hi
  exact ⟨hR i hi,hS i hi⟩

theorem isChain_agrees_iff {seen : List Seen} (h : seen.Pairwise fun x y => x.2 ≤ y.2) :
    seen.IsChain Agrees ↔ seen.Pairwise Agrees := by
  constructor
  · intro hchain
    have htrans : IsTrans Seen fun x y => x.2 ≤ y.2 ∧ Agrees x y := by
      constructor
      intro x y z ⟨hxy,hagree⟩ ⟨hyz,hagree'⟩
      refine ⟨hxy.trans hyz,hagree.1.trans hagree'.1,fun hxz => ?_⟩
      exact (hagree.2 (by omega)).trans (hagree'.2 (by omega))
    exact (isChain_iff_pairwise.mp (isChain_and h.isChain hchain)).imp fun hxy => hxy.2
  · exact List.Pairwise.isChain

theorem mem_seenAt {rel : ℕ} {runs : List Run} (h : ∀ run ∈ runs,Ascending run.entries)
    {x : Seen} : x ∈ seenAt rel (cursorsOf runs) ↔
      ∃ run ∈ runs,x.1 ∈ run.entries ∧ x.1.edge.rel = rel ∧ x.2 = run.sequence := by
  simp only [seenAt,cursorsOf,filterMap_map,mem_filterMap,Function.comp_apply,
    Option.map_eq_some_iff]
  constructor
  · intro ⟨run,hrun,entry,hentry,hx⟩
    obtain ⟨hmem,hrel⟩ := (h run hrun).entryAt_iff.mp hentry
    rw [← hx]
    exact ⟨run,hrun,hmem,hrel,rfl⟩
  · intro ⟨run,hrun,hmem,hrel,hsequence⟩
    exact ⟨run,hrun,x.1,(h run hrun).entryAt_iff.mpr ⟨hmem,hrel⟩,Prod.ext rfl hsequence.symm⟩

theorem compatible_iff {runs : List Run} (h : ∀ run ∈ runs,Ascending run.entries)
    (hsequences : runs.Pairwise fun r s => r.sequence ≤ s.sequence) :
    Compatible (cursorsOf runs) ↔ OneNeighbor runs ∧ OneAction runs := by
  have hsorted : ∀ rel,(seenAt rel (cursorsOf runs)).Pairwise fun x y => x.2 ≤ y.2 := by
    intro rel
    rw [seenAt,cursorsOf,filterMap_map,pairwise_filterMap]
    refine hsequences.imp ?_
    intro r s hrs x hx y hy
    simp only [Function.comp_apply,Option.map_eq_some_iff] at hx hy
    obtain ⟨_,-,rfl⟩ := hx
    obtain ⟨_,-,rfl⟩ := hy
    exact hrs
  have hpairs : Compatible (cursorsOf runs) ↔ ∀ rel,∀ x ∈ seenAt rel (cursorsOf runs),
      ∀ y ∈ seenAt rel (cursorsOf runs),Agrees x y := by
    refine forall_congr' fun rel => ?_
    rw [isChain_agrees_iff (hsorted rel)]
    constructor
    · intro hpairwise x hx y hy
      have hsymm : Std.Symm Agrees :=
        ⟨fun a b hab => ⟨hab.1.symm,fun hseq => (hab.2 hseq.symm).symm⟩⟩
      have hrefl : ∀ a ∈ seenAt rel (cursorsOf runs),Agrees a a := fun a _ => ⟨rfl,fun _ => rfl⟩
      exact List.Pairwise.forall_of_forall hrefl hpairwise hx hy
    · intro hall
      exact pairwise_of_forall_mem_list hall
  rw [hpairs]
  constructor
  · intro hall
    constructor
    · intro r hr s hs x hx y hy hrel
      exact (hall x.edge.rel (x,r.sequence) ((mem_seenAt h).mpr ⟨r,hr,hx,rfl,rfl⟩)
        (y,s.sequence) ((mem_seenAt h).mpr ⟨s,hs,hy,hrel.symm,rfl⟩)).1
    · intro r hr s hs hseq x hx y hy hrel
      exact (hall x.edge.rel (x,r.sequence) ((mem_seenAt h).mpr ⟨r,hr,hx,rfl,rfl⟩)
        (y,s.sequence) ((mem_seenAt h).mpr ⟨s,hs,hy,hrel.symm,rfl⟩)).2 hseq
  · intro ⟨hneighbor,haction⟩ rel x hx y hy
    obtain ⟨r,hr,hxr,hrelx,hseqx⟩ := (mem_seenAt h).mp hx
    obtain ⟨s,hs,hys,hrely,hseqy⟩ := (mem_seenAt h).mp hy
    refine ⟨hneighbor r hr s hs x.1 hxr y.1 hys (hrelx.trans hrely.symm),fun hseq => ?_⟩
    exact haction r hr s hs (by omega) x.1 hxr y.1 hys (hrelx.trans hrely.symm)

theorem walk_exists {runs : List Run} (h : ∀ run ∈ runs,Ascending run.entries)
    (hsequences : runs.Pairwise fun r s => r.sequence ≤ s.sequence) :
    (∃ edges,walk runs = .ok edges) ↔ OneNeighbor runs ∧ OneAction runs := by
  have hfrom : ∀ cursor ∈ cursorsOf runs,cursor.From 0 := by
    intro cursor hc
    obtain ⟨run,hrun,rfl⟩ := mem_map.mp hc
    exact ⟨h run hrun,fun _ _ => Nat.zero_le _⟩
  rw [← compatible_iff h hsequences]
  exact walkFrom_exists (Nat.le_refl _) hfrom

end Zeppelin.GraphStore.Adjacency
