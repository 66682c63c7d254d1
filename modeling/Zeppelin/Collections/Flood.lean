import Mathlib.Logic.Relation
import Mathlib.Data.List.Count
import Zeppelin.Machine.Run
import Zeppelin.Machine.Except

namespace Zeppelin.Flood
open Machine List

variable {μ ε : Type} [DecidableEq μ]

structure State (μ : Type) where
  marks : List μ
  queue : List ℕ

section Traversal
variable (unmarked : μ) (admits : ℕ → Prop) [DecidablePred admits] (outside : ℕ → ε)

def enqueue (mark : μ) (s : State μ) (node : ℕ) : Except ε (State μ) :=
  match s.marks[node]? with
  | none => .error (outside node)
  | some old =>
    if old = unmarked ∧ admits node then .ok ⟨s.marks.set node mark,s.queue++[node]⟩ else .ok s

def step (neighbors : ℕ → Except ε (List ℕ)) (label : ℕ → μ) (s : State μ) :
    Except ε (Flow (State μ)) :=
  match s.queue with
  | [] => .ok (.stop s)
  | owner::rest => do
    let nodes ← neighbors owner
    let s ← nodes.foldlM (enqueue unmarked admits outside (label owner)) ⟨s.marks,rest⟩
    return .next s

def flood (exhausted : ε) (neighbors : ℕ → Except ε (List ℕ)) (label : ℕ → μ) (s : State μ) :
    Except ε (State μ) :=
  tryLoop exhausted (step unmarked admits outside neighbors label)
    (s.marks.length+s.queue.length+1) s

end Traversal

section Marks
variable (unmarked : μ) (admits : ℕ → Prop) (adjacent : ℕ → List ℕ) (label : ℕ → μ)

def Marked (marks : List μ) (node : ℕ) : Prop := ∃ mark,marks[node]? = some mark ∧ mark ≠ unmarked

def Parent (marks : List μ) (owner node : ℕ) : Prop :=
  node ∈ adjacent owner ∧ admits node ∧ marks[node]? = some (label owner) ∧ label owner ≠ unmarked

/-- The marks since `before`, where the given neighbours of the owner are still ahead. -/
structure Flooding (before : List μ) (owner : ℕ) (ahead : List ℕ) (s : State μ) : Prop where
  length : s.marks.length = before.length
  kept : ∀ node,Marked unmarked before node → s.marks[node]? = before[node]?
  queued : ∀ node ∈ s.queue,Marked unmarked s.marks node
  next : ∀ a,Marked unmarked s.marks a → ∀ b ∈ adjacent a,admits b →
    Marked unmarked s.marks b ∨ a ∈ s.queue ∨ a = owner ∧ b ∈ ahead
  led : ∀ node,Marked unmarked s.marks node → ∃ start,Marked unmarked before start ∧
    Relation.ReflTransGen (Parent unmarked admits adjacent label s.marks) start node

structure Flooded (before marks : List μ) : Prop where
  length : marks.length = before.length
  kept : ∀ node,Marked unmarked before node → marks[node]? = before[node]?
  closed : ∀ a,Marked unmarked marks a → ∀ b ∈ adjacent a,admits b → Marked unmarked marks b
  led : ∀ node,Marked unmarked marks node → ∃ start,Marked unmarked before start ∧
    Relation.ReflTransGen (Parent unmarked admits adjacent label marks) start node

end Marks

section Spec
variable {unmarked : μ} {admits : ℕ → Prop} {adjacent : ℕ → List ℕ} {label : ℕ → μ}
  {before marks : List μ} {owner : ℕ} {ahead : List ℕ} {s : State μ}

omit [DecidableEq μ] in
theorem Marked.lt {node : ℕ} (h : Marked unmarked marks node) : node < marks.length := by
  obtain ⟨mark,hmark,-⟩ := h
  exact (List.getElem?_eq_some_iff.mp hmark).1

omit [DecidableEq μ] in
theorem getElem?_set_of_marked {node other : ℕ} {mark : μ} (hfree : ¬ Marked unmarked marks node)
    (hother : Marked unmarked marks other) : (marks.set node mark)[other]? = marks[other]? := by
  apply getElem?_set_ne
  intro heq
  rw [heq] at hfree
  exact hfree hother

omit [DecidableEq μ] in
theorem Marked.set {node other : ℕ} {mark : μ} (hfree : ¬ Marked unmarked marks node)
    (hother : Marked unmarked marks other) : Marked unmarked (marks.set node mark) other := by
  obtain ⟨old,hold,hne⟩ := hother
  refine ⟨old,?_,hne⟩
  rw [getElem?_set_of_marked hfree ⟨old,hold,hne⟩]
  exact hold

omit [DecidableEq μ] in
theorem marked_set {node other : ℕ} {mark : μ} (hother : Marked unmarked (marks.set node mark) other) :
    other = node ∨ Marked unmarked marks other := by
  by_cases heq : other = node
  · exact .inl heq
  · obtain ⟨old,hold,hne⟩ := hother
    rw [getElem?_set_ne (Ne.symm heq)] at hold
    exact .inr ⟨old,hold,hne⟩

/-- Nodes that are not marked yet, and nodes that wait. -/
def measure (unmarked : μ) (s : State μ) : ℕ := s.marks.count unmarked+s.queue.length

variable [DecidablePred admits] (outside : ℕ → ε)

theorem enqueue_spec (h : Flooding unmarked admits adjacent label before owner (node::ahead) s)
    (howner : Marked unmarked s.marks owner) (hnode : node ∈ adjacent owner)
    (hlt : node < before.length) (hlabel : label owner ≠ unmarked) :
    ∃ t,enqueue unmarked admits outside (label owner) s node = .ok t ∧
      Flooding unmarked admits adjacent label before owner ahead t ∧
      Marked unmarked t.marks owner ∧ measure unmarked t = measure unmarked s := by
  have hin : node < s.marks.length := by rw [h.length]; exact hlt
  have hget:=getElem?_eq_getElem hin
  unfold enqueue
  rw [hget]
  dsimp only
  by_cases hfresh : s.marks[node] = unmarked ∧ admits node
  · rw [if_pos hfresh]
    have hfree : ¬ Marked unmarked s.marks node := by
      intro hmarked
      obtain ⟨mark,hmark,hne⟩ := hmarked
      rw [hget] at hmark
      exact hne ((Option.some.inj hmark).symm.trans hfresh.1)
    have hset : (s.marks.set node (label owner))[node]? = some (label owner) :=
      getElem?_set_self hin
    have hnew : Marked unmarked (s.marks.set node (label owner)) node := ⟨_,hset,hlabel⟩
    refine ⟨_,rfl,⟨?_,?_,?_,?_,?_⟩,howner.set hfree,?_⟩
    · rw [length_set]
      exact h.length
    · intro other hother
      have hold:=h.kept other hother
      have hmarked : Marked unmarked s.marks other := by
        obtain ⟨mark,hmark,hne⟩ := hother
        exact ⟨mark,hold.trans hmark,hne⟩
      exact (getElem?_set_of_marked hfree hmarked).trans hold
    · intro other hother
      rcases mem_append.mp hother with hother | hother
      · exact (h.queued other hother).set hfree
      · rw [mem_singleton.mp hother]
        exact hnew
    · intro a ha b hb hadmits
      rcases marked_set ha with rfl | ha
      · exact .inr (.inl (mem_append_right _ (mem_singleton_self _)))
      · rcases h.next a ha b hb hadmits with hmarked | hqueued | ⟨rfl,hahead⟩
        · exact .inl (hmarked.set hfree)
        · exact .inr (.inl (mem_append_left _ hqueued))
        · rcases mem_cons.mp hahead with rfl | hahead
          · exact .inl hnew
          · exact .inr (.inr ⟨rfl,hahead⟩)
    · have hparents : ∀ p i,Parent unmarked admits adjacent label s.marks p i →
          Parent unmarked admits adjacent label (s.marks.set node (label owner)) p i := by
        intro p i ⟨hedge,hadmits,hmark,hne⟩
        refine ⟨hedge,hadmits,?_,hne⟩
        rw [getElem?_set_of_marked hfree ⟨_,hmark,hne⟩]
        exact hmark
      have hmono : ∀ {a b},Relation.ReflTransGen
          (Parent unmarked admits adjacent label s.marks) a b → Relation.ReflTransGen
          (Parent unmarked admits adjacent label (s.marks.set node (label owner))) a b := by
        intro a b hab
        exact Relation.ReflTransGen.mono hparents a b hab
      intro other hother
      rcases marked_set hother with rfl | hother
      · obtain ⟨start,hstart,hpath⟩ := h.led owner howner
        exact ⟨start,hstart,(hmono hpath).tail ⟨hnode,hfresh.2,hset,hlabel⟩⟩
      · obtain ⟨start,hstart,hpath⟩ := h.led other hother
        exact ⟨start,hstart,hmono hpath⟩
    · have hpos : 0 < s.marks.count unmarked :=
        count_pos_iff.mpr (hfresh.1 ▸ getElem_mem hin)
      rw [measure,measure,count_set hin,length_append,length_singleton,
        if_pos (by rw [hfresh.1]; exact beq_self_eq_true _),if_neg (by simpa using hlabel)]
      omega
  · rw [if_neg hfresh]
    refine ⟨s,rfl,⟨h.length,h.kept,h.queued,?_,h.led⟩,howner,rfl⟩
    intro a ha b hb hadmits
    rcases h.next a ha b hb hadmits with hmarked | hqueued | ⟨rfl,hahead⟩
    · exact .inl hmarked
    · exact .inr (.inl hqueued)
    · rcases mem_cons.mp hahead with rfl | hahead
      · have hold : s.marks[b] ≠ unmarked := fun heq => hfresh ⟨heq,hadmits⟩
        exact .inl ⟨_,hget,hold⟩
      · exact .inr (.inr ⟨rfl,hahead⟩)

theorem enqueueAll_spec {nodes : List ℕ}
    (h : Flooding unmarked admits adjacent label before owner nodes s)
    (howner : Marked unmarked s.marks owner) (hnodes : ∀ node ∈ nodes,node ∈ adjacent owner)
    (hlt : ∀ node ∈ nodes,node < before.length) (hlabel : label owner ≠ unmarked) :
    ∃ t,nodes.foldlM (enqueue unmarked admits outside (label owner)) s = .ok t ∧
      Flooding unmarked admits adjacent label before owner [] t ∧
      measure unmarked t = measure unmarked s := by
  induction nodes generalizing s with
  | nil => exact ⟨s,rfl,h,rfl⟩
  | cons node nodes ih =>
    obtain ⟨t,ht,hflooding,hmarked,hmeasure⟩ := enqueue_spec outside h howner
      (hnodes node mem_cons_self) (hlt node mem_cons_self) hlabel
    obtain ⟨u,hu,hrest,hless⟩ := ih hflooding hmarked
      (fun node hnode => hnodes node (mem_cons_of_mem _ hnode))
      (fun node hnode => hlt node (mem_cons_of_mem _ hnode))
    refine ⟨u,?_,hrest,hless.trans hmeasure⟩
    rw [foldlM_cons,ht]
    exact hu

variable {neighbors : ℕ → Except ε (List ℕ)} {exhausted : ε}

theorem flood_spec {queue : List ℕ}
    (hneighbors : ∀ owner < before.length,neighbors owner = .ok (adjacent owner))
    (hrange : ∀ owner < before.length,∀ node ∈ adjacent owner,node < before.length)
    (hlabel : ∀ owner < before.length,label owner ≠ unmarked)
    (hqueued : ∀ node ∈ queue,Marked unmarked before node)
    (hnext : ∀ a,Marked unmarked before a → a ∉ queue → ∀ b ∈ adjacent a,admits b →
      Marked unmarked before b) :
    ∃ t,flood unmarked admits outside exhausted neighbors label ⟨before,queue⟩ = .ok t ∧
      t.queue = [] ∧ Flooded unmarked admits adjacent label before t.marks := by
  apply tryLoop_spec (Flooding unmarked admits adjacent label before 0 [])
    (fun t => t.queue = [] ∧ Flooded unmarked admits adjacent label before t.marks)
    (measure unmarked)
  · intro s h
    unfold step
    cases hqueue : s.queue with
    | nil =>
      right
      refine ⟨s,rfl,hqueue,h.length,h.kept,?_,h.led⟩
      intro a ha b hb hadmits
      rcases h.next a ha b hb hadmits with hmarked | hwaits | ⟨-,hahead⟩
      · exact hmarked
      · rw [hqueue] at hwaits
        exact absurd hwaits not_mem_nil
      · exact absurd hahead not_mem_nil
    | cons owner rest =>
      left
      have howner : Marked unmarked s.marks owner := by
        apply h.queued
        rw [hqueue]
        exact mem_cons_self
      have hlt : owner < before.length := by
        rw [← h.length]
        exact howner.lt
      have hpopped : Flooding unmarked admits adjacent label before owner (adjacent owner)
          ⟨s.marks,rest⟩ := by
        refine ⟨h.length,h.kept,?_,?_,h.led⟩
        · intro node hnode
          apply h.queued
          rw [hqueue]
          exact mem_cons_of_mem _ hnode
        · intro a ha b hb hadmits
          rcases h.next a ha b hb hadmits with hmarked | hwaits | ⟨-,hahead⟩
          · exact .inl hmarked
          · rw [hqueue] at hwaits
            rcases mem_cons.mp hwaits with rfl | hwaits
            · exact .inr (.inr ⟨rfl,hb⟩)
            · exact .inr (.inl hwaits)
          · exact absurd hahead not_mem_nil
      obtain ⟨t,ht,hflooding,hmeasure⟩ := enqueueAll_spec outside hpopped howner
        (fun _ hnode => hnode) (hrange owner hlt) (hlabel owner hlt)
      refine ⟨t,?_,?_,?_⟩
      · dsimp only
        rw [hneighbors owner hlt,ok_bind,ht]
        rfl
      · refine ⟨hflooding.length,hflooding.kept,hflooding.queued,?_,hflooding.led⟩
        intro a ha b hb hadmits
        rcases hflooding.next a ha b hb hadmits with hmarked | hwaits | ⟨-,hahead⟩
        · exact .inl hmarked
        · exact .inr (.inl hwaits)
        · exact absurd hahead not_mem_nil
      · rw [hmeasure,measure,measure,hqueue,length_cons]
        exact Nat.lt_succ_self _
  · refine ⟨rfl,fun _ _ => rfl,hqueued,?_,fun node hnode => ⟨node,hnode,.refl⟩⟩
    intro a ha b hb hadmits
    by_cases hwaits : a ∈ queue
    · exact .inr (.inl hwaits)
    · exact .inl (hnext a ha hwaits b hb hadmits)
  · have hcount:=count_le_length (a := unmarked) (l := before)
    rw [measure]
    exact Nat.lt_succ_of_le (Nat.add_le_add_right hcount _)

end Spec

end Zeppelin.Flood
