import Mathlib.Data.List.Sort
import Zeppelin.Machine.Except

namespace Zeppelin.Collections
open List

variable {α ε : Type}

def swap (list : List α) (i j : ℕ) : List α :=
  match list[i]?,list[j]? with
  | some a,some b => (list.set i b).set j a
  | _,_ => list

section Sift

variable (compare : α → α → Except ε Ordering) (missing : ε)

def fetch (list : List α) (i : ℕ) : Except ε α := (list[i]?).elim (.error missing) .ok

def compareAt (list : List α) (i j : ℕ) : Except ε Ordering := do
  let a ← fetch missing list i
  let b ← fetch missing list j
  compare a b

def siftUp : ℕ → ℕ → List α → Except ε (List α)
  | 0,_,list => .ok list
  | fuel+1,child,list =>
    if child = 0 then .ok list
    else do
      let order ← compareAt compare missing list child ((child-1) / 2)
      if order = .gt then siftUp fuel ((child-1) / 2) (swap list child ((child-1) / 2))
      else .ok list

def greaterChild (len root : ℕ) (list : List α) : Except ε ℕ :=
  if root*2+2 < len then do
    let order ← compareAt compare missing list (root*2+2) (root*2+1)
    return if order = .gt then root*2+2 else root*2+1
  else .ok (root*2+1)

/-- The fuel is at least the distance to the length. -/
def siftDown (len : ℕ) : ℕ → ℕ → List α → Except ε (List α)
  | 0,_,list => .ok list
  | fuel+1,root,list =>
    if root*2+1 ≥ len then .ok list
    else do
      let child ← greaterChild compare missing len root list
      let order ← compareAt compare missing list child root
      if order = .gt then siftDown len fuel child (swap list child root) else .ok list

/-- The root goes behind all that is not sorted yet. -/
def heapSort : ℕ → List α → Except ε (List α)
  | 0,list => .ok list
  | last+1,list => do
    let next ← siftDown compare missing (last+1) (last+1) 0 (swap list 0 (last+1))
    heapSort last next

end Sift

theorem getElem?_swap {list : List α} {i j : ℕ} (hi : i < list.length) (hj : j < list.length)
    (k : ℕ) : (swap list i j)[k]? = list[Equiv.swap i j k]? := by
  rw [swap,getElem?_eq_getElem hi,getElem?_eq_getElem hj]
  dsimp only
  by_cases hkj : k = j
  · subst hkj
    rw [Equiv.swap_apply_right,getElem?_set_self (by rwa [length_set]),
      getElem?_eq_getElem hi]
  · rw [getElem?_set_ne (Ne.symm hkj)]
    by_cases hki : k = i
    · subst hki
      rw [Equiv.swap_apply_left,getElem?_set_self hi,getElem?_eq_getElem hj]
    · rw [Equiv.swap_apply_of_ne_of_ne hki hkj,getElem?_set_ne (Ne.symm hki)]

theorem swap_perm (list : List α) (i j : ℕ) : (swap list i j).Perm list := by
  unfold swap
  split
  · rename_i a b ha hb
    obtain ⟨hi,rfl⟩ := List.getElem?_eq_some_iff.mp ha
    obtain ⟨hj,rfl⟩ := List.getElem?_eq_some_iff.mp hb
    exact set_set_perm hi hj
  · exact List.Perm.refl _

theorem length_swap (list : List α) (i j : ℕ) : (swap list i j).length = list.length :=
  (swap_perm list i j).length_eq

section Order

variable {r : α → α → Prop} {list : List α}

def Below (r : α → α → Prop) (list : List α) (i j : ℕ) : Prop :=
  ∀ a b,list[i]? = some a → list[j]? = some b → r a b

def HeapOn (r : α → α → Prop) (len : ℕ) (list : List α) : Prop :=
  ∀ k < len,0 < k → Below r list k ((k-1) / 2)

def ComparesBy (r : α → α → Prop) (compare : α → α → Except ε Ordering) (list : List α) : Prop :=
  ∀ a ∈ list,∀ b ∈ list,∃ order,compare a b = .ok order ∧ (order = .gt ↔ ¬ r a b)

variable {next : List α} {i j k len child : ℕ}

theorem ComparesBy.perm {compare : α → α → Except ε Ordering}
    (h : ComparesBy r compare list) (hperm : next.Perm list) : ComparesBy r compare next :=
  fun a ha b hb => h a (hperm.mem_iff.mp ha) b (hperm.mem_iff.mp hb)

theorem below_swap (hi : i < list.length) (hj : j < list.length) (k l : ℕ) :
    Below r (swap list i j) k l ↔ Below r list (Equiv.swap i j k) (Equiv.swap i j l) := by
  rw [Below,Below,getElem?_swap hi hj,getElem?_swap hi hj]

theorem Below.trans [IsTrans α r] (hj : j < list.length) (hij : Below r list i j)
    (hjk : Below r list j k) : Below r list i k := by
  intro a c ha hc
  have hb:=getElem?_eq_getElem hj
  exact IsTrans.trans a _ c (hij a _ ha hb) (hjk _ c hb hc)

theorem Below.of_not [Std.Total r] (h : ¬ Below r list i j) : Below r list j i := by
  intro b a hb ha
  rcases Std.Total.total (r := r) a b with hab | hba
  · refine absurd ?_ h
    intro a' b' ha' hb'
    rw [ha] at ha'
    rw [hb] at hb'
    rwa [← Option.some.inj ha',← Option.some.inj hb']
  · exact hba

theorem compareAt_ok {compare : α → α → Except ε Ordering} (missing : ε)
    (h : ComparesBy r compare list) (hi : i < list.length) (hj : j < list.length) :
    ∃ order,compareAt compare missing list i j = .ok order ∧
      (order = .gt ↔ ¬ Below r list i j) := by
  obtain ⟨order,horder,hgt⟩ := h _ (getElem_mem hi) _ (getElem_mem hj)
  refine ⟨order,?_,hgt.trans (not_congr ?_)⟩
  · rw [compareAt,fetch,fetch,getElem?_eq_getElem hi,getElem?_eq_getElem hj]
    exact horder
  · constructor
    · intro hr a b ha hb
      rw [getElem?_eq_getElem hi] at ha
      rw [getElem?_eq_getElem hj] at hb
      rwa [← Option.some.inj ha,← Option.some.inj hb]
    · intro hbelow
      exact hbelow _ _ (getElem?_eq_getElem hi) (getElem?_eq_getElem hj)

theorem HeapOn.root [IsTrans α r] (h : HeapOn r len list) (hlen : len ≤ list.length) :
    ∀ k,0 < k → k < len → Below r list k 0 := by
  intro k
  induction k using Nat.strongRecOn with
  | ind k ih =>
    intro hk hlt
    have hparent:=h k hlt hk
    by_cases hzero : (k-1) / 2 = 0
    · rwa [hzero] at hparent
    · exact hparent.trans (by omega) (ih _ (by omega) (by omega) (by omega))

structure UpOrder (r : α → α → Prop) (hole : ℕ) (list : List α) : Prop where
  rest : ∀ k < list.length,0 < k → k ≠ hole → Below r list k ((k-1) / 2)
  aside : ∀ k < list.length,0 < k → (k-1) / 2 = hole → 0 < hole →
    Below r list k ((hole-1) / 2)

theorem UpOrder.swap [Std.Total r] [IsTrans α r] (h : UpOrder r child list) (hchild : 0 < child)
    (hlt : child < list.length) (hgt : ¬ Below r list child ((child-1) / 2)) :
    UpOrder r ((child-1) / 2) (swap list child ((child-1) / 2)) := by
  have hle:=Below.of_not hgt
  have hparent : (child-1) / 2 < list.length := by omega
  generalize hp : (child-1) / 2 = parent at *
  constructor
  · intro k hk hpos hne
    rw [length_swap] at hk
    rw [below_swap hlt hparent]
    by_cases hkc : k = child
    · rw [hkc,hp,Equiv.swap_apply_left,Equiv.swap_apply_right]
      exact hle
    · rw [Equiv.swap_apply_of_ne_of_ne hkc hne]
      by_cases hkp : (k-1) / 2 = child
      · rw [hkp,Equiv.swap_apply_left]
        have hover:=h.aside k hk hpos hkp hchild
        rwa [hp] at hover
      · by_cases hsibling : (k-1) / 2 = parent
        · rw [hsibling,Equiv.swap_apply_right]
          have hbelow:=h.rest k hk hpos hkc
          rw [hsibling] at hbelow
          exact hbelow.trans hparent hle
        · rw [Equiv.swap_apply_of_ne_of_ne hkp hsibling]
          exact h.rest k hk hpos hkc
  · intro k hk hpos hkp hparentPos
    rw [length_swap] at hk
    rw [below_swap hlt hparent,Equiv.swap_apply_of_ne_of_ne (x := (parent-1) / 2) (by omega)
      (by omega)]
    have hup:=h.rest parent hparent hparentPos (by omega)
    by_cases hkc : k = child
    · rw [hkc,Equiv.swap_apply_left]
      exact hup
    · rw [Equiv.swap_apply_of_ne_of_ne hkc (by omega)]
      have hbelow:=h.rest k hk hpos hkc
      rw [hkp] at hbelow
      exact hbelow.trans hparent hup

theorem siftUp_ok [Std.Total r] [IsTrans α r] {compare : α → α → Except ε Ordering} (missing : ε) (fuel : ℕ) :
    ∀ {child : ℕ} {list : List α},child ≤ fuel → child < list.length → UpOrder r child list →
      ComparesBy r compare list → ∃ next,siftUp compare missing fuel child list = .ok next ∧
        next.Perm list ∧ HeapOn r next.length next := by
  induction fuel with
  | zero =>
    intro child list hfuel hlt h hcompare
    refine ⟨list,rfl,List.Perm.refl _,?_⟩
    intro k hk hpos
    exact h.rest k hk hpos (by omega)
  | succ fuel ih =>
    intro child list hfuel hlt h hcompare
    rw [siftUp]
    by_cases hzero : child = 0
    · rw [if_pos hzero]
      refine ⟨list,rfl,List.Perm.refl _,?_⟩
      intro k hk hpos
      exact h.rest k hk hpos (by omega)
    · have hparent : (child-1) / 2 < list.length := by omega
      obtain ⟨order,horder,hgt⟩ := compareAt_ok missing hcompare hlt hparent
      rw [if_neg hzero,horder,ok_bind]
      by_cases hswap : order = .gt
      · rw [if_pos hswap]
        have hperm:=swap_perm list child ((child-1) / 2)
        obtain ⟨next,hnext,hnextPerm,hheap⟩ := ih (by omega) (by rw [length_swap]; omega)
          (h.swap (by omega) hlt (hgt.mp hswap)) (hcompare.perm hperm)
        exact ⟨next,hnext,hnextPerm.trans hperm,hheap⟩
      · rw [if_neg hswap]
        refine ⟨list,rfl,List.Perm.refl _,?_⟩
        intro k hk hpos
        by_cases hkc : k = child
        · rw [hkc]
          exact not_not.mp (hgt.not.mp hswap)
        · exact h.rest k hk hpos hkc

/-- A heap of the length but for the children of the position, which stand below its parent. -/
structure DownOrder (r : α → α → Prop) (len hole : ℕ) (list : List α) : Prop where
  rest : ∀ k < len,0 < k → (k-1) / 2 ≠ hole → Below r list k ((k-1) / 2)
  aside : ∀ k < len,0 < k → (k-1) / 2 = hole → 0 < hole → Below r list k ((hole-1) / 2)

theorem greaterChild_ok [Std.Total r] {compare : α → α → Except ε Ordering} (missing : ε)
    {root : ℕ} (hcompare : ComparesBy r compare list) (hlen : len ≤ list.length)
    (hroot : root*2+1 < len) : ∃ child,greaterChild compare missing len root list = .ok child ∧
      (child = root*2+1 ∨ child = root*2+2) ∧ child < len ∧
        ∀ k < len,0 < k → (k-1) / 2 = root → k ≠ child → Below r list k child := by
  unfold greaterChild
  by_cases htwo : root*2+2 < len
  · rw [if_pos htwo]
    obtain ⟨order,horder,hgt⟩ := compareAt_ok missing hcompare
      (show root*2+2 < list.length by omega) (show root*2+1 < list.length by omega)
    rw [horder,ok_bind]
    by_cases hright : order = .gt
    · refine ⟨root*2+2,by rw [if_pos hright]; rfl,.inr rfl,htwo,?_⟩
      intro k _ hpos hk hne
      obtain rfl : k = root*2+1 := by omega
      exact Below.of_not (hgt.mp hright)
    · refine ⟨root*2+1,by rw [if_neg hright]; rfl,.inl rfl,hroot,?_⟩
      intro k _ hpos hk hne
      obtain rfl : k = root*2+2 := by omega
      exact not_not.mp (hgt.not.mp hright)
  · rw [if_neg htwo]
    refine ⟨root*2+1,rfl,.inl rfl,hroot,?_⟩
    intro k hk hpos hkp hne
    omega

theorem DownOrder.swap [Std.Total r] {root : ℕ} (h : DownOrder r len root list)
    (hlen : len ≤ list.length) (hchild : child = root*2+1 ∨ child = root*2+2)
    (hlt : child < len)
    (hgreatest : ∀ k < len,0 < k → (k-1) / 2 = root → k ≠ child → Below r list k child)
    (hgt : ¬ Below r list child root) : DownOrder r len child (swap list child root) := by
  have hle:=Below.of_not hgt
  have hparent : (child-1) / 2 = root := by omega
  have hchildLt : child < list.length := by omega
  have hrootLt : root < list.length := by omega
  constructor
  · intro k hk hpos hkp
    rw [below_swap hchildLt hrootLt]
    by_cases hkc : k = child
    · rw [hkc,hparent,Equiv.swap_apply_left,Equiv.swap_apply_right]
      exact hle
    · by_cases hkr : k = root
      · rw [hkr,Equiv.swap_apply_right,Equiv.swap_apply_of_ne_of_ne (by omega) (by omega)]
        exact h.aside child hlt (by omega) hparent (by omega)
      · rw [Equiv.swap_apply_of_ne_of_ne hkc hkr]
        by_cases hsibling : (k-1) / 2 = root
        · rw [hsibling,Equiv.swap_apply_right]
          exact hgreatest k hk hpos hsibling hkc
        · rw [Equiv.swap_apply_of_ne_of_ne hkp hsibling]
          exact h.rest k hk hpos hsibling
  · intro k hk hpos hkp _
    have hbelow:=h.rest k hk hpos (by omega)
    rw [below_swap hchildLt hrootLt,hparent,Equiv.swap_apply_right,
      Equiv.swap_apply_of_ne_of_ne (by omega) (by omega)]
    rwa [hkp] at hbelow

theorem siftDown_ok [Std.Total r] [IsTrans α r] {compare : α → α → Except ε Ordering} (missing : ε)
    (fuel : ℕ) : ∀ {root : ℕ} {list : List α},len ≤ root+fuel → len ≤ list.length →
      DownOrder r len root list → ComparesBy r compare list →
      ∃ next,siftDown compare missing len fuel root list = .ok next ∧ next.Perm list ∧
        HeapOn r len next ∧ ∀ k,len ≤ k → next[k]? = list[k]? := by
  induction fuel with
  | zero =>
    intro root list hfuel hlen h hcompare
    refine ⟨list,rfl,List.Perm.refl _,?_,fun _ _ => rfl⟩
    intro k hk hpos
    exact h.rest k hk hpos (by omega)
  | succ fuel ih =>
    intro root list hfuel hlen h hcompare
    rw [siftDown]
    by_cases hleaf : root*2+1 ≥ len
    · rw [if_pos hleaf]
      refine ⟨list,rfl,List.Perm.refl _,?_,fun _ _ => rfl⟩
      intro k hk hpos
      exact h.rest k hk hpos (by omega)
    · obtain ⟨child,hpick,hchild,hlt,hgreatest⟩ :=
        greaterChild_ok missing hcompare hlen (not_le.mp hleaf)
      obtain ⟨order,horder,hgt⟩ := compareAt_ok missing hcompare
        (show child < list.length by omega) (show root < list.length by omega)
      rw [if_neg hleaf,hpick,ok_bind,horder,ok_bind]
      by_cases hswap : order = .gt
      · rw [if_pos hswap]
        have hperm:=swap_perm list child root
        have hfuelLeft : len ≤ child+fuel := by omega
        obtain ⟨next,hnext,hnextPerm,hheap,hkept⟩ := ih hfuelLeft
          (by rw [length_swap]; exact hlen) (h.swap hlen hchild hlt hgreatest (hgt.mp hswap))
          (hcompare.perm hperm)
        refine ⟨next,hnext,hnextPerm.trans hperm,hheap,?_⟩
        intro k hk
        rw [hkept k hk,getElem?_swap (by omega) (by omega),
          Equiv.swap_apply_of_ne_of_ne (by omega) (by omega)]
      · rw [if_neg hswap]
        refine ⟨list,rfl,List.Perm.refl _,?_,fun _ _ => rfl⟩
        have hroot:=not_not.mp (hgt.not.mp hswap)
        intro k hk hpos
        by_cases hkp : (k-1) / 2 = root
        · rw [hkp]
          by_cases hkc : k = child
          · rw [hkc]
            exact hroot
          · exact (hgreatest k hk hpos hkp hkc).trans (by omega) hroot
        · exact h.rest k hk hpos hkp

theorem getElem?_of_perm (hperm : next.Perm list)
    (hkept : ∀ k,len ≤ k → next[k]? = list[k]?) {a : α} (hk : k < len)
    (ha : next[k]? = some a) : ∃ j < len,list[j]? = some a := by
  have hdrop : next.drop len = list.drop len := by
    apply ext_getElem?
    intro j
    rw [getElem?_drop,getElem?_drop]
    exact hkept _ (Nat.le_add_right _ _)
  have htake : (next.take len).Perm (list.take len) := by
    rw [← take_append_drop len next,← take_append_drop len list,hdrop] at hperm
    exact (perm_append_right_iff _).mp hperm
  have hmem : a ∈ next.take len := by
    apply mem_of_getElem? (i := k)
    rw [getElem?_take_of_lt hk]
    exact ha
  obtain ⟨j,hj,hget⟩ := mem_iff_getElem.mp (htake.mem_iff.mp hmem)
  rw [length_take] at hj
  refine ⟨j,by omega,?_⟩
  rw [← hget,getElem_take]
  exact getElem?_eq_getElem _

theorem heapSort_ok [Std.Total r] [IsTrans α r] {compare : α → α → Except ε Ordering} (missing : ε) (last : ℕ) :
    ∀ {list : List α},last < list.length ∨ last = 0 → HeapOn r (last+1) list →
      (∀ i j,i < j → last < j → Below r list i j) → ComparesBy r compare list →
      ∃ sorted,heapSort compare missing last list = .ok sorted ∧ sorted.Perm list ∧
        sorted.Pairwise r := by
  induction last with
  | zero =>
    intro list _ _ hsorted _
    refine ⟨list,rfl,List.Perm.refl _,pairwise_iff_getElem.mpr ?_⟩
    intro i j hi hj hij
    exact hsorted i j hij (by omega) _ _ (getElem?_eq_getElem hi) (getElem?_eq_getElem hj)
  | succ last ih =>
    intro list hlast hheap hsorted hcompare
    have hlt : last+1 < list.length := by omega
    have hzero : 0 < list.length := by omega
    have hperm:=swap_perm list 0 (last+1)
    have hdown : DownOrder r (last+1) 0 (swap list 0 (last+1)) := by
      constructor
      · intro k hk hpos hkp
        rw [below_swap hzero hlt,Equiv.swap_apply_of_ne_of_ne (by omega) (by omega),
          Equiv.swap_apply_of_ne_of_ne (by omega) (by omega)]
        exact hheap k (by omega) hpos
      · intro k _ _ _ hpos
        exact absurd hpos (Nat.lt_irrefl 0)
    obtain ⟨next,hnext,hnextPerm,hnextHeap,hkept⟩ := siftDown_ok missing
      (last+1) (by omega) (by rw [length_swap]; omega) hdown (hcompare.perm hperm)
    have hlength : next.length = list.length := (hnextPerm.trans hperm).length_eq
    rw [heapSort,hnext,ok_bind]
    have hnextSorted : ∀ i j,i < j → last < j → Below r next i j := by
      intro i j hij hj a b ha hb
      -- the element at `i` stood before position `j`, and the root is now at `last + 1`
      rw [hkept j (by omega),getElem?_swap hzero hlt] at hb
      have hfrom : ∃ i',list[i']? = some a ∧ (i' ≤ last+1 ∨ i' = i) ∧
          (j = last+1 → 0 < i' ∧ i' ≤ last+1) := by
        by_cases hi : i < last+1
        · obtain ⟨i',hi',hget⟩ := getElem?_of_perm hnextPerm hkept hi ha
          rw [getElem?_swap hzero hlt] at hget
          by_cases hfront : i' = 0
          · rw [hfront,Equiv.swap_apply_left] at hget
            exact ⟨last+1,hget,.inl (by omega),fun _ => by omega⟩
          · rw [Equiv.swap_apply_of_ne_of_ne hfront (by omega)] at hget
            exact ⟨i',hget,.inl (by omega),fun _ => by omega⟩
        · rw [hkept i (by omega),getElem?_swap hzero hlt] at ha
          by_cases hroot : i = last+1
          · rw [hroot,Equiv.swap_apply_right] at ha
            exact ⟨0,ha,.inl (by omega),fun _ => by omega⟩
          · rw [Equiv.swap_apply_of_ne_of_ne (by omega) hroot] at ha
            exact ⟨i,ha,.inr rfl,fun _ => by omega⟩
      obtain ⟨i',hget,hplace,hroot⟩ := hfrom
      by_cases hjroot : j = last+1
      · rw [hjroot,Equiv.swap_apply_right] at hb
        obtain ⟨hpos,hle⟩ := hroot hjroot
        exact hheap.root (by omega) i' hpos (by omega) a b hget hb
      · rw [Equiv.swap_apply_of_ne_of_ne (by omega) hjroot] at hb
        exact hsorted i' j (by omega) (by omega) a b hget hb
    obtain ⟨sorted,hsort,hsortPerm,hpairwise⟩ := ih (.inl (by omega)) hnextHeap hnextSorted
      (hcompare.perm (hnextPerm.trans hperm))
    exact ⟨sorted,hsort,hsortPerm.trans (hnextPerm.trans hperm),hpairwise⟩

end Order

end Zeppelin.Collections
