import Zeppelin.Collections.ListOrder
import Zeppelin.Reclaim.SpillMark

namespace Zeppelin.Reclaim
open List

structure Stream where
  binding : SpillBinding
  total : ℕ
  digest : ℕ

abbrev Leaves := List (List ℕ)

/-- Children that hold the leaves from the number `start` on, one after the other. -/
def Chain (P : ℕ → DurableRun → Leaves → Prop) : ℕ → List DurableRun → Leaves → Prop
  | _,[],leaves => leaves = []
  | start,child::children,leaves => ∃ mine rest,leaves = mine++rest ∧ P start child mine ∧
    Chain P (start+mine.length) children rest

structure ChildOf (P : ℕ → ℕ → Leaves → Prop) (stream : Stream) (height start : ℕ)
    (child : DurableRun) (leaves : Leaves) : Prop where
  binding : child.binding = stream.binding
  height_eq : child.height = height
  count : child.count = leaves.flatten.length
  first : leaves.flatten.head? = some child.first
  last : leaves.flatten.getLast? = some child.last
  below : P start child.root leaves

/-- The page at `reference` is the root of a tree over the leaves. -/
def Holds (pages : Pages) (stream : Stream) : ℕ → ℕ → ℕ → Leaves → Prop
  | 0,start,reference,leaves => ∃ ids,leaves = [ids] ∧ ids ≠ [] ∧
    ids.length ≤ spillChunkLimit ∧
      pages[reference]? = some ⟨stream.binding,.leaf ids start stream.total stream.digest⟩
  | height+1,start,reference,leaves => ∃ count digest children,
    pages[reference]? = some ⟨stream.binding,.index (height+1) count digest children⟩ ∧
      children ≠ [] ∧ children.length ≤ mergeFanIn ∧ (∀ child ∈ children,child.root < reference) ∧
        Chain (ChildOf (Holds pages stream height) stream height) start children leaves

variable {P : ℕ → ℕ → Leaves → Prop} {start height : ℕ} {children : List DurableRun}
  {leaves : Leaves} {child : DurableRun} {stream : Stream} {pages more : Pages}
  {levels : BuildLevels}

theorem Chain.imp {P Q : ℕ → DurableRun → Leaves → Prop} (h : Chain P start children leaves)
    (himp : ∀ start child mine,P start child mine → Q start child mine) :
    Chain Q start children leaves := by
  induction children generalizing start leaves with
  | nil => exact h
  | cons child children ih =>
    obtain ⟨mine,rest,hleaves,hchild,hrest⟩ := h
    exact ⟨mine,rest,hleaves,himp _ _ _ hchild,ih hrest⟩

theorem chain_append {P : ℕ → DurableRun → Leaves → Prop} {a b : List DurableRun}
    {left right : Leaves} (ha : Chain P start a left) (hb : Chain P (start+left.length) b right) :
    Chain P start (a++b) (left++right) := by
  induction a generalizing start left with
  | nil =>
    obtain rfl : left = [] := ha
    exact hb
  | cons child children ih =>
    obtain ⟨mine,rest,rfl,hchild,hrest⟩ := ha
    refine ⟨mine,rest++right,append_assoc ..,hchild,ih hrest ?_⟩
    rw [length_append,← Nat.add_assoc] at hb
    exact hb

theorem chain_singleton {P : ℕ → DurableRun → Leaves → Prop} :
    Chain P start [child] leaves ↔ P start child leaves := by
  constructor
  · rintro ⟨mine,rest,rfl,hchild,hrest⟩
    obtain rfl : rest = [] := hrest
    rwa [append_nil]
  · exact fun hchild => ⟨leaves,[],(append_nil _).symm,hchild,rfl⟩

theorem ChildOf.imp {Q : ℕ → ℕ → Leaves → Prop} (h : ChildOf P stream height start child leaves)
    (himp : P start child.root leaves → Q start child.root leaves) :
    ChildOf Q stream height start child leaves :=
  ⟨h.binding,h.height_eq,h.count,h.first,h.last,himp h.below⟩

theorem Holds.mono (hmore : pages <+: more) : ∀ {start reference : ℕ} {leaves : Leaves},
      Holds pages stream height start reference leaves →
        Holds more stream height start reference leaves := by
  induction height with
  | zero =>
    rintro start reference leaves ⟨ids,hleaves,hne,hcount,hpage⟩
    exact ⟨ids,hleaves,hne,hcount, Collections.getElem?_of_isPrefix hmore hpage⟩
  | succ height ih =>
    rintro start reference leaves ⟨count,digest,children,hpage,hne,hcount,hroots,hchain⟩
    exact ⟨count,digest,children, Collections.getElem?_of_isPrefix hmore hpage,hne,hcount,hroots,
      hchain.imp fun _ _ _ hchild => hchild.imp ih⟩

theorem ChildOf.mono (hmore : pages <+: more)
    (h : ChildOf (Holds pages stream height) stream height start child leaves) :
    ChildOf (Holds more stream height) stream height start child leaves :=
  h.imp (Holds.mono hmore)

theorem ChildOf.ne_nil (h : ChildOf P stream height start child leaves) : leaves.flatten ≠ [] := by
  intro hempty
  have := h.first
  rw [hempty] at this
  cases this

structure Sound (ids : List ℕ) : Prop where
  ascending : ids.Pairwise (· < ·)
  count : ids.length < 2^64

theorem Sound.append_left {a b : List ℕ} (h : Sound (a++b)) : Sound a := by
  have hcount:=h.count
  rw [length_append] at hcount
  exact ⟨(pairwise_append.mp h.ascending).1,by omega⟩

theorem Sound.append_right {a b : List ℕ} (h : Sound (a++b)) : Sound b := by
  have hcount:=h.count
  rw [length_append] at hcount
  exact ⟨(pairwise_append.mp h.ascending).2.1,by omega⟩

theorem addCount_of_lt {a b : ℕ} (h : a+b < 2^64) : addCount a b = .ok (a+b) := if_pos h

theorem checkChildren_ok {count : ℕ} {previous : Option ℕ}
    (h : Chain (ChildOf P stream height) start children leaves)
    (hascending : leaves.flatten.Pairwise (· < ·)) (hcount : count+leaves.flatten.length < 2^64)
    (hprevious : ∀ last ∈ previous,∀ id ∈ leaves.flatten,last < id) :
    checkChildren stream.binding (height+1) previous count children =
      .ok (count+leaves.flatten.length) := by
  induction children generalizing start count leaves previous with
  | nil =>
    obtain rfl : leaves = [] := h
    rfl
  | cons child children ih =>
    obtain ⟨mine,rest,rfl,hchild,hrest⟩ := h
    rw [flatten_append] at hascending hprevious
    rw [flatten_append,length_append] at hcount ⊢
    have hfirst : child.first ∈ mine.flatten := mem_of_head? hchild.first
    have hlast : child.last ∈ mine.flatten := mem_of_getLast? hchild.last
    obtain ⟨-,hrestAscending,hacross⟩ := pairwise_append.mp hascending
    have hordered : ¬ (previous.any fun last => decide (last ≥ child.first)) = true := by
      rw [Option.any_eq_true]
      rintro ⟨last,hlast,hge⟩
      have hlt:=hprevious last hlast child.first (mem_append_left _ hfirst)
      have := of_decide_eq_true hge
      omega
    have hadd : addCount count child.count = .ok (count+mine.flatten.length) := by
      rw [hchild.count]
      apply addCount_of_lt
      omega
    rw [checkChildren,if_neg (by
      rintro (hbinding | hheight | hlast)
      · exact hbinding hchild.binding
      · exact hheight (congrArg (· + 1) hchild.height_eq)
      · exact hordered hlast),hadd,ok_bind,ih hrest hrestAscending (by omega) (by
        intro last hmem id hid
        cases hmem
        exact hacross _ hlast id hid)]
    rw [Nat.add_assoc]

theorem chain_head_first {first : DurableRun}
    (h : Chain (ChildOf P stream height) start (first::children) leaves) :
    first.height = height ∧ leaves.flatten.head? = some first.first := by
  obtain ⟨mine,rest,rfl,hchild,-⟩ := h
  refine ⟨hchild.height_eq,?_⟩
  rw [flatten_append,head?_append,hchild.first]
  rfl

theorem chain_getLast {last : DurableRun}
    (h : Chain (ChildOf P stream height) start children leaves)
    (hlast : children.getLast? = some last) : leaves.flatten.getLast? = some last.last := by
  induction children generalizing start leaves with
  | nil => cases hlast
  | cons child children ih =>
    obtain ⟨mine,rest,rfl,hchild,hrest⟩ := h
    rw [flatten_append,getLast?_append]
    cases children with
    | nil =>
      obtain rfl : rest = [] := hrest
      cases hlast
      rw [hchild.last]
      rfl
    | cons second children =>
      rw [getLast?_cons_cons] at hlast
      rw [ih hrest hlast]
      rfl

theorem writeIndex_ok (digests : Digests)
    (h : Chain (ChildOf (Holds pages stream height) stream height) start children leaves)
    (hne : children ≠ []) (hfan : children.length ≤ mergeFanIn)
    (hroots : ∀ child ∈ children,child.root < pages.length) (hsound : Sound leaves.flatten) :
    ∃ parent page,writeIndex digests stream.binding pages children = .ok (parent,pages++[page]) ∧
      parent.root = pages.length ∧
        ChildOf (Holds (pages++[page]) stream (height+1)) stream (height+1) start parent
          leaves := by
  cases children with
  | nil => exact absurd rfl hne
  | cons first others =>
    obtain ⟨hheight,hfirst⟩ := chain_head_first h
    obtain ⟨last,hlast⟩ : ∃ last,(first::others).getLast? = some last :=
      ⟨_,getLast?_eq_some_getLast (cons_ne_nil _ _)⟩
    have hcount : checkChildren stream.binding (height+1) none 0 (first::others) =
        .ok (0+leaves.flatten.length) :=
      checkChildren_ok h hsound.ascending (by simpa using hsound.count) (by simp)
    have hend:=chain_getLast h hlast
    rw [Nat.zero_add] at hcount
    rw [writeIndex,if_neg (by simp only [length_cons] at hfan ⊢; omega),hlast]
    simp only [head?_cons,hheight,hcount,ok_bind]
    refine ⟨_,_,rfl,rfl,rfl,rfl,rfl,hfirst,hend,?_⟩
    refine ⟨leaves.flatten.length,
      digests.children ((first::others).map fun child => (child.digest,child.count)),
      first::others,?_,hne,hfan,hroots,?_⟩
    · rw [getElem?_append_right (Nat.le_refl _),Nat.sub_self]
      rfl
    · exact h.imp fun _ _ _ hchild => hchild.mono (prefix_append ..)

def LevelsOk (pages : Pages) (stream : Stream) : ℕ → BuildLevels → Leaves → Prop
  | _,[],leaves => leaves = []
  | height,slot::levels,leaves => ∃ upper mine,leaves = upper++mine ∧
    LevelsOk pages stream (height+1) levels upper ∧
      Chain (ChildOf (Holds pages stream height) stream height) upper.length slot mine ∧
        slot.length < mergeFanIn ∧ ∀ child ∈ slot,child.root < pages.length

theorem LevelsOk.mono (hmore : pages <+: more)
    (h : LevelsOk pages stream height levels leaves) : LevelsOk more stream height levels leaves := by
  induction levels generalizing height leaves with
  | nil => exact h
  | cons slot levels ih =>
    obtain ⟨upper,mine,hleaves,hupper,hchain,hfan,hroots⟩ := h
    exact ⟨upper,mine,hleaves,ih hupper,hchain.imp fun _ _ _ hchild => hchild.mono hmore,hfan,
      fun child hchild => (hroots child hchild).trans_le hmore.length_le⟩

def weight : BuildLevels → ℕ
  | [] => 0
  | slot::levels => slot.length+mergeFanIn*weight levels

theorem levelsOk_of_empty (h : LevelsOk pages stream height levels leaves)
    (hempty : ∀ slot ∈ levels,slot = []) : leaves = [] := by
  induction levels generalizing height leaves with
  | nil => exact h
  | cons slot levels ih =>
    obtain ⟨upper,mine,rfl,hupper,hchain,-,-⟩ := h
    rw [hempty slot mem_cons_self] at hchain
    obtain rfl : mine = [] := hchain
    rw [ih hupper fun s hs => hempty s (mem_cons_of_mem _ hs)]
    rfl

theorem pushAt_ok (digests : Digests) :
    ∀ {pages : Pages} {height : ℕ} {leaves mine : Leaves} {child : DurableRun},
      LevelsOk pages stream height levels leaves →
      ChildOf (Holds pages stream height) stream height leaves.length child mine →
      child.root < pages.length → Sound (leaves++mine).flatten →
      weight levels+1 < mergeFanIn^levels.length →
      ∃ next more,pushAt digests stream.binding levels child pages = .ok (next,more) ∧
        pages <+: more ∧ LevelsOk more stream height next (leaves++mine) ∧
          weight next = weight levels+1 ∧ next.length = levels.length := by
  induction levels with
  | nil =>
    intro pages height leaves mine child _ _ _ _ hweight
    simp [weight] at hweight
  | cons slot levels ih =>
    rintro pages height leaves mine child ⟨upper,here,rfl,hupper,hchain,hfan,hroots⟩ hchild
      hroot hsound hweight
    have hslot : Chain (ChildOf (Holds pages stream height) stream height) upper.length
        (slot++[child]) (here++mine) := by
      apply chain_append hchain
      rw [chain_singleton,← length_append]
      exact hchild
    have hslotRoots : ∀ other ∈ slot++[child],other.root < pages.length := by
      intro other hother
      rcases mem_append.mp hother with hother | hother
      · exact hroots other hother
      · rw [mem_singleton.mp hother]
        exact hroot
    rw [pushAt]
    by_cases hopen : (slot++[child]).length < mergeFanIn
    · rw [if_pos hopen]
      refine ⟨_,_,rfl,prefix_rfl,⟨upper,here++mine,append_assoc ..,hupper,hslot,
        hopen,hslotRoots⟩,?_,rfl⟩
      simp only [weight,length_append,length_singleton]
      omega
    · rw [if_neg hopen]
      have hfull : (slot++[child]).length = mergeFanIn := by
        rw [length_append,length_singleton] at hopen ⊢
        omega
      have hslotSound : Sound (here++mine).flatten := by
        rw [append_assoc,flatten_append] at hsound
        exact hsound.append_right
      obtain ⟨parent,page,hwrite,hparentRoot,hparent⟩ := writeIndex_ok digests
        hslot (by simp) hfull.le hslotRoots hslotSound
      have hlevels : weight levels+1 < mergeFanIn^levels.length := by
        rw [length_append,length_singleton] at hfull
        simp only [weight,length_cons,Nat.pow_succ,mergeFanIn] at hweight hfull ⊢
        omega
      obtain ⟨next,more,hpush,hmore,hnext,hnextWeight,hnextLength⟩ :=
        ih (hupper.mono (prefix_append pages [page])) hparent (by simp [hparentRoot])
          (by rwa [append_assoc] at hsound) hlevels
      refine ⟨[]::next,more,?_,(prefix_append ..).trans hmore,?_,?_,?_⟩
      · rw [hwrite]
        simp only [ok_bind,hpush]
        rfl
      · refine ⟨upper++(here++mine),[],by simp,hnext,rfl,by simp [mergeFanIn],by simp⟩
      · rw [length_append,length_singleton] at hfull
        simp only [weight,hnextWeight,length_nil,mergeFanIn] at hfull ⊢
        omega
      · simp [hnextLength]

theorem writeIndex_levels (digests : Digests) {slot : List DurableRun} {upper mine : Leaves}
    (hupper : LevelsOk pages stream (height+1) levels upper)
    (hchain : Chain (ChildOf (Holds pages stream height) stream height) upper.length slot mine)
    (hne : slot ≠ []) (hfan : slot.length < mergeFanIn)
    (hroots : ∀ child ∈ slot,child.root < pages.length) (hsound : Sound (upper++mine).flatten)
    (hweight : weight levels+1 < mergeFanIn^levels.length) : ∃ parent middle next more,
      writeIndex digests stream.binding pages slot = .ok (parent,middle) ∧
        pushAt digests stream.binding levels parent middle = .ok (next,more) ∧ pages <+: more ∧
          LevelsOk more stream (height+1) next (upper++mine) ∧
            weight next = weight levels+1 ∧ next.length = levels.length := by
  have hslotSound : Sound mine.flatten := by
    rw [flatten_append] at hsound
    exact hsound.append_right
  obtain ⟨parent,page,hwrite,hparentRoot,hparent⟩ := writeIndex_ok digests
    hchain hne hfan.le hroots hslotSound
  obtain ⟨next,more,hpush,hmore,hnext,hnextWeight,hnextLength⟩ :=
    pushAt_ok digests (hupper.mono (prefix_append pages [page])) hparent
      (by simp [hparentRoot]) hsound hweight
  exact ⟨parent,_,next,more,hwrite,hpush,(prefix_append ..).trans hmore,hnext,
    hnextWeight,hnextLength⟩

theorem finishFrom_ok (digests : Digests) {fuel : ℕ} :
    ∀ {pages : Pages} {height : ℕ} {levels : BuildLevels} {leaves : Leaves},
      LevelsOk pages stream height levels leaves → levels.length = fuel → 0 < weight levels →
      weight levels ≤ mergeFanIn^(fuel-1) → Sound leaves.flatten →
      ∃ run more top,finishFrom digests stream.binding fuel levels pages = .ok (run,more) ∧
        pages <+: more ∧ top < height+fuel ∧ ChildOf (Holds more stream top) stream top 0 run
          leaves := by
  induction fuel with
  | zero =>
    intro pages height levels leaves _ hlength hpos
    rw [length_eq_zero_iff.mp hlength] at hpos
    exact absurd hpos (Nat.lt_irrefl 0)
  | succ fuel ih =>
    rintro pages height levels leaves hlevels hlength hpos hweight hsound
    cases levels with
    | nil => cases hlength
    | cons slot levels =>
      obtain ⟨upper,mine,rfl,hupper,hchain,hfan,hroots⟩ := hlevels
      have hrest : levels.length = fuel := by simpa using hlength
      rw [Nat.add_sub_cancel] at hweight
      -- one child and nothing above it is the root
      have hroot : ∀ child,slot = [child] → (∀ other ∈ levels,other = []) →
          ChildOf (Holds pages stream height) stream height 0 child (upper++mine) := by
        intro child hslot hempty
        obtain rfl := levelsOk_of_empty hupper hempty
        rw [hslot,chain_singleton] at hchain
        exact hchain
      cases levels with
      | nil =>
        obtain rfl : fuel = 0 := hrest.symm
        simp only [weight,Nat.pow_zero] at hweight hpos
        obtain ⟨child,rfl⟩ := length_eq_one_iff.mp (show slot.length = 1 by omega)
        exact ⟨child,pages,height,rfl,prefix_rfl,Nat.lt_succ_self _,hroot child rfl (by simp)⟩
      | cons next levels =>
        have hfuel : 0 < fuel := by
          rw [← hrest]
          exact Nat.succ_pos _
        obtain ⟨last,rfl⟩ : ∃ last,fuel = last+1 := ⟨fuel-1,by omega⟩
        rw [Nat.pow_succ] at hweight
        cases slot with
        | nil =>
          obtain rfl : mine = [] := hchain
          rw [append_nil] at hsound ⊢
          simp only [weight,length_nil,Nat.zero_add] at hpos hweight
          obtain ⟨run,more,top,hrun,hmore,htop,hholds⟩ :=
            ih hupper hrest (Nat.pos_of_mul_pos_left hpos)
              (by
                simp only [weight,Nat.add_sub_cancel]
                simp only [mergeFanIn] at hweight ⊢
                omega) hsound
          exact ⟨run,more,top,hrun,hmore,by omega,hholds⟩
        | cons child others =>
          rw [finishFrom]
          · by_cases hsingle : others = [] ∧ (next::levels).all List.isEmpty = true
            · simp only [if_pos hsingle]
              obtain ⟨rfl,hall⟩ := hsingle
              refine ⟨child,pages,height,rfl,prefix_rfl,by omega,hroot child rfl ?_⟩
              simpa using hall
            · simp only [if_neg hsingle]
              have hpush : weight (next::levels)+1 ≤ mergeFanIn^last := by
                rw [weight,length_cons] at hweight
                simp only [mergeFanIn] at hweight ⊢
                omega
              have hlarge : weight (next::levels)+1 < mergeFanIn^(next::levels).length := by
                rw [hrest,Nat.pow_succ]
                have : 0 < mergeFanIn^last := Nat.pow_pos (by decide)
                simp only [mergeFanIn] at hpush this ⊢
                omega
              obtain ⟨parent,middle,after,more,hwrite,hpushed,hmore,hafter,hafterWeight,
                hafterLength⟩ := writeIndex_levels digests hupper hchain
                  (cons_ne_nil _ _) hfan hroots hsound hlarge
              obtain ⟨run,final,top,hrun,hfinal,htop,hholds⟩ :=
                ih hafter (hafterLength.trans hrest) (by omega)
                  (by rwa [hafterWeight,Nat.add_sub_cancel]) hsound
              refine ⟨run,final,top,?_,hmore.trans hfinal,by omega,hholds⟩
              simp only [hwrite,ok_bind,hpushed]
              exact hrun
          · simp

end Zeppelin.Reclaim
