import Mathlib.Data.List.TakeWhile
import Zeppelin.Collections.SortedIndex
import Zeppelin.Fts.SealedSegment

/-! fts/sealed.rs -/

namespace Zeppelin.Fts
open Collections List

structure ListCursor where
  span : ListSpan
  weight : ℕ
  block : Option ℕ
  slot : ℕ
  deriving DecidableEq

namespace ListCursor

def lastDocid (c : ListCursor) (i : ℕ) : Option ℕ := c.span.blocks[i]?.map Block.lastDocid

def loaded (c : ListCursor) : List (ℕ × ℕ) :=
  ((c.block.bind fun b => c.span.blocks[b]?).map Block.postings).getD []

def reset (c : ListCursor) : ListCursor :=
  if c.block = some 0 then { c with slot := 0 }
  else if c.span.blocks.isEmpty then { c with block := none,slot := 0 }
  else { c with block := some 0,slot := 0 }

def current (c : ListCursor) : Option ℕ := c.loaded[c.slot]?.map Prod.fst

def currentTf (c : ListCursor) : Option ℕ := c.loaded[c.slot]?.map Prod.snd

def currentWeightedTf (c : ListCursor) : Option ℕ :=
  c.currentTf.map fun tf => min (tf*c.weight) u64Max

def advance (c : ListCursor) : ListCursor :=
  match c.block with
  | none => c
  | some b =>
    if c.slot+1 < c.loaded.length then { c with slot := c.slot+1 }
    else if b+1 < c.span.blocks.length then { c with block := some (b+1),slot := 0 }
    else { c with block := none,slot := c.slot+1 }

def skipBelow (c : ListCursor) (row i : ℕ) : Bool := (c.lastDocid i).any fun last => last < row

/-- The first block from `low` on that ends at or above `row`. -/
def blockFrom (c : ListCursor) (row low : ℕ) : ℕ :=
  partitionPoint (c.skipBelow row) low c.span.blocks.length

def settle (row : ℕ) : ℕ → ListCursor → ListCursor
  | 0,c => c
  | fuel+1,c =>
    if c.block = none then c
    else if c.slot+((c.loaded.drop c.slot).takeWhile fun p => p.1 < row).length <
        c.loaded.length then
      { c with slot := c.slot+((c.loaded.drop c.slot).takeWhile fun p => p.1 < row).length }
    else settle row fuel { c with slot := c.loaded.length-1 }.advance

def seek (row : ℕ) (c : ListCursor) : ListCursor :=
  match c.block with
  | none => c
  | some b =>
    if c.current.any fun current => row ≤ current then c
    else if c.skipBelow row b then
      if c.span.blocks.length ≤ c.blockFrom row (b+1) then { c with block := none }
      else settle row (c.span.blocks.length+1)
        { c with block := some (c.blockFrom row (b+1)),slot := 0 }
    else settle row (c.span.blocks.length+1) c

def exhausted (c : ListCursor) : Bool := c.block.isNone

def impactAt (c : ListCursor) (i : ℕ) : BlockImpact := (c.span.blocks[i]?.map Block.impact).getD ⟨0,0⟩

def currentImpact (c : ListCursor) : BlockImpact := c.block.elim ⟨0,0⟩ c.impactAt

def blockFor (c : ListCursor) (row : ℕ) : Option ℕ :=
  match c.block with
  | none => none
  | some b =>
    if c.current.any fun current => row < current then none
    else if (c.lastDocid b).any fun last => row ≤ last then some b
    else if c.span.blocks.length ≤ c.blockFrom row (b+1) then none
    else some (c.blockFrom row (b+1))

def impactFor (c : ListCursor) (row : ℕ) : Option BlockImpact := (c.blockFor row).map c.impactAt

def impactHorizonFor (c : ListCursor) (row : ℕ) : Option ℕ :=
  if c.block = none then none
  else if c.current.any fun current => row < current then c.current.map fun current => current-1
  else (c.blockFor row).bind c.lastDocid

def rest (c : ListCursor) : List (ℕ × ℕ) :=
  match c.block with
  | none => []
  | some b => c.loaded.drop c.slot++(c.span.blocks.drop (b+1)).flatMap Block.postings

end ListCursor

def cursorAt (span : ListSpan) (weight : ℕ) : ListCursor := ⟨span,weight,none,0⟩

structure ListCursor.At (c : ListCursor) (before : List Block) (b : Block) (later : List Block) :
    Prop where
  blocks : c.span.blocks = before++b::later
  block : c.block = some before.length
  slot : c.slot < b.postings.length

structure ListCursor.Wf (lengths : List (FieldId × List ℕ)) (rowCount : ℕ) (c : ListCursor) :
    Prop where
  span : c.span.Valid lengths rowCount
  position : c.block = none ∨ ∃ before b later,c.At before b later

section Position
variable {c : ListCursor} {before later : List Block} {b : Block}

theorem ListCursor.At.loaded (h : c.At before b later) : c.loaded = b.postings := by
  simp [ListCursor.loaded,h.block,h.blocks]

theorem ListCursor.At.rest (h : c.At before b later) :
    c.rest = b.postings.drop c.slot++later.flatMap Block.postings := by
  have hdrop : (before++b::later).drop (before.length+1) = later := by simp
  simp only [ListCursor.rest,h.block,h.loaded,h.blocks,hdrop]

theorem ListCursor.At.rest_cons (h : c.At before b later) : ∃ p tail,c.rest = p::tail ∧
    b.postings[c.slot]? = some p ∧
    tail = b.postings.drop (c.slot+1)++later.flatMap Block.postings := by
  refine ⟨b.postings.get ⟨c.slot,h.slot⟩,_,?_,getElem?_eq_getElem h.slot,rfl⟩
  rw [h.rest,drop_eq_getElem_cons h.slot,cons_append]
  rfl

theorem ListCursor.At.lastDocid (h : c.At before b later) :
    c.lastDocid before.length = some b.lastDocid := by
  simp [ListCursor.lastDocid,h.blocks]

end Position

section Order
variable {lengths : List (FieldId × List ℕ)} {rowCount : ℕ} {span : ListSpan}
  {before later : List Block} {b : Block} {p : ℕ × ℕ}

theorem Block.Valid.exists_last {field : FieldId} (h : b.Valid lengths rowCount field) :
    ∃ init last,b.postings = init++[last] ∧ last.1 = b.lastDocid := by
  obtain ⟨last,hlast,hdocid⟩ := Option.map_eq_some_iff.mp h.last
  obtain ⟨init,hinit⟩ := getLast?_eq_some_iff.mp hlast
  exact ⟨init,last,hinit,hdocid⟩

theorem Block.Valid.ne_nil {field : FieldId} (h : b.Valid lengths rowCount field) :
    0 < b.postings.length := by
  obtain ⟨init,last,hpostings,-⟩ := h.exists_last
  rw [hpostings]
  simp

theorem ListSpan.Valid.block_ascending (h : span.Valid lengths rowCount) (hb : b ∈ span.blocks) :
    b.postings.Pairwise fun p q => p.1 < q.1 := by
  obtain ⟨before,later,hblocks⟩ := append_of_mem hb
  have hall:=h.ascending
  rw [hblocks,flatMap_append,flatMap_cons,pairwise_append,
    pairwise_append] at hall
  exact hall.2.1.1

theorem ListSpan.Valid.le_last (h : span.Valid lengths rowCount) (hb : b ∈ span.blocks)
    (hp : p ∈ b.postings) : p.1 ≤ b.lastDocid := by
  obtain ⟨init,last,hpostings,hlast⟩ := (h.block b hb).exists_last
  have hsorted:=h.block_ascending hb
  rw [hpostings] at hp hsorted
  rcases mem_append.mp hp with hp | hp
  · exact hlast ▸ ((pairwise_append.mp hsorted).2.2 p hp last (by simp)).le
  · rw [mem_singleton.mp hp,hlast]

theorem ListSpan.Valid.last_lt (h : span.Valid lengths rowCount)
    (hblocks : span.blocks = before++b::later) (hp : p ∈ later.flatMap Block.postings) :
    b.lastDocid < p.1 := by
  obtain ⟨init,last,hpostings,hlast⟩ := (h.block b (by simp [hblocks])).exists_last
  have hall:=h.ascending
  rw [hblocks,flatMap_append,flatMap_cons,pairwise_append,
    pairwise_append] at hall
  exact hlast ▸ hall.2.1.2.2 last (by simp [hpostings]) p hp

theorem skipBelow_mono {c : ListCursor} (h : c.span.Valid lengths rowCount) (row i j : ℕ)
    (hij : i ≤ j) (hj : c.skipBelow row j = true) : c.skipBelow row i = true := by
  rcases Nat.eq_or_lt_of_le hij with rfl | hlt
  · exact hj
  · unfold ListCursor.skipBelow ListCursor.lastDocid at hj ⊢
    obtain ⟨last,hlast,hrow⟩ := Option.any_eq_true _ _ |>.mp hj
    obtain ⟨bj,hbj,rfl⟩ := Option.map_eq_some_iff.mp hlast
    obtain ⟨hjlen,hget⟩ := List.getElem?_eq_some_iff.mp hbj
    have hilen : i < c.span.blocks.length := by omega
    have hsplit : c.span.blocks = c.span.blocks.take i++
        c.span.blocks[i]::c.span.blocks.drop (i+1) := by
      rw [← drop_eq_getElem_cons hilen,take_append_drop]
    have hmem : bj ∈ c.span.blocks.drop (i+1) := by
      rw [mem_drop_iff_getElem]
      refine ⟨j-(i+1),by omega,?_⟩
      rw [← hget]
      congr 1
      omega
    obtain ⟨init,last,hpostings,hlast⟩ := (h.block bj (by rw [← hget]; simp)).exists_last
    have hless:=h.last_lt hsplit
      (mem_flatMap.mpr ⟨bj,hmem,show last ∈ bj.postings by simp [hpostings]⟩)
    rw [getElem?_eq_getElem hilen]
    simp only [Option.map_some,Option.any_some,decide_eq_true_eq] at hrow ⊢
    omega

end Order

section Operations
variable {lengths : List (FieldId × List ℕ)} {rowCount : ℕ} {c : ListCursor}

theorem ListCursor.rest_of_none (h : c.block = none) : c.rest = [] := by
  simp [ListCursor.rest,h]

theorem ListCursor.Wf.posting (h : c.Wf lengths rowCount) : c.loaded[c.slot]? = c.rest.head? := by
  rcases h.position with hnone | ⟨before,b,later,hat⟩
  · simp [ListCursor.loaded,hnone,ListCursor.rest_of_none hnone]
  · obtain ⟨p,tail,hrest,hget,-⟩ := hat.rest_cons
    rw [hat.loaded,hget,hrest]
    rfl

theorem ListCursor.Wf.current (h : c.Wf lengths rowCount) :
    c.current = c.rest.head?.map Prod.fst := by
  rw [ListCursor.current,h.posting]

theorem ListCursor.Wf.currentTf (h : c.Wf lengths rowCount) :
    c.currentTf = c.rest.head?.map Prod.snd := by
  rw [ListCursor.currentTf,h.posting]

theorem ListCursor.Wf.rest_suffix (h : c.Wf lengths rowCount) :
    ∃ front,front++c.rest = c.span.blocks.flatMap Block.postings := by
  rcases h.position with hnone | ⟨before,b,later,hat⟩
  · exact ⟨_,by rw [ListCursor.rest_of_none hnone,append_nil]⟩
  · refine ⟨before.flatMap Block.postings++b.postings.take c.slot,?_⟩
    rw [hat.rest,hat.blocks,flatMap_append,flatMap_cons,append_assoc,
      ← append_assoc (b.postings.take c.slot),take_append_drop]

theorem ListCursor.Wf.rest_ascending (h : c.Wf lengths rowCount) :
    c.rest.Pairwise fun p q => p.1 < q.1 := by
  obtain ⟨front,hfront⟩ := h.rest_suffix
  have hall:=h.span.ascending
  rw [← hfront,pairwise_append] at hall
  exact hall.2.1

theorem ListCursor.Wf.mem_span (h : c.Wf lengths rowCount) {p : ℕ × ℕ} (hp : p ∈ c.rest) :
    ∃ b ∈ c.span.blocks,p ∈ b.postings := by
  obtain ⟨front,hfront⟩ := h.rest_suffix
  have hall : p ∈ c.span.blocks.flatMap Block.postings := by
    rw [← hfront]
    exact mem_append_right _ hp
  exact mem_flatMap.mp hall

theorem ListCursor.Wf.reset (h : c.Wf lengths rowCount) : c.reset.Wf lengths rowCount ∧
    c.reset.rest = c.span.blocks.flatMap Block.postings := by
  have hsame : c.reset.span = c.span := by
    unfold ListCursor.reset
    split
    · rfl
    · split <;> rfl
  cases hblocks : c.span.blocks with
  | nil =>
    have hblock : c.block = none := by
      rcases h.position with hnone | ⟨before,b,later,hat⟩
      · exact hnone
      · have hat:=hat.blocks
        simp [hblocks] at hat
    have hnone : c.reset.block = none := by simp [ListCursor.reset,hblock,hblocks]
    exact ⟨⟨hsame ▸ h.span,.inl hnone⟩,ListCursor.rest_of_none hnone⟩
  | cons b later =>
    have hblock : c.reset.block = some 0 := by
      unfold ListCursor.reset
      split
      · assumption
      · simp [hblocks]
    have hslot : c.reset.slot = 0 := by
      unfold ListCursor.reset
      split
      · rfl
      · split <;> rfl
    have hat : c.reset.At [] b later := by
      refine ⟨by rw [hsame,hblocks]; rfl,hblock,?_⟩
      rw [hslot]
      exact (h.span.block b (by simp [hblocks])).ne_nil
    refine ⟨⟨hsame ▸ h.span,.inr ⟨_,_,_,hat⟩⟩,?_⟩
    rw [hat.rest,hslot,drop_zero,flatMap_cons]

theorem ListCursor.Wf.advance (h : c.Wf lengths rowCount) : c.advance.Wf lengths rowCount ∧
    c.advance.rest = c.rest.tail := by
  rcases h.position with hnone | ⟨before,b,later,hat⟩
  · have heq : c.advance = c := by simp [ListCursor.advance,hnone]
    rw [heq,ListCursor.rest_of_none hnone]
    exact ⟨h,rfl⟩
  · obtain ⟨p,tail,hrest,-,htail⟩ := hat.rest_cons
    rw [hrest,tail_cons,htail]
    have hlength : c.span.blocks.length = before.length+(later.length+1) := by
      rw [hat.blocks,length_append,length_cons]
    simp only [ListCursor.advance,hat.block,hat.loaded]
    split
    · rename_i hin
      have hnext : ({ c with slot := c.slot+1 } : ListCursor).At before b later :=
        ⟨hat.blocks,hat.block,hin⟩
      have hwf : ({ c with slot := c.slot+1 } : ListCursor).Wf lengths rowCount :=
        ⟨h.span,.inr ⟨_,_,_,hnext⟩⟩
      rw [← hat.block]
      exact ⟨hwf,hnext.rest⟩
    · rename_i hend
      have hslot:=hat.slot
      rw [drop_eq_nil_of_le (show b.postings.length ≤ c.slot+1 by omega),nil_append]
      split
      · rename_i hmore
        cases later with
        | nil => simp at hlength; omega
        | cons next later =>
          have hvalid:=h.span.block next (by simp [hat.blocks])
          have hnext : ({ c with block := some (before.length+1),slot := 0 } :
              ListCursor).At (before++[b]) next later :=
            ⟨by simp [hat.blocks],by simp,hvalid.ne_nil⟩
          refine ⟨⟨h.span,.inr ⟨_,_,_,hnext⟩⟩,?_⟩
          rw [hnext.rest,drop_zero,flatMap_cons]
      · rename_i hdone
        have hlater : later = [] := length_eq_zero_iff.mp (by omega)
        refine ⟨⟨h.span,.inl rfl⟩,?_⟩
        rw [hlater,ListCursor.rest_of_none rfl]
        rfl

variable {α : Type} {row : ℕ}

theorem drop_length_takeWhile (p : α → Bool) (xs : List α) :
    xs.drop (xs.takeWhile p).length = xs.dropWhile p := by
  induction xs with
  | nil => rfl
  | cons x xs ih =>
    rw [takeWhile_cons,dropWhile_cons]
    split
    · exact ih
    · rfl

theorem ListCursor.At.settle_eq {before later : List Block} {b : Block} (hat : c.At before b later)
    (h : c.span.Valid lengths rowCount) (hrow : row ≤ b.lastDocid) (fuel : ℕ) :
    ∃ slot,settle row (fuel+1) c = { c with slot := slot } ∧ slot < b.postings.length ∧
      b.postings.drop slot = (b.postings.drop c.slot).dropWhile fun p => p.1 < row := by
  obtain ⟨init,last,hpostings,hlast⟩ := (h.block b (by simp [hat.blocks])).exists_last
  have hslot:=hat.slot
  have hland : ((b.postings.drop c.slot).takeWhile fun p => p.1 < row).length <
      (b.postings.drop c.slot).length := by
    have hmem : last ∈ b.postings.drop c.slot := by
      rw [hpostings]
      rw [hpostings,length_append,length_singleton] at hslot
      rw [drop_append_of_le_length (by omega)]
      simp
    have hle:=(takeWhile_sublist (fun p : ℕ × ℕ => decide (p.1 < row))
      (l := b.postings.drop c.slot)).length_le
    refine lt_of_le_of_ne hle fun heq => ?_
    have hall:=(takeWhile_sublist (fun p : ℕ × ℕ => decide (p.1 < row))
      (l := b.postings.drop c.slot)).eq_of_length heq
    have hless:=mem_takeWhile_imp (hall ▸ hmem)
    simp only [decide_eq_true_eq] at hless
    omega
  rw [length_drop] at hland
  refine ⟨c.slot+((b.postings.drop c.slot).takeWhile fun p => p.1 < row).length,?_,by omega,?_⟩
  · rw [ListCursor.settle,if_neg (by simp [hat.block]),hat.loaded,if_pos (by omega)]
  · rw [← drop_drop,drop_length_takeWhile]

theorem ListCursor.At.settle_wf {before later : List Block} {b : Block} (hat : c.At before b later)
    (h : c.span.Valid lengths rowCount) (hrow : row ≤ b.lastDocid) (fuel : ℕ) :
    (settle row (fuel+1) c).Wf lengths rowCount ∧
      (settle row (fuel+1) c).rest = c.rest.dropWhile fun p => p.1 < row := by
  obtain ⟨slot,hsettle,hslot,hdrop⟩ := hat.settle_eq h hrow fuel
  have hland : ({ c with slot := slot } : ListCursor).At before b later :=
    ⟨hat.blocks,hat.block,hslot⟩
  rw [hsettle]
  refine ⟨⟨h,.inr ⟨_,_,_,hland⟩⟩,?_⟩
  have hne : ((b.postings.drop c.slot).dropWhile fun p => p.1 < row).isEmpty = false := by
    rw [← hdrop,isEmpty_eq_false_iff]
    intro hnil
    have hlen:=congrArg List.length hnil
    rw [length_drop,length_nil] at hlen
    omega
  rw [hland.rest,hat.rest,hdrop,dropWhile_append,hne]
  rfl

theorem ListCursor.At.blockFrom {before later : List Block} {b : Block} (hat : c.At before b later)
    (h : c.span.Valid lengths rowCount) (row : ℕ) : ∃ skipped next,
      later = skipped++next ∧ (∀ s ∈ skipped,s.lastDocid < row) ∧
      c.blockFrom row (before.length+1) = before.length+1+skipped.length ∧
      next.head?.all (fun s => row ≤ s.lastDocid) = true := by
  have hlength : c.span.blocks.length = before.length+1+later.length := by
    rw [hat.blocks,length_append,length_cons]
    omega
  have hlow:=le_partitionPoint (c.skipBelow row) (before.length+1) c.span.blocks.length
  have hhigh:=partitionPoint_le (c.skipBelow row) (show before.length+1 ≤ c.span.blocks.length by
    omega)
  have hget : ∀ i,c.span.blocks[before.length+1+i]? = later[i]? := by
    intro i
    have hindex : before.length+1+i = before.length+(i+1) := by omega
    rw [hat.blocks,hindex,getElem?_append_right (by omega)]
    simp
  have hbelow : ∀ i s,later[i]? = some s → c.skipBelow row (before.length+1+i) =
      decide (s.lastDocid < row) := by
    intro i s hs
    simp [ListCursor.skipBelow,ListCursor.lastDocid,hget,hs]
  have hmono:=skipBelow_mono h row
  unfold ListCursor.blockFrom
  refine ⟨later.take (partitionPoint (c.skipBelow row) (before.length+1) c.span.blocks.length-
    (before.length+1)),later.drop (partitionPoint (c.skipBelow row) (before.length+1)
    c.span.blocks.length-(before.length+1)),(take_append_drop _ _).symm,?_,?_,?_⟩
  · intro s hs
    obtain ⟨i,hi,hgeti⟩ := mem_take_iff_getElem.mp hs
    have hin : before.length+1+i <
        partitionPoint (c.skipBelow row) (before.length+1) c.span.blocks.length := by omega
    have hskip:=below_of_lt_partitionPoint hmono (by omega) hin
    rw [hbelow i s (List.getElem?_eq_some_iff.mpr ⟨by omega,hgeti⟩),decide_eq_true_eq] at hskip
    exact hskip
  · rw [length_take]
    omega
  · rw [head?_drop]
    cases hnext : later[partitionPoint (c.skipBelow row) (before.length+1) c.span.blocks.length-
        (before.length+1)]? with
    | none => rfl
    | some s =>
      obtain ⟨hi,-⟩ := List.getElem?_eq_some_iff.mp hnext
      have hfails:=partitionPoint_fails hmono (le_refl
        (partitionPoint (c.skipBelow row) (before.length+1) c.span.blocks.length)) (by omega)
      have hsplit : partitionPoint (c.skipBelow row) (before.length+1) c.span.blocks.length =
          before.length+1+(partitionPoint (c.skipBelow row) (before.length+1)
            c.span.blocks.length-(before.length+1)) := by omega
      rw [hsplit,hbelow _ s hnext,decide_eq_false_iff_not] at hfails
      simpa using hfails

theorem dropWhile_eq_self_of_head {p : α → Bool} {xs : List α}
    (h : xs.head?.all (fun x => !p x) = true) : xs.dropWhile p = xs := by
  cases xs with
  | nil => rfl
  | cons x xs =>
    rw [dropWhile_cons,if_neg]
    simpa using h

theorem ListCursor.Wf.seek (h : c.Wf lengths rowCount) (row : ℕ) : (c.seek row).Wf lengths rowCount ∧
    (c.seek row).rest = c.rest.dropWhile fun p => p.1 < row := by
  rcases h.position with hnone | ⟨before,b,later,hat⟩
  · have heq : c.seek row = c := by simp [ListCursor.seek,hnone]
    rw [heq,ListCursor.rest_of_none hnone]
    exact ⟨h,rfl⟩
  · simp only [ListCursor.seek,hat.block]
    split
    · rename_i hhere
      refine ⟨h,(dropWhile_eq_self_of_head ?_).symm⟩
      rw [h.current] at hhere
      cases hhead : c.rest.head? with
      | none => rfl
      | some p => simpa [hhead] using hhere
    · split
      · rename_i hskip
        have hall : ∀ p ∈ b.postings.drop c.slot,decide (p.1 < row) = true := by
          intro p hp
          have hle:=h.span.le_last (by simp [hat.blocks]) (mem_of_mem_drop hp)
          simp only [ListCursor.skipBelow,hat.lastDocid,Option.any_some,
            decide_eq_true_eq] at hskip ⊢
          omega
        obtain ⟨skipped,next,hlater,hpassed,hpoint,hnext⟩ := hat.blockFrom h.span row
        have hskipped : ∀ p ∈ skipped.flatMap Block.postings,decide (p.1 < row) = true := by
          intro p hp
          obtain ⟨s,hs,hp⟩ := mem_flatMap.mp hp
          have hle:=h.span.le_last (by simp [hat.blocks,hlater,hs]) hp
          have hlt:=hpassed s hs
          simp only [decide_eq_true_eq]
          omega
        have hrest : c.rest.dropWhile (fun p => p.1 < row) =
            (next.flatMap Block.postings).dropWhile fun p => p.1 < row := by
          rw [hat.rest,dropWhile_append_of_pos hall,hlater,flatMap_append,
            dropWhile_append_of_pos hskipped]
        have hlength : c.span.blocks.length = before.length+1+(skipped.length+next.length) := by
          rw [hat.blocks,hlater]
          simp only [length_append,length_cons]
          omega
        rw [hrest,hpoint]
        cases next with
        | nil =>
          rw [if_pos (by simp at hlength; omega)]
          exact ⟨⟨h.span,.inl rfl⟩,ListCursor.rest_of_none rfl⟩
        | cons found next =>
          rw [if_neg (by simp at hlength; omega)]
          have hvalid:=h.span.block found (by simp [hat.blocks,hlater])
          have hland : ({ c with block := some (before.length+1+skipped.length),slot := 0 } :
              ListCursor).At (before++b::skipped) found next := by
            refine ⟨by simp [hat.blocks,hlater],?_,hvalid.ne_nil⟩
            simp only [length_append,length_cons]
            congr 1
            omega
          have hboth:=hland.settle_wf h.span (by simpa using hnext) c.span.blocks.length
          rw [hland.rest,drop_zero,← flatMap_cons] at hboth
          exact hboth
      · rename_i hskip
        have hrow : row ≤ b.lastDocid := by
          simp only [ListCursor.skipBelow,hat.lastDocid,Option.any_some,
            decide_eq_true_eq] at hskip
          omega
        exact hat.settle_wf h.span hrow c.span.blocks.length

/-- The pair dominates a posting with the frequency `p.2` in the row `p.1`. -/
def BlockImpact.Dominates (lengths : List (FieldId × List ℕ)) (field : FieldId)
    (impact : BlockImpact) (p : ℕ × ℕ) : Prop :=
  p.2 ≤ impact.maxTf ∧ impact.minLen ≤ fieldLength lengths field p.1

theorem ListCursor.Wf.overall_dominates (h : c.Wf lengths rowCount) {p : ℕ × ℕ} (hp : p ∈ c.rest) :
    c.span.overall.Dominates lengths c.span.field p := by
  obtain ⟨b,hb,hp⟩ := h.mem_span hp
  exact ⟨((h.span.block b hb).tf_le p hp).trans (h.span.overall_tf b hb),
    (h.span.overall_len b hb).trans ((h.span.block b hb).len_le p hp)⟩

theorem ListCursor.At.blockFor {before later : List Block} {b : Block} (hat : c.At before b later)
    (h : c.span.Valid lengths rowCount)
    (hcurrent : (c.current.any fun current => row < current) = false) :
    (c.blockFor row = none ∧ ∀ p ∈ c.rest,p.1 < row) ∨
      ∃ i found,c.blockFor row = some i ∧ c.span.blocks[i]? = some found ∧
        row ≤ found.lastDocid ∧
        ∀ p ∈ c.rest,row ≤ p.1 → p.1 ≤ found.lastDocid → p ∈ found.postings := by
  have hmem : b ∈ c.span.blocks := by simp [hat.blocks]
  simp only [ListCursor.blockFor,hat.block,hcurrent,Bool.false_eq_true,if_false,
    hat.lastDocid,Option.any_some]
  split
  · rename_i hlast
    rw [decide_eq_true_eq] at hlast
    refine .inr ⟨_,b,rfl,by simp [hat.blocks],hlast,?_⟩
    intro p hp _ hle
    rw [hat.rest] at hp
    rcases mem_append.mp hp with hp | hp
    · exact mem_of_mem_drop hp
    · exact absurd hle (not_le.mpr (h.last_lt hat.blocks hp))
  · rename_i hlast
    rw [decide_eq_true_eq,not_le] at hlast
    obtain ⟨skipped,next,hlater,hpassed,hpoint,hnext⟩ := hat.blockFrom h row
    have hlength : c.span.blocks.length = before.length+1+(skipped.length+next.length) := by
      rw [hat.blocks,hlater]
      simp only [length_append,length_cons]
      omega
    -- what lies before the block that was found is below the row
    have hbelow : ∀ p ∈ c.rest,row ≤ p.1 → p ∈ next.flatMap Block.postings := by
      intro p hp hge
      rw [hat.rest,hlater,flatMap_append] at hp
      rcases mem_append.mp hp with hp | hp
      · have hle:=h.le_last hmem (mem_of_mem_drop hp)
        omega
      · rcases mem_append.mp hp with hp | hp
        · obtain ⟨s,hs,hp⟩ := mem_flatMap.mp hp
          have hle:=h.le_last (by simp [hat.blocks,hlater,hs]) hp
          have hlt:=hpassed s hs
          omega
        · exact hp
    rw [hpoint]
    cases next with
    | nil =>
      rw [if_pos (by simp at hlength; omega)]
      refine .inl ⟨rfl,?_⟩
      intro p hp
      by_contra hge
      exact absurd (hbelow p hp (by omega)) (by simp)
    | cons found next =>
      rw [if_neg (by simp at hlength; omega)]
      have hsplit : c.span.blocks = (before++b::skipped)++found::next := by
        simp [hat.blocks,hlater]
      refine .inr ⟨_,found,rfl,?_,by simpa using hnext,?_⟩
      · have hindex : before.length+1+skipped.length = (before++b::skipped).length := by
          simp only [length_append,length_cons]
          omega
        rw [hsplit,hindex,getElem?_append_right le_rfl]
        simp
      · intro p hp hge hle
        have hin:=hbelow p hp hge
        rw [flatMap_cons] at hin
        rcases mem_append.mp hin with hin | hin
        · exact hin
        · exact absurd hle (not_le.mpr (h.last_lt hsplit hin))

theorem ListCursor.Wf.impactFor_dominates (h : c.Wf lengths rowCount) {p : ℕ × ℕ}
    (hp : p ∈ c.rest) (hrow : row ≤ p.1) (hhorizon : ∀ e ∈ c.impactHorizonFor row,p.1 ≤ e) :
    ∃ impact,c.impactFor row = some impact ∧ impact.Dominates lengths c.span.field p := by
  rcases h.position with hnone | ⟨before,b,later,hat⟩
  · rw [ListCursor.rest_of_none hnone] at hp
    cases hp
  · unfold ListCursor.impactHorizonFor at hhorizon
    rw [if_neg (by simp [hat.block])] at hhorizon
    cases hcurrent : c.current.any fun current => row < current with
    | true =>
      rw [hcurrent,if_pos rfl] at hhorizon
      obtain ⟨q,tail,hrest,-,-⟩ := hat.rest_cons
      rw [h.current,hrest] at hcurrent hhorizon
      simp only [head?_cons,Option.map_some,Option.any_some,decide_eq_true_eq] at hcurrent
      have hle:=hhorizon (q.1-1) rfl
      have hsorted:=h.rest_ascending
      rw [hrest] at hp hsorted
      rcases mem_cons.mp hp with rfl | hp
      · omega
      · have hlt:=(pairwise_cons.mp hsorted).1 p hp
        omega
    | false =>
      rw [hcurrent,if_neg Bool.false_ne_true] at hhorizon
      rcases hat.blockFor h.span hcurrent with ⟨-,hbelow⟩ | ⟨i,found,hfor,hget,-,hfound⟩
      · exact absurd hrow (not_le.mpr (hbelow p hp))
      · have hle : p.1 ≤ found.lastDocid :=
          hhorizon _ (by simp [hfor,ListCursor.lastDocid,hget])
        have hvalid:=h.span.block found (mem_of_getElem? hget)
        have hin:=hfound p hp hrow hle
        refine ⟨found.impact,?_,hvalid.tf_le p hin,hvalid.len_le p hin⟩
        simp [ListCursor.impactFor,hfor,ListCursor.impactAt,hget]

theorem ListCursor.Wf.le_horizon (h : c.Wf lengths rowCount) {e : ℕ}
    (he : c.impactHorizonFor row = some e) : row ≤ e ∧ e < rowCount := by
  unfold ListCursor.impactHorizonFor at he
  obtain ⟨hblock,he⟩ := Option.ite_none_left_eq_some.mp he
  obtain ⟨before,b,later,hat⟩ := h.position.resolve_left hblock
  split at he
  · rename_i hcurrent
    obtain ⟨q,tail,hrest,-,-⟩ := hat.rest_cons
    obtain ⟨found,hfound,hq⟩ := h.mem_span (show q ∈ c.rest by simp [hrest])
    have hlt:=(h.span.block found hfound).row q hq
    rw [h.current,hrest] at hcurrent he
    simp only [head?_cons,Option.map_some,Option.any_some,decide_eq_true_eq,
      Option.some.injEq] at hcurrent he
    omega
  · rename_i hcurrent
    rcases hat.blockFor h.span (by simpa using hcurrent) with
      ⟨hnone,-⟩ | ⟨i,found,hfor,hget,hle,-⟩
    · rw [hnone] at he
      cases he
    · rw [hfor,Option.bind_some,ListCursor.lastDocid,hget] at he
      obtain rfl := Option.some.inj he
      have hvalid:=h.span.block found (mem_of_getElem? hget)
      obtain ⟨init,last,hpostings,hlast⟩ := hvalid.exists_last
      have hlt:=hvalid.row last (by simp [hpostings])
      exact ⟨hle,by omega⟩

end Operations

end Zeppelin.Fts
