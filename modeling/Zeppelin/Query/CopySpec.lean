import Zeppelin.Query.CellArena

namespace Zeppelin.Query
open List

theorem taken_self (arena : Arena) (count : ℕ) : taken arena count arena = count := if_pos rfl

theorem taken_of_ne {arena other : Arena} (count : ℕ) (h : other ≠ arena) :
    taken arena count other = 0 := if_neg h

theorem add_taken_le {used limit : Usage} (h : used ≤ limit) (arena : Arena) (count : ℕ) :
    used+taken arena count ≤ limit ↔ used arena+count ≤ limit arena := by
  constructor
  · intro hle
    have harena:=hle arena
    rwa [Pi.add_apply,taken_self] at harena
  · intro hle other
    rw [Pi.add_apply]
    by_cases hother : other = arena
    · rw [hother,taken_self]
      exact hle
    · rw [taken_of_ne count hother]
      exact h other

theorem le_of_add_le {used more limit : Usage} (h : used+more ≤ limit) : used ≤ limit :=
  fun arena => (Nat.le_add_right _ _).trans (h arena)

theorem slice_of_isPrefix {α : Type} {list longer part : List α} {start len : ℕ}
    (h : slice list start len = some part) (hinitial : list <+: longer) :
    slice longer start len = some part := by
  obtain ⟨more,rfl⟩ := hinitial
  unfold slice at h ⊢
  split_ifs at h with hle
  rw [length_append,if_pos (by omega),drop_append_of_le_length (by omega),
    take_append_of_le_length (by rw [length_drop]; omega)]
  exact h

theorem slice_append {α : Type} (list part : List α) :
    slice (list++part) list.length part.length = some part := by
  rw [slice,length_append,if_pos (Nat.le_refl _),drop_left,take_length]

structure VariableArena.Extends (keep : ℕ → Prop) (arena next : VariableArena) : Prop where
  limit_eq : next.limit = arena.limit
  bytes : arena.bytes <+: next.bytes
  nodes : arena.nodes <+: next.nodes
  relationships : arena.relationships <+: next.relationships
  length_le : arena.children.length ≤ next.children.length
  children : ∀ index < arena.children.length,keep index →
    next.children[index]? = arena.children[index]?

theorem VariableArena.Extends.refl (keep : ℕ → Prop) (arena : VariableArena) :
    arena.Extends keep arena :=
  ⟨rfl,prefix_rfl,prefix_rfl,prefix_rfl,Nat.le_refl _,fun _ _ _ => rfl⟩

theorem VariableArena.Extends.trans {keep keep' : ℕ → Prop} {first second third : VariableArena}
    (h : first.Extends keep second) (h' : second.Extends keep' third) :
    first.Extends (fun index => keep index ∧ keep' index) third where
  limit_eq := h'.limit_eq.trans h.limit_eq
  bytes := h.bytes.trans h'.bytes
  nodes := h.nodes.trans h'.nodes
  relationships := h.relationships.trans h'.relationships
  length_le := h.length_le.trans h'.length_le
  children := by
    intro index hindex hkeep
    rw [h'.children index (hindex.trans_le h.length_le) hkeep.2,h.children index hindex hkeep.1]

theorem VariableArena.Extends.mono {keep keep' : ℕ → Prop} {arena next : VariableArena}
    (h : arena.Extends keep next)
    (hkeep : ∀ index < arena.children.length,keep' index → keep index) :
    arena.Extends keep' next :=
  { h with children := fun index hindex hkept => h.children index hindex (hkeep index hindex hkept) }

mutual

def BackedValue.Held (arena : VariableArena) (base : ℕ) : BackedValue → Cell → Prop
  | .null,cell => cell = .null
  | .bool value,cell => cell = .bool value
  | .i64 value,cell => cell = .i64 value
  | .f64 bits,cell => cell = .f64 bits
  | .nodeRef id,cell => cell = .node id
  | .relRef id,cell => cell = .relationship id
  | .string bytes,cell =>
    ∃ start,cell = .string start bytes.length ∧ slice arena.bytes start bytes.length = some bytes
  | .nodes ids,cell =>
    ∃ start,cell = .nodes start ids.length ∧ slice arena.nodes start ids.length = some ids
  | .relationships ids,cell =>
    ∃ start,cell = .relationships start ids.length ∧
      slice arena.relationships start ids.length = some ids
  | .list values,cell =>
    ∃ start,cell = .list false start values.length ∧ base ≤ start ∧
      HeldFrom arena base start values
  | .map entries,cell =>
    ∃ start,cell = .list true start entries.length ∧ base ≤ start ∧
      HeldFrom arena base start entries

def HeldFrom (arena : VariableArena) (base : ℕ) : ℕ → List BackedValue → Prop
  | _,[] => True
  | place,value::values =>
    (∃ cell,arena.children[place]? = some cell ∧ value.Held arena base cell) ∧
      HeldFrom arena base (place+1) values

end

section Held

variable {arena next : VariableArena} {keep : ℕ → Prop} {base lower : ℕ}

mutual

theorem BackedValue.Held.extends (h : arena.Extends keep next)
    (hkeep : ∀ index,base ≤ index → keep index) (hlower : lower ≤ base) :
    ∀ {value : BackedValue} {cell : Cell},value.Held arena base cell → value.Held next lower cell
  | .null,_,hheld => hheld
  | .bool _,_,hheld => hheld
  | .i64 _,_,hheld => hheld
  | .f64 _,_,hheld => hheld
  | .nodeRef _,_,hheld => hheld
  | .relRef _,_,hheld => hheld
  | .string _,_,⟨start,hcell,hslice⟩ => ⟨start,hcell, slice_of_isPrefix hslice h.bytes⟩
  | .nodes _,_,⟨start,hcell,hslice⟩ => ⟨start,hcell, slice_of_isPrefix hslice h.nodes⟩
  | .relationships _,_,⟨start,hcell,hslice⟩ =>
    ⟨start,hcell, slice_of_isPrefix hslice h.relationships⟩
  | .list _,_,⟨start,hcell,hbase,hheld⟩ =>
    ⟨start,hcell,hlower.trans hbase,hheld.extends h hkeep hlower hbase⟩
  | .map _,_,⟨start,hcell,hbase,hheld⟩ =>
    ⟨start,hcell,hlower.trans hbase,hheld.extends h hkeep hlower hbase⟩

theorem HeldFrom.extends (h : arena.Extends keep next)
    (hkeep : ∀ index,base ≤ index → keep index) (hlower : lower ≤ base) :
    ∀ {values : List BackedValue} {place : ℕ},HeldFrom arena base place values → base ≤ place →
      HeldFrom next lower place values
  | [],_,_,_ => trivial
  | value::values,place,hheld,hplace => by
    rw [HeldFrom] at hheld ⊢
    obtain ⟨⟨cell,hcell,hvalue⟩,hrest⟩ := hheld
    have hindex:=(List.getElem?_eq_some_iff.mp hcell).1
    refine ⟨⟨cell,?_,hvalue.extends h hkeep hlower⟩,
      hrest.extends h hkeep hlower (Nat.le_succ_of_le hplace)⟩
    rw [h.children place hindex (hkeep place hplace),hcell]

end

end Held

theorem add_taken_taken_le {used limit : Usage} (h : used ≤ limit) {first second : Arena}
    (hne : first ≠ second) (count other : ℕ) :
    used+(taken first count+taken second other) ≤ limit ↔
      used first+count ≤ limit first ∧ used second+other ≤ limit second := by
  constructor
  · intro hle
    have hfirst:=hle first
    have hsecond:=hle second
    rw [Pi.add_apply,Pi.add_apply,taken_self,taken_of_ne other hne] at hfirst
    rw [Pi.add_apply,Pi.add_apply,taken_self,taken_of_ne count hne.symm] at hsecond
    rw [add_zero] at hfirst
    rw [zero_add] at hsecond
    exact ⟨hfirst,hsecond⟩
  · intro hle arena
    rw [Pi.add_apply,Pi.add_apply,taken,taken]
    split_ifs with hfirst hsecond hsecond
    · exact absurd (hfirst.symm.trans hsecond) hne
    · rw [hfirst,add_zero]
      exact hle.1
    · rw [hsecond,zero_add]
      exact hle.2
    · exact h arena

variable {bytes used additional limit : ℕ}

theorem copied_ok {arena : VariableArena} (h : arena.payload+bytes ≤ arena.limit .payloadBytes) :
    arena.copied bytes = .ok { arena with payload := arena.payload+bytes } := by
  rw [VariableArena.copied,failIf_neg _ (not_lt.mpr h)]
  rfl

theorem copied_error {arena : VariableArena}
    (h : ¬ arena.payload+bytes ≤ arena.limit .payloadBytes) :
    arena.copied bytes = .error .batchCapacity := by
  rw [VariableArena.copied,failIf,if_pos (not_le.mp h)]
  rfl

theorem grow_ok (h : used+additional ≤ limit) :
    grow used additional limit = .ok () := failIf_neg _ (not_lt.mpr h)

theorem grow_error (h : ¬ used+additional ≤ limit) :
    grow used additional limit = .error .batchCapacity := if_pos (not_le.mp h)

theorem scalar_ok {arena : VariableArena} (cell : Cell)
    (h : arena.usage+taken .payloadBytes bytes ≤ arena.limit) :
    ∃ next,arena.scalar cell bytes = .ok (cell,next) ∧ arena.Extends (fun _ => True) next ∧
      next.usage = arena.usage+taken .payloadBytes bytes := by
  refine ⟨{ arena with payload := arena.payload+bytes },?_,
    ⟨rfl,prefix_rfl,prefix_rfl,prefix_rfl,Nat.le_refl _,fun _ _ _ => rfl⟩,?_⟩
  · rw [VariableArena.scalar,copied_ok ((add_taken_le (le_of_add_le h) _ _).mp h)]
    rfl
  · funext other
    cases other <;> simp [VariableArena.usage,taken]

theorem scalar_error {arena : VariableArena} (cell : Cell) (hbounded : arena.usage ≤ arena.limit)
    (h : ¬ arena.usage+taken .payloadBytes bytes ≤ arena.limit) :
    arena.scalar cell bytes = .error .batchCapacity := by
  rw [VariableArena.scalar,copied_error ((add_taken_le hbounded _ _).not.mp h)]
  rfl

def VariableArena.reserve (arena : VariableArena) (count : ℕ) : VariableArena :=
  { arena with children := arena.children++List.replicate count Cell.null }

theorem reserve_usage (arena : VariableArena) (count : ℕ) :
    (arena.reserve count).usage = arena.usage+taken .listCells count := by
  funext other
  cases other <;> simp [VariableArena.reserve,VariableArena.usage,taken]

theorem reserve_extends (arena : VariableArena) (count : ℕ) :
    arena.Extends (fun _ => True) (arena.reserve count) := by
  refine ⟨rfl,prefix_rfl,prefix_rfl,prefix_rfl,?_,?_⟩
  · simp [VariableArena.reserve]
  · intro index hindex _
    exact getElem?_append_left hindex

theorem copyValue_list (values : List BackedValue) (depth : ℕ) (arena : VariableArena) :
    copyValue (.list values) depth arena = (do
      failIf (depth ≥ maxListDepth) .batch
      grow arena.children.length values.length (arena.limit .listCells)
      let next ← copyChildren values (depth+1) arena.children.length (arena.reserve values.length)
      return (.list false arena.children.length values.length,next)) := rfl

theorem copyValue_map (entries : List BackedValue) (depth : ℕ) (arena : VariableArena) :
    copyValue (.map entries) depth arena = (do
      failIf (depth ≥ maxListDepth) .batch
      grow arena.children.length entries.length (arena.limit .listCells)
      let next ← copyChildren entries (depth+1) arena.children.length
        (arena.reserve entries.length)
      return (.list true arena.children.length entries.length,next)) := rfl

theorem list_fits {arena : VariableArena} {values : List BackedValue}
    (h : arena.usage+(taken .listCells values.length+needList values) ≤ arena.limit) :
    arena.children.length+values.length ≤ arena.limit .listCells ∧
      (arena.reserve values.length).usage+needList values ≤
        (arena.reserve values.length).limit := by
  rw [← add_assoc] at h
  refine ⟨?_,?_⟩
  · exact (add_taken_le (le_of_add_le (le_of_add_le h)) _ _).mp (le_of_add_le h)
  · rw [reserve_usage]
    exact h

theorem set_extends (arena : VariableArena) (place : ℕ) (cell : Cell) :
    arena.Extends (fun index => index ≠ place)
      { arena with children := arena.children.set place cell } := by
  refine ⟨rfl,prefix_rfl,prefix_rfl,prefix_rfl,?_,?_⟩
  · simp
  · intro index _ hne
    exact getElem?_set_ne (Ne.symm hne)

theorem set_usage (arena : VariableArena) (place : ℕ) (cell : Cell) :
    VariableArena.usage { arena with children := arena.children.set place cell } =
      arena.usage := by
  funext other
  cases other <;> simp [VariableArena.usage]

mutual

theorem copyValue_ok (depth : ℕ) (arena : VariableArena) : ∀ value : BackedValue,
    value.depth+depth ≤ maxListDepth → arena.usage+value.need ≤ arena.limit →
    ∃ cell next,copyValue value depth arena = .ok (cell,next) ∧
      arena.Extends (fun _ => True) next ∧ next.usage = arena.usage+value.need ∧
        value.Held next arena.children.length cell
  | .null,_,hfits => by
    have hzero : arena.usage+taken .payloadBytes 0 ≤ arena.limit :=
      (add_taken_le (le_of_add_le hfits) _ _).mpr (le_of_add_le hfits .payloadBytes)
    obtain ⟨next,hnext,hextends,husage⟩ := scalar_ok Cell.null hzero
    refine ⟨_,next,hnext,hextends,?_,rfl⟩
    rw [husage,BackedValue.need]
    congr 1
    funext other
    exact ite_self _
  | .bool value,_,hfits => by
    obtain ⟨next,hnext,hextends,husage⟩ := scalar_ok (Cell.bool value) hfits
    exact ⟨_,next,hnext,hextends,husage,rfl⟩
  | .i64 value,_,hfits => by
    obtain ⟨next,hnext,hextends,husage⟩ := scalar_ok (Cell.i64 value) hfits
    exact ⟨_,next,hnext,hextends,husage,rfl⟩
  | .f64 bits,_,hfits => by
    obtain ⟨next,hnext,hextends,husage⟩ := scalar_ok (Cell.f64 bits) hfits
    exact ⟨_,next,hnext,hextends,husage,rfl⟩
  | .nodeRef id,_,hfits => by
    obtain ⟨next,hnext,hextends,husage⟩ := scalar_ok (Cell.node id) hfits
    exact ⟨_,next,hnext,hextends,husage,rfl⟩
  | .relRef id,_,hfits => by
    obtain ⟨next,hnext,hextends,husage⟩ := scalar_ok (Cell.relationship id) hfits
    exact ⟨_,next,hnext,hextends,husage,rfl⟩
  | .string text,_,hfits => by
    obtain ⟨hpayload,hbytes⟩ := (add_taken_taken_le (le_of_add_le hfits) (by decide) _ _).mp hfits
    rw [usage_payloadBytes] at hpayload
    rw [usage_stringBytes] at hbytes
    refine ⟨_,{ arena with payload := arena.payload+text.length,bytes := arena.bytes++text },
      ?_,?_,?_,arena.bytes.length,rfl,slice_append arena.bytes text⟩
    · rw [copyValue,failIf_neg _ (not_lt.mpr hpayload),ok_bind,grow_ok hbytes,ok_bind,
        copied_ok hpayload]
      rfl
    · exact ⟨rfl,prefix_append _ _,prefix_rfl,prefix_rfl,Nat.le_refl _,
        fun _ _ _ => rfl⟩
    · funext other
      cases other <;> simp [VariableArena.usage,BackedValue.need,taken]
  | .nodes ids,hdepth,hfits => by
    obtain ⟨hpayload,hnodes⟩ := (add_taken_taken_le (le_of_add_le hfits) (by decide) _ _).mp hfits
    rw [usage_payloadBytes] at hpayload
    rw [usage_nodeIds] at hnodes
    rw [BackedValue.depth] at hdepth
    refine ⟨_,{ arena with
        payload := arena.payload+16*ids.length
        nodes := arena.nodes++ids },?_,?_,?_,arena.nodes.length,rfl,
      slice_append arena.nodes ids⟩
    · rw [copyValue,failIf_neg _ (by omega),ok_bind,grow_ok hnodes,ok_bind,copied_ok hpayload]
      rfl
    · exact ⟨rfl,prefix_rfl,prefix_append _ _,prefix_rfl,Nat.le_refl _,
        fun _ _ _ => rfl⟩
    · funext other
      cases other <;> simp [VariableArena.usage,BackedValue.need,taken]
  | .relationships ids,hdepth,hfits => by
    obtain ⟨hpayload,hids⟩ := (add_taken_taken_le (le_of_add_le hfits) (by decide) _ _).mp hfits
    rw [usage_payloadBytes] at hpayload
    rw [usage_relationshipIds] at hids
    rw [BackedValue.depth] at hdepth
    refine ⟨_,{ arena with
        payload := arena.payload+16*ids.length
        relationships := arena.relationships++ids },?_,?_,?_,arena.relationships.length,rfl,
      slice_append arena.relationships ids⟩
    · rw [copyValue,failIf_neg _ (by omega),ok_bind,grow_ok hids,ok_bind,copied_ok hpayload]
      rfl
    · exact ⟨rfl,prefix_rfl,prefix_rfl,prefix_append _ _,Nat.le_refl _,
        fun _ _ _ => rfl⟩
    · funext other
      cases other <;> simp [VariableArena.usage,BackedValue.need,taken]
  | .list values,hdepth,hfits => by
    rw [BackedValue.depth] at hdepth
    obtain ⟨hroom,hrest⟩ := list_fits hfits
    obtain ⟨next,hnext,hextends,husage,hheld⟩ := copyChildren_ok (depth+1)
      arena.children.length values arena.children.length _ (by omega) (Nat.le_refl _) (by simp [VariableArena.reserve]) hrest
    refine ⟨_,next,?_,((reserve_extends arena _).trans hextends).mono ?_,?_,
      arena.children.length,rfl,Nat.le_refl _,hheld⟩
    · rw [copyValue_list,failIf_neg _ (by omega),ok_bind,grow_ok hroom,ok_bind,hnext]
      rfl
    · exact fun index hindex _ => ⟨trivial,.inl hindex⟩
    · rw [husage,reserve_usage,add_assoc]
      rfl
  | .map entries,hdepth,hfits => by
    rw [BackedValue.depth] at hdepth
    obtain ⟨hroom,hrest⟩ := list_fits hfits
    obtain ⟨next,hnext,hextends,husage,hheld⟩ := copyChildren_ok (depth+1)
      arena.children.length entries arena.children.length _ (by omega) (Nat.le_refl _) (by simp [VariableArena.reserve]) hrest
    refine ⟨_,next,?_,((reserve_extends arena _).trans hextends).mono ?_,?_,
      arena.children.length,rfl,Nat.le_refl _,hheld⟩
    · rw [copyValue_map,failIf_neg _ (by omega),ok_bind,grow_ok hroom,ok_bind,hnext]
      rfl
    · exact fun index hindex _ => ⟨trivial,.inl hindex⟩
    · rw [husage,reserve_usage,add_assoc]
      rfl

theorem copyChildren_ok (depth base : ℕ) : ∀ (values : List BackedValue) (place : ℕ)
    (arena : VariableArena),depthList values+depth ≤ maxListDepth → base ≤ place →
    place+values.length ≤ arena.children.length →
    arena.usage+needList values ≤ arena.limit →
    ∃ next,copyChildren values depth place arena = .ok next ∧
      arena.Extends (fun index => index < place ∨ place+values.length ≤ index) next ∧
        next.usage = arena.usage+needList values ∧ HeldFrom next base place values
  | [],_,arena,_,_,_,_ => ⟨arena,rfl,.refl _ arena,(add_zero _).symm,trivial⟩
  | value::values,place,arena,hdepth,hbase,hplace,hfits => by
    rw [depthList] at hdepth
    rw [needList,← add_assoc] at hfits
    rw [length_cons] at hplace
    obtain ⟨cell,next,hcopy,hextends,husage,hheld⟩ := copyValue_ok depth arena
      value (by omega) (le_of_add_le hfits)
    have hset:=set_extends next place cell
    have hlength:=hextends.length_le
    have hrestFits : VariableArena.usage { next with children := next.children.set place cell }+
        needList values ≤ next.limit := by
      rw [set_usage,husage,hextends.limit_eq]
      exact hfits
    obtain ⟨last,hlast,hlastExtends,hlastUsage,hlastHeld⟩ := copyChildren_ok depth base
      values (place+1) _ (by omega) (by omega)
      (by rw [length_set]; omega) hrestFits
    refine ⟨last,?_,((hextends.trans hset).trans hlastExtends).mono ?_,?_,⟨cell,?_,?_⟩,
      hlastHeld⟩
    · rw [copyChildren,hcopy,ok_bind]
      exact hlast
    · rw [length_cons]
      intro index _ hkeep
      exact ⟨⟨trivial,by omega⟩,by omega⟩
    · rw [hlastUsage,set_usage,husage,needList,add_assoc]
    · rw [hlastExtends.children place (by rw [length_set]; omega) (.inl (Nat.lt_succ_self _))]
      exact getElem?_set_self (by omega)
    · -- the children of this value stand behind all the places
      have hkept:=(hset.trans hlastExtends)
      exact hheld.extends hkept (fun index hindex => ⟨by omega,by omega⟩) (by omega)

end

theorem list_fits_iff {arena : VariableArena} {values : List BackedValue}
    (hroom : arena.children.length+values.length ≤ arena.limit .listCells)
    (hbounded : arena.usage ≤ arena.limit) :
    (arena.reserve values.length).usage ≤ (arena.reserve values.length).limit ∧
      ((arena.reserve values.length).usage+needList values ≤ arena.limit ↔
        arena.usage+(taken .listCells values.length+needList values) ≤ arena.limit) := by
  rw [reserve_usage,add_assoc]
  exact ⟨(add_taken_le hbounded _ _).mpr hroom,Iff.rfl⟩

mutual

theorem copyValue_error {depth : ℕ} {arena : VariableArena}
    (hbounded : arena.usage ≤ arena.limit) : ∀ {value : BackedValue},
    value.depth+depth ≤ maxListDepth → ¬ arena.usage+value.need ≤ arena.limit →
    copyValue value depth arena = .error .batchCapacity
  | .null,_,hfits => by
    rw [BackedValue.need,add_zero] at hfits
    exact absurd hbounded hfits
  | .bool value,_,hfits => scalar_error _ hbounded hfits
  | .i64 value,_,hfits => scalar_error _ hbounded hfits
  | .f64 bits,_,hfits => scalar_error _ hbounded hfits
  | .nodeRef id,_,hfits => scalar_error _ hbounded hfits
  | .relRef id,_,hfits => scalar_error _ hbounded hfits
  | .string text,_,hfits => by
    have hboth:=(add_taken_taken_le hbounded (by decide) _ _).not.mp hfits
    rw [usage_payloadBytes,usage_stringBytes] at hboth
    rw [copyValue]
    by_cases hpayload : arena.payload+text.length ≤ arena.limit .payloadBytes
    · rw [failIf_neg _ (not_lt.mpr hpayload),ok_bind,
        grow_error fun hbytes => hboth ⟨hpayload,hbytes⟩,error_bind]
    · rw [failIf,if_pos (not_le.mp hpayload),error_bind]
  | .nodes ids,hdepth,hfits => by
    have hboth:=(add_taken_taken_le hbounded (by decide) _ _).not.mp hfits
    rw [usage_payloadBytes,usage_nodeIds] at hboth
    rw [BackedValue.depth] at hdepth
    rw [copyValue,failIf_neg _ (by omega),ok_bind]
    by_cases hnodes : arena.nodes.length+ids.length ≤ arena.limit .nodeIds
    · rw [grow_ok hnodes,ok_bind,copied_error fun hpayload => hboth ⟨hpayload,hnodes⟩,
        error_bind]
    · rw [grow_error hnodes,error_bind]
  | .relationships ids,hdepth,hfits => by
    have hboth:=(add_taken_taken_le hbounded (by decide) _ _).not.mp hfits
    rw [usage_payloadBytes,usage_relationshipIds] at hboth
    rw [BackedValue.depth] at hdepth
    rw [copyValue,failIf_neg _ (by omega),ok_bind]
    by_cases hids : arena.relationships.length+ids.length ≤ arena.limit .relationshipIds
    · rw [grow_ok hids,ok_bind,copied_error fun hpayload => hboth ⟨hpayload,hids⟩,error_bind]
    · rw [grow_error hids,error_bind]
  | .list values,hdepth,hfits => by
    rw [BackedValue.depth] at hdepth
    rw [copyValue_list,failIf_neg _ (by omega),ok_bind]
    by_cases hroom : arena.children.length+values.length ≤ arena.limit .listCells
    · obtain ⟨hreserved,hiff⟩ := list_fits_iff hroom hbounded
      rw [grow_ok hroom,ok_bind,copyChildren_error hreserved (by omega)
        (by simp [VariableArena.reserve]) (hiff.not.mpr hfits),error_bind]
    · rw [grow_error hroom,error_bind]
  | .map entries,hdepth,hfits => by
    rw [BackedValue.depth] at hdepth
    rw [copyValue_map,failIf_neg _ (by omega),ok_bind]
    by_cases hroom : arena.children.length+entries.length ≤ arena.limit .listCells
    · obtain ⟨hreserved,hiff⟩ := list_fits_iff hroom hbounded
      rw [grow_ok hroom,ok_bind,copyChildren_error hreserved (by omega)
        (by simp [VariableArena.reserve]) (hiff.not.mpr hfits),error_bind]
    · rw [grow_error hroom,error_bind]

theorem copyChildren_error {depth : ℕ} : ∀ {values : List BackedValue} {place : ℕ}
    {arena : VariableArena},arena.usage ≤ arena.limit → depthList values+depth ≤ maxListDepth →
    place+values.length ≤ arena.children.length →
    ¬ arena.usage+needList values ≤ arena.limit →
    copyChildren values depth place arena = .error .batchCapacity
  | [],_,_,hbounded,_,_,hfits => by
    rw [needList,add_zero] at hfits
    exact absurd hbounded hfits
  | value::values,place,arena,hbounded,hdepth,hplace,hfits => by
    rw [depthList] at hdepth
    rw [needList,← add_assoc] at hfits
    rw [length_cons] at hplace
    rw [copyChildren]
    by_cases hvalue : arena.usage+value.need ≤ arena.limit
    · obtain ⟨cell,next,hcopy,hextends,husage,-⟩ := copyValue_ok depth arena
        value (by omega) hvalue
      have hlength:=hextends.length_le
      rw [hcopy,ok_bind]
      apply copyChildren_error
      · rw [set_usage,husage,hextends.limit_eq]
        exact hvalue
      · omega
      · rw [length_set]
        omega
      · rw [set_usage,husage,hextends.limit_eq]
        exact hfits
    · rw [copyValue_error hbounded (by omega) hvalue,error_bind]

end

mutual

theorem BackedValue.Held.read {arena : VariableArena} {base : ℕ} : ∀ {value : BackedValue}
    {cell : Cell} {fuel : ℕ},value.Held arena base cell → value.depth ≤ fuel →
    arena.value fuel cell = some value
  | .null,_,_,hheld,_ => by
    rw [BackedValue.Held] at hheld
    rw [hheld,VariableArena.value]
  | .bool _,_,_,hheld,_ => by
    rw [BackedValue.Held] at hheld
    rw [hheld,VariableArena.value]
  | .i64 _,_,_,hheld,_ => by
    rw [BackedValue.Held] at hheld
    rw [hheld,VariableArena.value]
  | .f64 _,_,_,hheld,_ => by
    rw [BackedValue.Held] at hheld
    rw [hheld,VariableArena.value]
  | .nodeRef _,_,_,hheld,_ => by
    rw [BackedValue.Held] at hheld
    rw [hheld,VariableArena.value]
  | .relRef _,_,_,hheld,_ => by
    rw [BackedValue.Held] at hheld
    rw [hheld,VariableArena.value]
  | .string _,_,_,⟨_,hcell,hslice⟩,_ => by
    rw [hcell,VariableArena.value,hslice,Option.map_some]
  | .nodes _,_,_,⟨_,hcell,hslice⟩,_ => by
    rw [hcell,VariableArena.value,hslice,Option.map_some]
  | .relationships _,_,_,⟨_,hcell,hslice⟩,_ => by
    rw [hcell,VariableArena.value,hslice,Option.map_some]
  | .list values,_,0,_,hdepth => absurd hdepth (Nat.not_succ_le_zero _)
  | .map entries,_,0,_,hdepth => absurd hdepth (Nat.not_succ_le_zero _)
  | .list values,_,fuel+1,⟨start,hcell,_,hheld⟩,hdepth => by
    rw [hcell,VariableArena.value,hheld.read (Nat.le_of_succ_le_succ hdepth),Option.map_some]
    rfl
  | .map entries,_,fuel+1,⟨start,hcell,_,hheld⟩,hdepth => by
    rw [hcell,VariableArena.value,hheld.read (Nat.le_of_succ_le_succ hdepth),Option.map_some]
    rfl

theorem HeldFrom.read {arena : VariableArena} {base : ℕ} : ∀ {values : List BackedValue}
    {place fuel : ℕ},HeldFrom arena base place values → depthList values ≤ fuel →
    ((List.range' place values.length).mapM fun index =>
      arena.children[index]?.bind (arena.value fuel)) = some values
  | [],_,_,_,_ => rfl
  | value::values,place,fuel,hheld,hdepth => by
    rw [HeldFrom] at hheld
    obtain ⟨⟨cell,hcell,hvalue⟩,hrest⟩ := hheld
    rw [depthList] at hdepth
    rw [length_cons,range'_succ,mapM_cons,hcell,Option.bind_some,
      hvalue.read (by omega),hrest.read (by omega)]
    rfl

end

end Zeppelin.Query
