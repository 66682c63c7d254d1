import Zeppelin.Query.Batch

namespace Zeppelin.Query.Batch
open Machine List

mutual

/-- What a pushed value is held as. -/
def PushedValue.stored : PushedValue → BackedValue
  | .null => .null
  | .bool value => .bool value
  | .i64 value => .i64 value
  | .f64 bits => .f64 bits
  | .string bytes => .string bytes
  | .nodeRef id => .nodeRef id
  | .relRef id => .relRef id
  | .list map values => if map then .map (storedList values) else .list (storedList values)
  | .nodes _ ids => .nodes ids
  | .relationships _ ids => .relationships ids

def storedList : List PushedValue → List BackedValue
  | [] => []
  | value::values => value.stored::storedList values

end

mutual

/-- No map in the value is over a packed list. -/
def PushedValue.Plain : PushedValue → Prop
  | .list _ values => PlainList values
  | .nodes map _ | .relationships map _ => map = false
  | _ => True

def PlainList : List PushedValue → Prop
  | [] => True
  | value::values => value.Plain ∧ PlainList values

end

theorem listOrMap_inj {map : Bool} {values values' : List QueryValue} :
    listOrMap map values = listOrMap map values' ↔ values = values' := by
  cases map with
  | false => exact QueryValue.list.injEq _ _ ▸ Iff.rfl
  | true => exact QueryValue.map.injEq _ _ ▸ Iff.rfl

theorem list_eq_listOrMap {map : Bool} {values : List QueryValue} :
    QueryValue.list values = listOrMap map values ↔ map = false := by
  cases map with
  | false => exact iff_of_true rfl rfl
  | true => exact iff_of_false nofun nofun

theorem stored_list_value (map : Bool) (values : List PushedValue) :
    (PushedValue.list map values).stored.value = listOrMap map (valueList (storedList values)) := by
  rw [PushedValue.stored]
  cases map with
  | false => rfl
  | true => rfl

theorem storedList_length (values : List PushedValue) :
    (storedList values).length = values.length := by
  induction values with
  | nil => rfl
  | cons value values ih => rw [storedList,length_cons,length_cons,ih]

mutual

theorem PushedValue.stored_value_iff : ∀ value : PushedValue,
    value.stored.value = value.value ↔ value.Plain
  | .null | .bool _ | .i64 _ | .f64 _ | .string _ | .nodeRef _ | .relRef _ =>
    iff_of_true rfl trivial
  | .nodes map ids => list_eq_listOrMap
  | .relationships map ids => list_eq_listOrMap
  | .list map values => by
    rw [stored_list_value,PushedValue.value,listOrMap_inj,PushedValue.Plain]
    exact storedList_value_iff values

theorem storedList_value_iff : ∀ values : List PushedValue,
    valueList (storedList values) = pushedList values ↔ PlainList values
  | [] => iff_of_true rfl trivial
  | value::values => by
    rw [storedList,valueList,pushedList,cons.injEq,PlainList,value.stored_value_iff,
      storedList_value_iff values]

end

section Copy

variable {κ : Type} {context : Context κ} {keep : ℕ → Prop}

def Keeps (keep : ℕ → Prop) (s t : Arenas × κ) : Prop :=
  s.1.contents.Extends keep t.1.contents

theorem keeps_chained (keep : ℕ → Prop) : Chained (Keeps keep : Arenas × κ → Arenas × κ → Prop) where
  refl := fun s => .refl keep s.1.contents
  trans := fun _ _ _ h h' => (VariableArena.Extends.trans h h').mono fun _ _ hkeep => ⟨hkeep,hkeep⟩

variable {s t : Arenas × κ} {kind : Kind} {α : Type}

theorem Keeps.mono {keep' : ℕ → Prop} (h : Keeps keep s t)
    (hkeep : ∀ index,keep' index → keep index) : Keeps keep' s t :=
  VariableArena.Extends.mono h fun index _ => hkeep index

def Same (s t : Arenas × κ) : Prop :=
  ∀ kind,(t.1.store kind).values = (s.1.store kind).values

theorem Same.refl (s : Arenas × κ) : Same s s := fun _ => rfl

variable {u : Arenas × κ} {c : κ} {size depth : ℕ} {values : List kind.Element}

theorem Same.trans (h : Same s t) (h' : Same t u) : Same s u :=
  fun kind => (h' kind).trans (h kind)

theorem keeps_of_same (h : Same s t) (hlimit : t.1.limit = s.1.limit) : Keeps keep s t where
  limit_eq := hlimit
  bytes := by
    rw [Arenas.contents,Arenas.contents,h .bytes]
  nodes := by
    rw [Arenas.contents,Arenas.contents,h .nodes]
  relationships := by
    rw [Arenas.contents,Arenas.contents,h .relationships]
  length_le := by
    rw [Arenas.contents,Arenas.contents,h .children]
  children := by
    intro index _ _
    rw [Arenas.contents,Arenas.contents,h .children]

theorem put_store_self (arenas : Arenas) (kind : Kind) (arena : QueryArena kind.Element) :
    (arenas.put kind arena).store kind = arena := by
  simp [Arenas.put]

theorem put_store_of_ne (arenas : Arenas) {other : Kind} (arena : QueryArena kind.Element)
    (h : other ≠ kind) : (arenas.put kind arena).store other = arenas.store other := by
  simp [Arenas.put,h]

theorem keeps_put {arena : QueryArena kind.Element}
    (h : (s.1.store kind).values <+: arena.values) : Keeps keep s (s.1.put kind arena,c) := by
  obtain ⟨more,hmore⟩ := h
  have hstore : ∀ other,(s.1.store other).values <+: ((s.1.put kind arena).store other).values := by
    intro other
    by_cases hother : other = kind
    · subst hother
      rw [put_store_self,← hmore]
      exact prefix_append _ _
    · rw [put_store_of_ne _ _ hother]
  refine ⟨rfl,hstore .bytes,hstore .nodes,hstore .relationships,(hstore .children).length_le,?_⟩
  intro index hindex _
  obtain ⟨rest,hrest⟩ := hstore .children
  show ((s.1.put kind arena).store .children).values[index]? = (s.1.store .children).values[index]?
  rw [← hrest]
  exact getElem?_append_left hindex

theorem ask_framed (request : Request) (s : Arenas × κ) :
    Framed (Keeps keep) (ask context request) s fun _ t => t.1 = s.1 where
  frame := keeps_of_same (Same.refl s) rfl
  post := fun _ _ => rfl

theorem refill_framed : ∀ {pieces : List (List α)}
    {replacement : QueryArena α},Framed (Keeps keep) (refill context pieces replacement) s
      fun result t => t.1 = s.1 ∧ result.values = replacement.values++pieces.flatten := by
  intro pieces
  induction pieces generalizing s with
  | nil =>
    intro replacement
    exact .done (keeps_chained keep) ⟨rfl,(append_nil _).symm⟩
  | cons piece pieces ih =>
    intro replacement
    have hchain : Chained (Keeps keep : Arenas × κ → Arenas × κ → Prop) := keeps_chained keep
    unfold refill
    apply (ask_framed .checkpoint s).bind hchain
    intro _ t _ ht
    apply (ask_framed (.copied piece.length) t).bind hchain
    intro _ u _ hu
    unfold QueryArena.extendCopy
    split_ifs
    · exact ⟨hchain.refl u,nofun⟩
    · apply ih.imp fun _ h => h
      intro result v _ ⟨hv,hresult⟩
      refine ⟨hv.trans (hu.trans ht),?_⟩
      rw [hresult,flatten_cons,append_assoc]

theorem flatten_chunks (hsize : 0 < size) {fuel : ℕ} :
    ∀ {list : List α},list.length ≤ fuel → (chunks size fuel list).flatten = list := by
  induction fuel with
  | zero =>
    intro list hlength
    rw [length_eq_zero_iff.mp (Nat.le_zero.mp hlength)]
    rfl
  | succ fuel ih =>
    intro list hlength
    rw [chunks]
    split_ifs with hempty
    · rw [hempty]
      rfl
    · have hpositive:=length_pos_iff.mpr hempty
      rw [flatten_cons,ih,take_append_drop]
      rw [length_drop]
      omega

theorem flatten_chunksOf (hsize : 0 < size) (list : List α) :
    (chunksOf size list).flatten = list := flatten_chunks hsize (Nat.le_refl _)

theorem growTo_framed (kind : Kind) (needed : ℕ) (s : Arenas × κ) :
    Framed (Keeps keep) (growTo context kind needed s.1) s fun _ t => Same s t := by
  have hchain : Chained (Keeps keep : Arenas × κ → Arenas × κ → Prop) := keeps_chained keep
  unfold growTo
  split_ifs
  · exact .done hchain (Same.refl s)
  · apply (ask_framed _ s).bind hchain
    intro _ t _ ht
    apply refill_framed.bind hchain
    intro replacement u _ ⟨hu,hvalues⟩
    rw [flatten_chunksOf (by omega),nil_append] at hvalues
    have hsame : u.1 = s.1 := hu.trans ht
    refine (Framed.update _ ?_).imp (fun _ h => h) ?_
    · apply keeps_put
      rw [hvalues,hsame]
    · rintro _ _ _ rfl other
      dsimp only
      rw [hsame]
      by_cases hother : other = kind
      · subst hother
        rw [put_store_self,hvalues]
      · rw [put_store_of_ne _ _ hother]

theorem grow_framed (kind : Kind) (additional : ℕ) (s : Arenas × κ) :
    Framed (Keeps keep) (grow context kind additional) s fun _ t => Same s t := by
  have hchain : Chained (Keeps keep : Arenas × κ → Arenas × κ → Prop) := keeps_chained keep
  unfold grow
  apply (Framed.read hchain _).bind hchain
  rintro _ _ _ ⟨rfl,rfl⟩
  apply (Framed.require hchain _ _).bind hchain
  rintro _ _ _ ⟨_,rfl⟩
  exact growTo_framed kind _ _

theorem copied_framed (bytes : ℕ) (s : Arenas × κ) :
    Framed (Keeps keep) (copied context bytes) s fun _ t => Same s t := by
  have hchain : Chained (Keeps keep : Arenas × κ → Arenas × κ → Prop) := keeps_chained keep
  unfold copied
  apply (Framed.read hchain _).bind hchain
  rintro _ _ _ ⟨rfl,rfl⟩
  apply (Framed.require hchain _ _).bind hchain
  rintro _ _ _ ⟨_,rfl⟩
  apply (ask_framed _ _).bind hchain
  intro _ t _ ht
  refine (Framed.update _ ?_).imp (fun _ h => h) ?_
  · exact keeps_of_same (fun _ => rfl) rfl
  · rintro _ _ _ rfl kind
    dsimp only
    rw [ht]

theorem begin_framed (value : PushedValue) (s : Arenas × κ) :
    Framed (Keeps keep) (begin context value) s fun _ t => t.1 = s.1 := by
  have hchain : Chained (Keeps keep : Arenas × κ → Arenas × κ → Prop) := keeps_chained keep
  unfold begin
  apply (ask_framed _ s).bind hchain
  intro _ t _ ht
  apply (ask_framed _ t).imp (fun _ h => h)
  intro _ u _ hu
  exact hu.trans ht

def Added (kind : Kind) (values : List kind.Element) (s t : Arenas × κ) : Prop :=
  (t.1.store kind).values = (s.1.store kind).values++values

theorem put_added {capacity : ℕ} :
    Added kind values s (s.1.put kind ⟨(s.1.store kind).values++values,capacity⟩,c) := by
  rw [Added,put_store_self]

theorem extendCopy_framed (kind : Kind) (values : List kind.Element) (s : Arenas × κ) :
    Framed (Keeps keep) (extendCopy kind values) s fun _ t => Added kind values s t := by
  have hadds : ∀ t,(do
      let arena ← (s.1.store kind).extendCopy values
      return (s.1.put kind arena,s.2) : Except RuntimeError (Arenas × κ)) = .ok t →
      Keeps keep s t ∧ Added kind values s t := by
    intro t h
    obtain ⟨arena,harena,rfl⟩ := bind_pure_eq_ok h
    unfold QueryArena.extendCopy at harena
    split_ifs at harena
    obtain rfl := Except.ok.inj harena
    exact ⟨keeps_put (prefix_append _ _),put_added⟩
  unfold extendCopy
  apply (Framed.attempt (keeps_chained keep) _ fun t h => (hadds t h).1).imp (fun _ h => h)
  intro _ t _ h
  exact (hadds t h).2

theorem push_framed (kind : Kind) (value : kind.Element) (s : Arenas × κ) :
    Framed (Keeps keep) (push kind value) s fun _ t => Added kind [value] s t := by
  have hadds : ∀ t,(do
      let arena ← (s.1.store kind).push value
      return (s.1.put kind arena,s.2) : Except RuntimeError (Arenas × κ)) = .ok t →
      Keeps keep s t ∧ Added kind [value] s t := by
    intro t h
    obtain ⟨arena,harena,rfl⟩ := bind_pure_eq_ok h
    unfold QueryArena.push at harena
    split_ifs at harena
    obtain rfl := Except.ok.inj harena
    exact ⟨keeps_put (prefix_append _ _),put_added⟩
  unfold push
  apply (Framed.attempt (keeps_chained keep) _ fun t h => (hadds t h).1).imp (fun _ h => h)
  intro _ t _ h
  exact (hadds t h).2

theorem scalar_framed (value : PushedValue) (cell : Cell) (bytes : ℕ) (s : Arenas × κ) :
    Framed (Keeps keep) (scalar context value cell bytes) s fun result _ => result = cell := by
  have hchain : Chained (Keeps keep : Arenas × κ → Arenas × κ → Prop) := keeps_chained keep
  unfold scalar
  apply (begin_framed value s).bind hchain
  intro _ t _ _
  apply (copied_framed bytes t).bind hchain
  intro _ u _ _
  exact .done hchain rfl

theorem Added.after (hsame : Same s t) (h : Added kind values t u) : Added kind values s u := by
  rw [Added,h,hsame kind]

theorem each_added {β : Type} {f : β → Copying κ Unit} (g : β → List kind.Element)
    (hf : ∀ item s,Framed (Keeps keep) (f item) s fun _ t => Added kind (g item) s t)
    (items : List β) (s : Arenas × κ) :
    Framed (Keeps keep) (Stateful.each f items) s fun _ t => Added kind (items.flatMap g) s t := by
  induction items generalizing s with
  | nil =>
    apply Framed.done (keeps_chained keep)
    exact (append_nil _).symm
  | cons item items ih =>
    apply (hf item s).bind (keeps_chained keep)
    intro _ t _ ht
    apply (ih t).imp (fun _ h => h)
    intro _ u _ hu
    rw [Added,hu,ht,flatMap_cons,append_assoc]

theorem addBytes_framed (chunk : List UInt8) (s : Arenas × κ) :
    Framed (Keeps keep) (addBytes context chunk) s fun _ t => Added .bytes chunk s t := by
  have hchain : Chained (Keeps keep : Arenas × κ → Arenas × κ → Prop) := keeps_chained keep
  unfold addBytes
  apply (ask_framed _ s).bind hchain
  intro _ t _ ht
  apply (copied_framed _ t).bind hchain
  intro _ u _ hu
  apply (extendCopy_framed .bytes chunk u).imp (fun _ h => h)
  intro _ v _ hv
  have hsame : Same s t := fun kind => by rw [ht]
  exact hv.after (hsame.trans hu)

theorem addId_framed (kind : Kind) (id : kind.Element) (s : Arenas × κ) :
    Framed (Keeps keep) (addId context kind id) s fun _ t => Added kind [id] s t := by
  have hchain : Chained (Keeps keep : Arenas × κ → Arenas × κ → Prop) := keeps_chained keep
  unfold addId
  apply (ask_framed _ s).bind hchain
  intro _ t _ ht
  apply (copied_framed _ t).bind hchain
  intro _ u _ hu
  apply (push_framed kind id u).imp (fun _ h => h)
  intro _ v _ hv
  have hsame : Same s t := fun kind => by rw [ht]
  exact hv.after (hsame.trans hu)

theorem addPlace_framed (cell : Cell) (s : Arenas × κ) :
    Framed (Keeps keep) (addPlace context cell) s fun _ t => Added .children [cell] s t := by
  have hchain : Chained (Keeps keep : Arenas × κ → Arenas × κ → Prop) := keeps_chained keep
  unfold addPlace
  apply (ask_framed _ s).bind hchain
  intro _ t _ ht
  apply (push_framed .children cell t).imp (fun _ h => h)
  intro _ u _ hu
  have hsame : Same s t := fun kind => by rw [ht]
  exact hu.after hsame

theorem copyString_framed (text : List UInt8) (s : Arenas × κ) :
    Framed (Keeps keep) (copyString context text) s fun cell t =>
      ∃ start,cell = .string start text.length ∧
        slice t.1.contents.bytes start text.length = some text := by
  have hchain : Chained (Keeps keep : Arenas × κ → Arenas × κ → Prop) := keeps_chained keep
  unfold copyString
  apply (Framed.read hchain _).bind hchain
  rintro _ _ _ ⟨rfl,rfl⟩
  apply (Framed.require hchain _ _).bind hchain
  rintro _ _ _ ⟨_,rfl⟩
  apply (grow_framed _ _ _).bind hchain
  intro _ t _ _
  apply (Framed.read hchain _).bind hchain
  intro start u _ ⟨hstart,hu⟩
  subst hu
  apply (each_added (fun chunk : List (Kind.Element .bytes) => chunk) addBytes_framed _ u).bind
    hchain
  intro _ v _ hv
  apply Framed.done hchain
  refine ⟨start,rfl,?_⟩
  have hpieces : (chunksOf 65536 text).flatMap (fun chunk => chunk) = text := by
    rw [flatMap_id',flatten_chunksOf (by omega)]
  have hbytes : v.1.contents.bytes =
      u.1.contents.bytes++(chunksOf 65536 text).flatMap fun chunk => chunk := hv
  rw [hpieces] at hbytes
  rw [hbytes,hstart]
  exact slice_append _ text

theorem copyIds_framed (kind : Kind) (ids : List kind.Element) (s : Arenas × κ) :
    Framed (Keeps keep) (copyIds context kind ids) s fun start t =>
      slice (t.1.store kind).values start ids.length = some ids := by
  have hchain : Chained (Keeps keep : Arenas × κ → Arenas × κ → Prop) := keeps_chained keep
  unfold copyIds
  apply (grow_framed _ _ _).bind hchain
  intro _ t _ _
  apply (Framed.read hchain _).bind hchain
  intro start u _ ⟨hstart,hu⟩
  subst hu
  apply (each_added (fun id => [id]) (addId_framed kind) ids u).bind hchain
  intro _ v _ hv
  apply Framed.done hchain
  rw [flatMap_singleton'] at hv
  rw [hv,hstart]
  exact slice_append _ ids

theorem reserveChildren_framed (count : ℕ) (s : Arenas × κ) :
    Framed (Keeps keep) (reserveChildren context count) s fun start t =>
      start = s.1.contents.children.length ∧ start+count ≤ t.1.contents.children.length := by
  have hchain : Chained (Keeps keep : Arenas × κ → Arenas × κ → Prop) := keeps_chained keep
  unfold reserveChildren
  apply (grow_framed _ _ _).bind hchain
  intro _ t _ ht
  apply (Framed.read hchain _).bind hchain
  intro start u _ ⟨hstart,hu⟩
  subst hu
  apply (each_added (fun cell : Kind.Element .children => [cell]) addPlace_framed _ u).bind hchain
  intro _ v _ hv
  apply Framed.done hchain
  have hadded : v.1.contents.children =
      u.1.contents.children++(List.replicate count Cell.null).flatMap fun cell => [cell] := hv
  have hlength : v.1.contents.children.length = u.1.contents.children.length+count := by
    rw [hadded,flatMap_singleton',length_append,length_replicate]
  have hbefore : u.1.contents.children.length = s.1.contents.children.length :=
    congrArg List.length (ht .children)
  have hstart : start = u.1.contents.children.length := hstart
  omega

theorem setChild_framed (place : ℕ) (cell : Cell) (s : Arenas × κ) :
    Framed (Keeps fun index => index ≠ place) (setChild place cell) s fun _ t =>
      t.1.contents = { s.1.contents with children := s.1.contents.children.set place cell } := by
  have hset : ∀ t,(if place < s.1.used .children then
      Except.ok (s.1.put .children { s.1.store .children with
        values := (s.1.store .children).values.set place cell },s.2)
      else Except.error RuntimeError.batch) = .ok t →
      t.1.contents = { s.1.contents with children := s.1.contents.children.set place cell } := by
    intro t h
    split_ifs at h
    obtain rfl := Except.ok.inj h
    rfl
  unfold setChild
  refine (Framed.attempt (keeps_chained _) _ ?_).imp (fun _ h => h) fun _ t _ h => hset t h
  intro t h
  rw [Keeps,hset t h]
  exact set_extends _ place cell

/-- A copied value is not nested too deep, and is held behind what was there. -/
def Copied (value : PushedValue) (depth : ℕ) (s : Arenas × κ) (cell : Cell) (t : Arenas × κ) :
    Prop :=
  value.stored.depth+depth ≤ maxListDepth ∧
    value.stored.Held t.1.contents s.1.contents.children.length cell

theorem scalar_copied {value : PushedValue} {cell : Cell} {bytes : ℕ}
    (hdepth : value.stored.depth = 0) (hbound : depth ≤ maxListDepth)
    (hheld : ∀ arena base,value.stored.Held arena base cell) :
    Framed (Keeps keep) (scalar context value cell bytes) s (Copied value depth s) := by
  apply (scalar_framed value cell bytes s).imp (fun _ h => h)
  rintro _ t _ rfl
  refine ⟨?_,hheld _ _⟩
  rw [hdepth,Nat.zero_add]
  exact hbound

def ChildrenCopied (context : Context κ) (values : List PushedValue) (depth : ℕ) : Prop :=
  ∀ (base place : ℕ) (s : Arenas × κ),base ≤ s.1.contents.children.length →
    place+values.length ≤ s.1.contents.children.length →
    Framed (Keeps fun index => index < place ∨ place+values.length ≤ index)
      (copyChildren context values depth place) s fun _ t =>
      depthList (storedList values)+depth ≤ maxListDepth ∧ HeldFrom t.1.contents base place (storedList values)

theorem nested_framed {values : List PushedValue} (value : PushedValue)
    (cell : ℕ → Cell) (hchildren : depth < maxListDepth → ChildrenCopied context values (depth+1))
    (s : Arenas × κ) : Framed (Keeps keep) (do
      begin context value
      Stateful.require (depth < maxListDepth) .batch
      let start ← reserveChildren context values.length
      copyChildren context values (depth+1) start
      return cell start) s fun result t => depthList (storedList values)+(depth+1) ≤ maxListDepth ∧
        ∃ start,result = cell start ∧ s.1.contents.children.length ≤ start ∧
          HeldFrom t.1.contents s.1.contents.children.length start (storedList values) := by
  have hchain : Chained (Keeps (· < s.1.contents.children.length) :
    Arenas × κ → Arenas × κ → Prop) := keeps_chained _
  refine (show Framed (Keeps (· < s.1.contents.children.length)) _ s _ from ?_).imp ?_
    (fun _ _ _ h => h)
  · apply (begin_framed _ s).bind hchain
    intro _ t _ ht
    apply (Framed.require hchain _ _).bind hchain
    intro _ t' _ ⟨hdepth,hsame⟩
    subst hsame
    have hlength : t'.1.contents.children.length = s.1.contents.children.length := by rw [ht]
    apply (reserveChildren_framed values.length t').bind hchain
    intro start u hu ⟨hstart,hroom⟩
    have hgrown:=hu.length_le
    have hcopied:=hchildren hdepth s.1.contents.children.length start u (by omega) hroom
    apply (hcopied.imp (fun v h => h.mono fun index _ => by omega) fun _ _ _ h => h).bind hchain
    intro _ v _ ⟨hnested,hheld⟩
    apply Framed.done hchain
    exact ⟨hnested,start,rfl,by omega,hheld⟩
  · intro t h
    exact VariableArena.Extends.mono h fun index hindex _ => hindex

theorem packed_framed {keep : ℕ → Prop} {depth : ℕ} (value : PushedValue) (kind : Kind)
    (ids : List kind.Element) (cell : ℕ → Cell) (s : Arenas × κ) :
    Framed (Keeps keep) (do
      begin context value
      Stateful.require (depth < maxListDepth) .batch
      let start ← copyIds context kind ids
      return cell start) s fun result t => depth < maxListDepth ∧ ∃ start,result = cell start ∧
        slice (t.1.store kind).values start ids.length = some ids := by
  apply (begin_framed _ s).bind (keeps_chained keep)
  intro _ t _ _
  apply (Framed.require (keeps_chained keep) _ _).bind (keeps_chained keep)
  rintro _ _ _ ⟨hdepth,rfl⟩
  apply (copyIds_framed kind ids _).bind (keeps_chained keep)
  intro start u _ hslice
  apply Framed.done (keeps_chained keep)
  exact ⟨hdepth,start,rfl,hslice⟩

mutual

theorem copyValue_framed {keep : ℕ → Prop} : ∀ (value : PushedValue) {depth : ℕ},
    depth ≤ maxListDepth → ∀ s : Arenas × κ,
    Framed (Keeps keep) (copyValue context value depth) s (Copied value depth s)
  | .null,_,hbound,s => by
    rw [copyValue]
    apply scalar_copied rfl hbound
    intro arena base
    rfl
  | .bool value,_,hbound,s => by
    rw [copyValue]
    apply scalar_copied rfl hbound
    intro arena base
    rfl
  | .i64 value,_,hbound,s => by
    rw [copyValue]
    apply scalar_copied rfl hbound
    intro arena base
    rfl
  | .f64 bits,_,hbound,s => by
    rw [copyValue]
    apply scalar_copied rfl hbound
    intro arena base
    rfl
  | .nodeRef id,_,hbound,s => by
    rw [copyValue]
    apply scalar_copied rfl hbound
    intro arena base
    rfl
  | .relRef id,_,hbound,s => by
    rw [copyValue]
    apply scalar_copied rfl hbound
    intro arena base
    rfl
  | .string text,depth,hbound,s => by
    rw [copyValue]
    apply (begin_framed _ s).bind (keeps_chained keep)
    intro _ t _ _
    apply (copyString_framed text t).imp (fun _ h => h)
    intro cell u _ hheld
    have hdepth : (PushedValue.string text).stored.depth = 0 := rfl
    refine ⟨?_,hheld⟩
    rw [hdepth,Nat.zero_add]
    exact hbound
  | .nodes map ids,depth,hbound,s => by
    rw [copyValue]
    apply (packed_framed (.nodes map ids) .nodes ids (Cell.nodes · ids.length) s).imp
      (fun _ h => h)
    intro cell t _ ⟨hdepth,hslice⟩
    refine ⟨?_,hslice⟩
    rw [PushedValue.stored,BackedValue.depth]
    omega
  | .relationships map ids,depth,hbound,s => by
    rw [copyValue]
    apply (packed_framed (.relationships map ids) .relationships ids (Cell.relationships · ids.length) s).imp
      (fun _ h => h)
    intro cell t _ ⟨hdepth,hslice⟩
    refine ⟨?_,hslice⟩
    rw [PushedValue.stored,BackedValue.depth]
    omega
  | .list map values,depth,hbound,s => by
    rw [copyValue]
    apply (nested_framed (.list map values) (Cell.list map · values.length)
      (fun hdepth => copyChildren_framed values hdepth) s).imp (fun _ h => h)
    intro cell t _ ⟨hdepth,start,hcell,hstart,hheld⟩
    rw [← storedList_length] at hcell
    cases map with
    | false => exact ⟨by show depthList _+1+depth ≤ _; omega,start,hcell,hstart,hheld⟩
    | true => exact ⟨by show depthList _+1+depth ≤ _; omega,start,hcell,hstart,hheld⟩

theorem copyChildren_framed : ∀ (values : List PushedValue) {depth : ℕ},depth ≤ maxListDepth →
    ChildrenCopied context values depth
  | [],_,hbound,base,place,s,_,_ => by
    rw [copyChildren]
    apply Framed.done (keeps_chained _)
    refine ⟨?_,trivial⟩
    rw [storedList,depthList,Nat.zero_add]
    exact hbound
  | value::values,depth,hbound,base,place,s,hbase,hplace => by
    rw [length_cons] at hplace ⊢
    have hchain : Chained (Keeps fun index => index < place ∨ place+(values.length+1) ≤ index :
      Arenas × κ → Arenas × κ → Prop) := keeps_chained _
    rw [copyChildren]
    apply (copyValue_framed value hbound s).bind hchain
    intro cell t ht ⟨hdepth,hheld⟩
    apply ((setChild_framed place cell t).imp (fun u h => h.mono fun index _ => by omega)
      fun _ u hu h => And.intro hu h).bind hchain
    intro _ u _ ⟨hu,hset⟩
    have hlength : u.1.contents.children.length = t.1.contents.children.length := by
      rw [hset,length_set]
    have hgrown:=ht.length_le
    have hrest:=copyChildren_framed values hbound base (place+1) u (by omega) (by omega)
    apply hrest.imp (fun v h => h.mono fun index _ => by omega)
    intro _ v hv ⟨hdepths,hvalues⟩
    have hcell : u.1.contents.children[place]? = some cell := by
      rw [hset]
      exact getElem?_set_self (by omega)
    refine ⟨?_,⟨cell,?_,?_⟩,hvalues⟩
    · rw [storedList,depthList]
      omega
    · rw [hv.children place (by omega) (.inl (Nat.lt_succ_self _)),hcell]
    · -- the children of this value stand behind all the places
      apply hheld.extends (hu.trans hv) ?_ hbase
      intro index hindex
      exact ⟨by omega,by omega⟩

end

end Copy

end Zeppelin.Query.Batch
