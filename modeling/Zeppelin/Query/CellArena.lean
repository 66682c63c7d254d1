import Mathlib.Algebra.Order.Pi
import Mathlib.Data.Fintype.Basic
import Zeppelin.Query.Value

/-! property_graph/query/runtime/batch.rs, relational.rs: How much a row takes of
the arenas is a parameter. -/

namespace Zeppelin.Query
open List

abbrev Row := List QueryValue

inductive RuntimeError where
  | value (error : QueryError)
  | batch
  | batchCapacity
  | memory
  | reference
  deriving DecidableEq

inductive Arena where
  | payloadBytes
  | stringBytes
  | listCells
  | nodeIds
  | relationshipIds
  deriving DecidableEq

instance : Fintype Arena where
  elems := {.payloadBytes,.stringBytes,.listCells,.nodeIds,.relationshipIds}
  complete := by
    intro arena
    cases arena <;> simp

abbrev Usage := Arena → ℕ

section Arena
variable {ρ : Type}

structure RowBatch (ρ : Type) where
  maxRows : ℕ
  limit : Usage
  rows : List ρ

def RowBatch.empty (maxRows : ℕ) (limit : Usage) : RowBatch ρ := ⟨maxRows,limit,[]⟩

def RowBatch.push (cost : ρ → Usage) (batch : RowBatch ρ) (row : ρ) :
    Except RuntimeError (RowBatch ρ) :=
  if batch.rows.length ≥ batch.maxRows then .error .batchCapacity
  else if ∀ arena,(batch.rows.map fun row => cost row arena).sum+cost row arena ≤
      batch.limit arena then .ok { batch with rows := batch.rows++[row] }
  else .error .batchCapacity

structure StorageCapacity where
  rows : ℕ
  maxRows : ℕ
  limit : Usage

structure Rows (ρ : Type) where
  capacity : StorageCapacity
  chunks : List (RowBatch ρ)
  stored : ℕ
  order : List ℕ

def Rows.new (capacity : StorageCapacity) : Except RuntimeError (Rows ρ) :=
  if capacity.rows = 0 ∧ capacity.maxRows ≠ 0 then .error .batch
  else .ok ⟨capacity,[RowBatch.empty (min capacity.rows capacity.maxRows) capacity.limit],0,[]⟩

def Rows.grow (rows : Rows ρ) : List (RowBatch ρ) :=
  if rows.stored / rows.capacity.rows = rows.chunks.length then
    rows.chunks++[RowBatch.empty (min rows.capacity.rows (rows.capacity.maxRows-rows.stored))
      rows.capacity.limit]
  else rows.chunks

def Rows.push (cost : ρ → Usage) (rows : Rows ρ) (row : ρ) :
    Except RuntimeError (Rows ρ) :=
  if rows.stored = rows.capacity.maxRows then .error .batchCapacity
  else
    match rows.grow[rows.stored / rows.capacity.rows]? with
    | none => .error .batch
    | some chunk => do
      let chunk ← chunk.push cost row
      return { rows with
        chunks := rows.grow.set (rows.stored / rows.capacity.rows) chunk
        order := rows.order++[rows.stored]
        stored := rows.stored+1 }

def Rows.raw (rows : Rows ρ) (position : ℕ) : Option ρ :=
  (rows.chunks[position / max rows.capacity.rows 1]?).bind fun chunk =>
    chunk.rows[position % max rows.capacity.rows 1]?

def Rows.len (rows : Rows ρ) : ℕ := rows.order.length

def Rows.row (rows : Rows ρ) (position : ℕ) : Option ρ := (rows.order[position]?).bind rows.raw

def orBatch {α : Type} : Option α → Except RuntimeError α
  | some value => .ok value
  | none => .error .batch

theorem pushed_eq {cost : ρ → Usage} {batch next : RowBatch ρ} {row : ρ}
    (h : batch.push cost row = .ok next) :
    next = { batch with rows := batch.rows++[row] } ∧
      ∀ arena,(batch.rows.map fun row => cost row arena).sum+cost row arena ≤
        batch.limit arena := by
  unfold RowBatch.push at h
  split_ifs at h with hfull hfits
  exact ⟨(Except.ok.inj h).symm,hfits⟩

structure Stores (capacity : StorageCapacity) (rows : Rows ρ) (held : List ρ) : Prop where
  capacity_eq : rows.capacity = capacity
  stored_eq : rows.stored = held.length
  order_eq : rows.order = List.range held.length
  bounded : held.length ≤ capacity.maxRows
  chunk_count : held.length ≤ rows.chunks.length*capacity.rows
  chunk_used : rows.chunks.length = 1 ∨ (rows.chunks.length-1)*capacity.rows < held.length
  chunk_rows : ∀ index chunk,rows.chunks[index]? = some chunk →
    chunk.rows = (held.drop (index*capacity.rows)).take capacity.rows ∧
      chunk.limit = capacity.limit ∧
        chunk.maxRows = min capacity.rows (capacity.maxRows-index*capacity.rows)

theorem stores_new {capacity : StorageCapacity} (hpositive : 0 < capacity.rows) :
    ∃ rows : Rows ρ,Rows.new capacity = .ok rows ∧ Stores capacity rows [] := by
  refine ⟨_,if_neg (by omega),rfl,rfl,rfl,Nat.zero_le _,Nat.zero_le _,.inl rfl,?_⟩
  intro index chunk hchunk
  cases index with
  | zero =>
    obtain rfl := Option.some.inj hchunk
    simp [RowBatch.empty]
  | succ index => cases hchunk

section Stores

variable {capacity : StorageCapacity} {rows : Rows ρ} {held : List ρ}

theorem Stores.len_eq (h : Stores capacity rows held) : rows.len = held.length := by
  rw [Rows.len,h.order_eq,length_range]

theorem Stores.raw_eq (h : Stores capacity rows held) (hpositive : 0 < capacity.rows)
    (position : ℕ) : rows.raw position = held[position]? := by
  have hsplit:=Nat.div_add_mod position capacity.rows
  have hmod:=Nat.mod_lt position hpositive
  rw [Rows.raw,h.capacity_eq,Nat.max_eq_left hpositive]
  cases hchunk : rows.chunks[position / capacity.rows]? with
  | none =>
    have hlarge:=List.getElem?_eq_none_iff.mp hchunk
    have hle:=Nat.mul_le_mul_right capacity.rows hlarge
    have hcount:=h.chunk_count
    rw [Nat.mul_comm (position / capacity.rows)] at hle
    symm
    apply getElem?_eq_none
    omega
  | some chunk =>
    obtain ⟨hrows,-,-⟩ := h.chunk_rows _ chunk hchunk
    rw [Option.bind_some,hrows,getElem?_take_of_lt hmod,getElem?_drop,
      Nat.mul_comm,hsplit]

theorem Stores.row_eq (h : Stores capacity rows held) (hpositive : 0 < capacity.rows)
    (position : ℕ) : rows.row position = held[position]? := by
  rw [Rows.row,h.order_eq]
  by_cases hlt : position < held.length
  · rw [getElem?_range hlt,Option.bind_some,h.raw_eq hpositive]
  · rw [getElem?_eq_none (by simpa using hlt),getElem?_eq_none (not_lt.mp hlt)]
    rfl

theorem Stores.grow_eq (h : Stores capacity rows held) (hpositive : 0 < capacity.rows) :
    (∀ index chunk,rows.grow[index]? = some chunk →
      chunk.rows = (held.drop (index*capacity.rows)).take capacity.rows ∧
        chunk.limit = capacity.limit ∧
          chunk.maxRows = min capacity.rows (capacity.maxRows-index*capacity.rows)) ∧
      rows.grow.length = held.length / capacity.rows+1 := by
  have hsplit:=Nat.div_add_mod held.length capacity.rows
  have hmod:=Nat.mod_lt held.length hpositive
  have hcount:=h.chunk_count
  rw [Rows.grow,h.stored_eq,h.capacity_eq]
  split_ifs with hfull
  · have hexact : held.length = rows.chunks.length*capacity.rows := by
      rw [hfull,Nat.mul_comm] at hsplit
      omega
    refine ⟨?_,by rw [length_append,length_singleton,hfull]⟩
    intro index chunk hchunk
    by_cases hlt : index < rows.chunks.length
    · rw [getElem?_append_left hlt] at hchunk
      exact h.chunk_rows index chunk hchunk
    · rw [getElem?_append_right (not_lt.mp hlt)] at hchunk
      have hindex : index = rows.chunks.length := by
        have := (List.getElem?_eq_some_iff.mp hchunk).1
        rw [length_singleton] at this
        omega
      rw [hindex,Nat.sub_self] at hchunk
      obtain rfl := Option.some.inj hchunk
      rw [hindex,← hexact]
      simp [RowBatch.empty]
  · refine ⟨h.chunk_rows,?_⟩
    have hle : held.length / capacity.rows ≤ rows.chunks.length := by
      apply Nat.div_le_of_le_mul
      rwa [Nat.mul_comm]
    rcases h.chunk_used with hone | hused
    · have := Nat.zero_le (held.length / capacity.rows)
      omega
    · have hdiv : rows.chunks.length-1 ≤ held.length / capacity.rows :=
        (Nat.le_div_iff_mul_le hpositive).mpr hused.le
      omega

theorem Stores.pushed (h : Stores capacity rows held) (hpositive : 0 < capacity.rows) {row : ρ}
    {cost : ρ → Usage} {next : Rows ρ} (hpush : rows.push cost row = .ok next) :
    Stores capacity next (held++[row]) ∧ held.length < capacity.maxRows ∧
      ∀ arena,cost row arena ≤ capacity.limit arena := by
  have hsplit:=Nat.div_add_mod held.length capacity.rows
  have hmod:=Nat.mod_lt held.length hpositive
  have hmaxRows : held.length ≤ capacity.maxRows := h.bounded
  obtain ⟨hchunks,hlength⟩ := h.grow_eq hpositive
  rw [Rows.push,h.stored_eq,h.capacity_eq] at hpush
  generalize hindex : held.length / capacity.rows = index at *
  rw [Nat.mul_comm] at hsplit
  obtain ⟨chunk,hchunk⟩ : ∃ chunk,rows.grow[index]? = some chunk :=
    ⟨_,getElem?_eq_getElem (by omega)⟩
  obtain ⟨hrows,hlimit,hmax⟩ := hchunks index chunk hchunk
  have hused : chunk.rows.length = held.length % capacity.rows := by
    rw [hrows,length_take,length_drop]
    omega
  by_cases hfull : held.length = capacity.maxRows
  · rw [if_pos hfull] at hpush
    cases hpush
  rw [if_neg hfull,hchunk] at hpush
  obtain ⟨pushed,hchunkPush,rfl⟩ := bind_pure_eq_ok hpush
  obtain ⟨rfl,hfits⟩ := pushed_eq hchunkPush
  refine ⟨⟨rfl,?_,?_,?_,?_,?_,?_⟩,by omega,?_⟩
  · simp
  · simp [h.order_eq,range_succ]
  · simp only [length_append,length_singleton]
    omega
  · simp only [length_set,hlength,length_append,length_singleton,Nat.succ_mul]
    omega
  · simp only [length_set,hlength,length_append,length_singleton,
      Nat.add_sub_cancel]
    omega
  · intro other found hfound
    rw [getElem?_set] at hfound
    split_ifs at hfound with hsame hbound
    · obtain rfl := Option.some.inj hfound
      subst hsame
      refine ⟨?_,hlimit,hmax⟩
      simp only [hrows]
      rw [drop_append_of_le_length (by omega),List.take_append]
      congr 1
      rw [take_of_length_le]
      rw [length_singleton,length_drop]
      omega
    · obtain ⟨hother,hotherLimit,hotherMax⟩ := hchunks other found hfound
      refine ⟨?_,hotherLimit,hotherMax⟩
      have hlt : other < index := by
        have := (List.getElem?_eq_some_iff.mp hfound).1
        omega
      have hbelow : other*capacity.rows+capacity.rows ≤ index*capacity.rows := by
        rw [← Nat.succ_mul]
        exact Nat.mul_le_mul_right _ hlt
      rw [hother,drop_append_of_le_length (by omega),take_append_of_le_length]
      rw [length_drop]
      omega
  · intro arena
    have hsum:=hfits arena
    rw [hlimit] at hsum
    exact (Nat.le_add_left _ _).trans hsum

end Stores

end Arena

/-! property_graph/query/list.rs, runtime/batch.rs -/

inductive BackedValue where
  | null
  | bool (value : Bool)
  | i64 (value : Int64)
  | f64 (bits : UInt64)
  | string (bytes : List UInt8)
  | nodeRef (id : ℕ)
  | relRef (id : ℕ)
  | list (values : List BackedValue)
  | nodes (ids : List ℕ)
  | relationships (ids : List ℕ)
  | map (entries : List BackedValue)

mutual

def BackedValue.value : BackedValue → QueryValue
  | .null => .null
  | .bool value => .bool value
  | .i64 value => .i64 value
  | .f64 bits => .f64 bits
  | .string bytes => .string bytes
  | .nodeRef id => .nodeRef id
  | .relRef id => .relRef id
  | .list values => .list (valueList values)
  | .nodes ids => .list (ids.map .nodeRef)
  | .relationships ids => .list (ids.map .relRef)
  | .map entries => .map (valueList entries)

def valueList : List BackedValue → List QueryValue
  | [] => []
  | value::values => value.value::valueList values

end

mutual

def BackedValue.depth : BackedValue → ℕ
  | .list values | .map values => depthList values+1
  | .nodes _ | .relationships _ => 1
  | _ => 0

def depthList : List BackedValue → ℕ
  | [] => 0
  | value::values => max value.depth (depthList values)

end

def maxListDepth : ℕ := 16

def maxQueryBytes : ℕ := 24*1024*1024

inductive Cell where
  | null
  | bool (value : Bool)
  | i64 (value : Int64)
  | f64 (bits : UInt64)
  | node (id : ℕ)
  | relationship (id : ℕ)
  | string (start len : ℕ)
  | list (map : Bool) (start len : ℕ)
  | nodes (start len : ℕ)
  | relationships (start len : ℕ)

structure VariableArena where
  limit : Usage
  payload : ℕ
  bytes : List UInt8
  children : List Cell
  nodes : List ℕ
  relationships : List ℕ

def VariableArena.empty (limit : Usage) : VariableArena := ⟨limit,0,[],[],[],[]⟩

def VariableArena.usage (arena : VariableArena) : Usage
  | .payloadBytes => arena.payload
  | .stringBytes => arena.bytes.length
  | .listCells => arena.children.length
  | .nodeIds => arena.nodes.length
  | .relationshipIds => arena.relationships.length

@[simp] theorem usage_payloadBytes (arena : VariableArena) :
    arena.usage .payloadBytes = arena.payload := rfl

@[simp] theorem usage_stringBytes (arena : VariableArena) :
    arena.usage .stringBytes = arena.bytes.length := rfl

@[simp] theorem usage_listCells (arena : VariableArena) :
    arena.usage .listCells = arena.children.length := rfl

@[simp] theorem usage_nodeIds (arena : VariableArena) :
    arena.usage .nodeIds = arena.nodes.length := rfl

@[simp] theorem usage_relationshipIds (arena : VariableArena) :
    arena.usage .relationshipIds = arena.relationships.length := rfl

def grow (used additional limit : ℕ) : Except RuntimeError Unit :=
  failIf (used+additional > limit) .batchCapacity

def VariableArena.copied (arena : VariableArena) (bytes : ℕ) :
    Except RuntimeError VariableArena := do
  failIf (arena.payload+bytes > arena.limit .payloadBytes) .batchCapacity
  return { arena with payload := arena.payload+bytes }

def VariableArena.scalar (arena : VariableArena) (cell : Cell) (bytes : ℕ) :
    Except RuntimeError (Cell × VariableArena) := do
  let arena ← arena.copied bytes
  return (cell,arena)

mutual

def copyValue : BackedValue → ℕ → VariableArena → Except RuntimeError (Cell × VariableArena)
  | .null,_,arena => arena.scalar .null 0
  | .bool value,_,arena => arena.scalar (.bool value) 1
  | .i64 value,_,arena => arena.scalar (.i64 value) 8
  | .f64 bits,_,arena => arena.scalar (.f64 bits) 8
  | .nodeRef id,_,arena => arena.scalar (.node id) 16
  | .relRef id,_,arena => arena.scalar (.relationship id) 16
  | .string text,_,arena => do
    failIf (arena.payload+text.length > arena.limit .payloadBytes) .batchCapacity
    grow arena.bytes.length text.length (arena.limit .stringBytes)
    let next ← arena.copied text.length
    return (.string arena.bytes.length text.length,{ next with bytes := arena.bytes++text })
  | .nodes ids,depth,arena => do
    failIf (depth ≥ maxListDepth) .batch
    grow arena.nodes.length ids.length (arena.limit .nodeIds)
    let next ← arena.copied (16*ids.length)
    return (.nodes arena.nodes.length ids.length,{ next with nodes := arena.nodes++ids })
  | .relationships ids,depth,arena => do
    failIf (depth ≥ maxListDepth) .batch
    grow arena.relationships.length ids.length (arena.limit .relationshipIds)
    let next ← arena.copied (16*ids.length)
    return (.relationships arena.relationships.length ids.length,
      { next with relationships := arena.relationships++ids })
  | .list values,depth,arena => do
    failIf (depth ≥ maxListDepth) .batch
    grow arena.children.length values.length (arena.limit .listCells)
    let next ← copyChildren values (depth+1) arena.children.length
      { arena with children := arena.children++List.replicate values.length Cell.null }
    return (.list false arena.children.length values.length,next)
  | .map entries,depth,arena => do
    failIf (depth ≥ maxListDepth) .batch
    grow arena.children.length entries.length (arena.limit .listCells)
    let next ← copyChildren entries (depth+1) arena.children.length
      { arena with children := arena.children++List.replicate entries.length Cell.null }
    return (.list true arena.children.length entries.length,next)

def copyChildren : List BackedValue → ℕ → ℕ → VariableArena → Except RuntimeError VariableArena
  | [],_,_,arena => .ok arena
  | value::values,depth,place,arena => do
    let (cell,next) ← copyValue value depth arena
    copyChildren values depth (place+1) { next with children := next.children.set place cell }

end

def slice {α : Type} (list : List α) (start len : ℕ) : Option (List α) :=
  if start+len ≤ list.length then some ((list.drop start).take len) else none

/-- `Cell::value`, with the lists read to the given depth. -/
def VariableArena.value (arena : VariableArena) : ℕ → Cell → Option BackedValue
  | _,.null => some .null
  | _,.bool value => some (.bool value)
  | _,.i64 value => some (.i64 value)
  | _,.f64 bits => some (.f64 bits)
  | _,.node id => some (.nodeRef id)
  | _,.relationship id => some (.relRef id)
  | _,.string start len => (slice arena.bytes start len).map .string
  | _,.nodes start len => (slice arena.nodes start len).map .nodes
  | _,.relationships start len => (slice arena.relationships start len).map .relationships
  | 0,.list _ _ _ => none
  | depth+1,.list map start len =>
    ((List.range' start len).mapM fun index =>
      arena.children[index]?.bind (arena.value depth)).map
        (if map then BackedValue.map else BackedValue.list)

def taken (arena : Arena) (count : ℕ) : Usage := fun other => if other = arena then count else 0

mutual

def BackedValue.need : BackedValue → Usage
  | .null => 0
  | .bool _ => taken .payloadBytes 1
  | .i64 _ | .f64 _ => taken .payloadBytes 8
  | .nodeRef _ | .relRef _ => taken .payloadBytes 16
  | .string bytes => taken .payloadBytes bytes.length+taken .stringBytes bytes.length
  | .list values | .map values => taken .listCells values.length+needList values
  | .nodes ids => taken .payloadBytes (16*ids.length)+taken .nodeIds ids.length
  | .relationships ids =>
    taken .payloadBytes (16*ids.length)+taken .relationshipIds ids.length

def needList : List BackedValue → Usage
  | [] => 0
  | value::values => value.need+needList values

end

end Zeppelin.Query
