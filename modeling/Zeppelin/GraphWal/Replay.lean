import Zeppelin.GraphStore.TreePage
import Zeppelin.GraphWal.Framing

/-! property_graph/wal/replay.rs -/

namespace Zeppelin.GraphWal
open PropertyGraph
open GraphStore (TreeKind)

inductive ParticipantRole where
  | catalog | preparedInventory | protectedRoots | completedMark | reclaimState | retrievalState
  | capturedBase
  deriving DecidableEq

def treeKinds : List TreeKind :=
  [.nodes,.relationships,.keyFences,.labels,.relationshipTypes,.outRanges,.inRanges,
    .objectInventory]

inductive RequiredRole where
  | tree (kind : TreeKind)
  | participant (role : ParticipantRole)
  | canonical
  deriving DecidableEq

structure ReplayEnd where
  completeBytes : ℕ
  incompleteTail : Bool
  deriving DecidableEq

/-- A cursor over the change records of an envelope. Indices stay far below `u32::MAX`,
since a record takes 72 bytes of an envelope. -/
structure ChangeReader where
  bytes : Bytes
  state : CommitState
  batch : BatchId
  offset : ℕ
  index : ℕ
  remaining : ℕ

structure ValidatedEnvelope where
  changeBytes : Bytes
  changeCount : ℕ
  batch : BatchId
  kind : EnvelopeKind
  state : CommitState

def ValidatedEnvelope.changes (v : ValidatedEnvelope) : ChangeReader :=
  ⟨v.changeBytes,v.state,v.batch,0,1,v.changeCount⟩

inductive ReplayStep where
  | envelope (v : ValidatedEnvelope)
  | finished (v : ReplayEnd)

structure Replay where
  bytes : Bytes
  state : CommitState
  offset : ℕ
  failed : Bool
  ending : Option ReplayEnd

structure ReplayValidator (σ : Type) where
  required : RequiredRef → RequiredRole → σ → Except WalError σ
  mutation : Mutation → σ → Except WalError σ
  inventory : InventoryChange → σ → Except WalError σ
  reclaimIntent : ReclaimIntent → σ → Except WalError σ
  reclaimComplete : ReclaimComplete → σ → Except WalError σ
  state : EnvelopeKind → CommitState → CommitState → List Change → σ → Except WalError σ

section Checksum
variable (xxh3 : Bytes → U64)

/-- `next_change`, short of the flag that makes an error final. -/
def ChangeReader.next (r : ChangeReader) : Except WalError (Option Change × ChangeReader) :=
  if r.remaining = 0 then
    if r.offset = r.bytes.length then .ok (none,r) else .error .malformed
  else do
    let found ← readRecord xxh3 (r.bytes.drop r.offset) (BitVec.ofNat 32 r.index) (some r.batch)
      r.state.sequence none
    match found with
    | none => .error .malformed
    | some record =>
      let change ← Change.read record.kind record.payload r.state
      return (some change,{ r with offset := r.offset+record.bytes,index := r.index+1,
                                    remaining := r.remaining-1 })

def ChangeReader.drain : ℕ → ChangeReader → Except WalError (List Change)
  | 0,_ => .error .malformed
  | fuel+1,r => do
    let (change,r) ← r.next xxh3
    match change with
    | none => return []
    | some change =>
      let others ← drain fuel r
      return change::others

def ChangeReader.toList (r : ChangeReader) : Except WalError (List Change) :=
  r.drain xxh3 (r.remaining+1)

def misplaced (kind : EnvelopeKind) (tag : U16) : Bool :=
  (kind = .maintenance && tag = 2) || (kind = .mutation && 4 ≤ tag)

/-- The change records as far as they go; none where the log ends among them. -/
def scanChanges (bounded : Bytes) (batch : BatchId) (seq : U64) (kind : EnvelopeKind)
    (provisional : CommitState) : ℕ → ℕ → ℕ → ℕ → Except WalError (Option ℕ)
  | 0,_,cursor,_ => .ok (some cursor)
  | remaining+1,index,cursor,mutations =>
    if bounded.length < cursor then .error .malformed
    else do
      let found ← readRecord xxh3 (bounded.drop cursor) (BitVec.ofNat 32 index) (some batch) seq none
      match found with
      | none => return none
      | some change =>
        if change.kind < 2 ∨ 5 < change.kind then .error .malformed
        else if misplaced kind change.kind then .error .participant
        else if change.kind = 2 ∧ maxGraphChanges < mutations+1 then .error .capacity
        else
          let _ ← Change.read change.kind change.payload provisional
          scanChanges bounded batch seq kind provisional remaining (index+1)
            (cursor+change.bytes) (if change.kind = 2 then mutations+1 else mutations)

section Participants
variable {σ : Type} (validator : ReplayValidator σ)

def ReplayValidator.optional (role : RequiredRole) (v : Option RequiredRef) (s : σ) :
    Except WalError σ :=
  v.elim (.ok s) fun r => validator.required r role s

def ReplayValidator.change : Change → σ → Except WalError σ
  | .mutation v,s => do
    let s ← validator.optional .canonical v.canonical s
    validator.mutation v s
  | .inventory v,s => validator.inventory v s
  | .reclaimIntent v,s => do
    let s ← validator.required v.protectedRoots (.participant .protectedRoots) s
    let s ← validator.required v.completedMark (.participant .completedMark) s
    validator.reclaimIntent v s
  | .reclaimComplete v,s => do
    let s ← validator.required v.intent (.participant .reclaimState) s
    validator.reclaimComplete v s

def admitChanges (bytes : Bytes) (batch : BatchId) (seq : U64) (state : CommitState) :
    ℕ → ℕ → ℕ → σ → Except WalError σ
  | 0,_,_,s => .ok s
  | remaining+1,index,offset,s => do
    let found ← readRecord xxh3 (bytes.drop offset) (BitVec.ofNat 32 index) (some batch) seq none
    match found with
    | none => .error .malformed
    | some record =>
      let change ← Change.read record.kind record.payload state
      let s ← validator.change change s
      admitChanges bytes batch seq state remaining (index+1) (offset+record.bytes) s

def ReplayValidator.commit (kind : EnvelopeKind) (base target : CommitState) (changes : List Change)
    (s : σ) : Except WalError σ := do
  let s ← (target.graph.slots.zip treeKinds).foldlM
    (fun s slot => validator.optional (.tree slot.2) slot.1 s) s
  let s ← validator.required target.catalog (.participant .catalog) s
  let s ← validator.optional (.participant .retrievalState) target.vector s
  let s ← validator.optional (.participant .retrievalState) target.text s
  let s ← validator.optional (.participant .reclaimState) target.reclaim s
  let s ← target.preparedInventories.foldlM
    (fun s v => validator.required v (.participant .preparedInventory) s) s
  validator.state kind base target changes s

end Participants

def readHeader (bytes : Bytes) (store : StoreInstanceId) : Except WalError U64 := do
  let (header,_) ← take headerBytes bytes
  let (magic,rest) ← take 8 header
  let (family,rest) ← u16 rest
  let (version,rest) ← u16 rest
  if magic ≠ fileMagic ∨ family ≠ Format.FormatFamily.nativeGraphWal.id ∨ version ≠ 1 then
    .error .unsupported
  else
    let rest ← zero 4 rest
    let (length,rest) ← u64 rest
    let (fileLength,rest) ← u64 rest
    if length ≠ 64 ∨ fileLength ≠ 0 then .error .malformed
    else
      let (found,rest) ← u128 rest
      if found ≠ store.get then .error .store
      else
        let (first,rest) ← u64 rest
        if first = 0 then .error .sequence
        else
          let (expected,_) ← u64 rest
          if xxh3 (header.take 56) ≠ expected then .error .checksum else return first

def Replay.new (bytes : Bytes) (state : CommitState) : Except WalError Replay := do
  let first ← readHeader xxh3 bytes state.store
  if checkedAdd state.sequence 1 ≠ some first then .error .sequence
  else
    let written ← stateWrite state
    if maxEnvelopeBytes < written.length then .error .capacity
    else return ⟨bytes,state,headerBytes,false,none⟩

def Replay.finish (replay : Replay) (incompleteTail : Bool) : ReplayStep × Replay :=
  (.finished ⟨replay.offset,incompleteTail⟩,
    { replay with ending := some ⟨replay.offset,incompleteTail⟩ })

structure Begin where
  kind : EnvelopeKind
  target : U64
  count : U32
  declared : ℕ

def readEnvelopeKind (v : U8) : Except WalError EnvelopeKind :=
  if v = 1 then .ok .mutation else if v = 2 then .ok .maintenance else .error .unsupported

def readBegin (state : CommitState) (first : Record) : Except WalError Begin := do
  let (store,rest) ← u128 first.payload
  if store ≠ state.store.get then .error .store
  else
    let (kind,rest) ← u8 rest
    let kind ← readEnvelopeKind kind
    let rest ← zero 7 rest
    let (generation,rest) ← u64 rest
    if generation ≠ state.generation then .error .sequence
    else
      let (target,rest) ← u64 rest
      if target ≤ state.generation then .error .sequence
      else
        let (count,rest) ← u32 rest
        let rest ← zero 4 rest
        let (declared,rest) ← u64 rest
        GraphWal.finish rest
        if maxEnvelopeBytes < declared.toNat ∨ declared.toNat < first.bytes+72 ∨
            declared.toNat < count.toNat*72 then .error .capacity
        else return ⟨kind,target,count,declared.toNat⟩

def provisional (state : CommitState) (target seq : U64) : CommitState :=
  { state with
    generation := target
    sequence := seq
    highWaters := ⟨BitVec.allOnes 128,BitVec.allOnes 128,List.replicate 4 (BitVec.allOnes 64),
      BitVec.allOnes 64,by simp⟩ }

def readCommit (base : CommitState) (start : Begin) (seq : U64) (before payload : Bytes) :
    Except WalError CommitState := do
  let (count,rest) ← u32 payload
  if count ≠ start.count then .error .malformed
  else
    let rest ← zero 4 rest
    let (digest,rest) ← u64 rest
    if digest ≠ xxh3 before then .error .checksum
    else
      let (state,rest) ← stateRead rest
      GraphWal.finish rest
      validateTransition base state
      if state.generation ≠ start.target ∨ state.sequence ≠ seq then .error .sequence
      else return state

section Next
variable {σ : Type}

def admitBatch (validator : Option (ReplayValidator σ)) (start : Begin) (batch : BatchId) (seq : U64)
    (base state : CommitState) (bytes : Bytes) (s : σ) : Except WalError σ :=
  match validator with
  | none => do
    let _ ← (⟨bytes,state,batch,0,1,start.count.toNat⟩ : ChangeReader).toList xxh3
    return s
  | some validator => do
    let s ← admitChanges xxh3 validator bytes batch seq state start.count.toNat 1 0 s
    let changes ← (⟨bytes,state,batch,0,1,start.count.toNat⟩ : ChangeReader).toList xxh3
    validator.commit start.kind base state changes s

def readLast (validator : Option (ReplayValidator σ)) (replay : Replay) (bytes : Bytes) (first : Record)
    (start : Begin) (seq : U64) (cursor : ℕ) (last : Record) (s : σ) :
    Except WalError ((ReplayStep × Replay) × σ) :=
  if cursor+last.bytes ≠ start.declared then .error .malformed
  else do
    let state ← readCommit xxh3 replay.state start seq (bytes.take cursor) last.payload
    let s ← admitBatch xxh3 validator start first.batch seq replay.state state
      ((bytes.drop first.bytes).take (cursor-first.bytes)) s
    return ((.envelope ⟨(bytes.drop first.bytes).take (cursor-first.bytes),start.count.toNat,
      first.batch,start.kind,state⟩,
      { replay with state := state,offset := replay.offset+start.declared }),s)

/-- A record that is cut off ends the log, unless the envelope should be complete. -/
def cutOff (replay : Replay) (bytes : Bytes) (start : Begin) (s : σ) :
    Except WalError ((ReplayStep × Replay) × σ) :=
  if start.declared ≤ bytes.length then .error .malformed else .ok (replay.finish true,s)

def readRest (validator : Option (ReplayValidator σ)) (replay : Replay) (bytes : Bytes) (seq : U64)
    (first : Record) (start : Begin) (s : σ) : Except WalError ((ReplayStep × Replay) × σ) := do
  let scanned ← scanChanges xxh3 (bytes.take start.declared) first.batch seq start.kind
    (provisional replay.state start.target seq) start.count.toNat 1 first.bytes 0
  match scanned with
  | none => cutOff replay bytes start s
  | some cursor =>
    if (bytes.take start.declared).length < cursor then .error .malformed
    else match checkedAdd start.count 1 with
      | none => .error .malformed
      | some index =>
        let found ← readRecord xxh3 ((bytes.take start.declared).drop cursor) index
          (some first.batch) seq (some 6)
        match found with
        | none => cutOff replay bytes start s
        | some last => readLast xxh3 validator replay bytes first start seq cursor last s

def Replay.nextInner (validator : Option (ReplayValidator σ)) (replay : Replay) (s : σ) :
    Except WalError ((ReplayStep × Replay) × σ) :=
  if replay.bytes.length < replay.offset then .error .malformed
  else if (replay.bytes.drop replay.offset).isEmpty then .ok (replay.finish false,s)
  else match checkedAdd replay.state.sequence 1 with
    | none => .error .sequence
    | some seq => do
      let found ← readRecord xxh3 (replay.bytes.drop replay.offset) 0 none seq (some 1)
      match found with
      | none => return (replay.finish true,s)
      | some first =>
        let start ← readBegin replay.state first
        readRest xxh3 validator replay (replay.bytes.drop replay.offset) seq first start s

/-- `next_envelope`: the first error is final, and so is the end. -/
def Replay.nextEnvelope (validator : ReplayValidator σ) (replay : Replay) (s : σ) :
    Except WalError (ReplayStep × σ) × Replay :=
  if replay.failed then (.error .failed,replay)
  else match replay.ending with
    | some ending => (.ok (.finished ending,s),replay)
    | none =>
      match replay.nextInner xxh3 (some validator) s with
      | .error error => (.error error,{ replay with failed := true })
      | .ok ((step,next),s) => (.ok (step,s),next)

end Next

def frameCount (payload : Bytes) (total : ℕ) :
    Except WalError (StoreInstanceId × GraphGeneration × U32) := do
  let (store,rest) ← u128 payload
  let store ← (NonzeroId.new store).mapError fun _ => .store
  let (_,rest) ← take 8 rest
  let (generation,rest) ← u64 rest
  let (_,rest) ← u64 rest
  let (count,rest) ← u32 rest
  let rest ← zero 4 rest
  let (declared,rest) ← u64 rest
  if declared.toNat ≠ total ∨ total < count.toNat*72 then .error .malformed
  else
    GraphWal.finish rest
    return (store,generation,count)

def skipChanges (bytes : Bytes) (batch : BatchId) (seq : U64) : ℕ → ℕ → ℕ → Except WalError ℕ
  | 0,_,offset => .ok offset
  | remaining+1,index,offset =>
    if bytes.length < offset then .error .malformed
    else do
      let found ← readRecord xxh3 (bytes.drop offset) (BitVec.ofNat 32 index) (some batch) seq none
      match found with
      | none => .error .malformed
      | some record => skipChanges bytes batch seq remaining (index+1) (offset+record.bytes)

/-- `validate_envelope_framing`: the base of the envelope is taken from the envelope. -/
def validateEnvelopeFraming (bytes : Bytes) : Except WalError Unit :=
  if maxEnvelopeBytes < bytes.length then .error .capacity
  else if bytes.length < 24 then .error .malformed
  else do
    let found ← readRecord xxh3 bytes 0 none (fieldAt 64 bytes 16 8) (some 1)
    match found with
    | none => .error .malformed
    | some first =>
      let (store,generation,count) ← frameCount first.payload bytes.length
      let offset ← skipChanges xxh3 bytes first.batch (fieldAt 64 bytes 16 8) count.toNat 1 first.bytes
      if bytes.length < offset then .error .malformed
      else
        match checkedAdd count 1 with
        | none => .error .malformed
        | some index =>
          let found ← readRecord xxh3 (bytes.drop offset) index (some first.batch)
            (fieldAt 64 bytes 16 8) (some 6)
          match found with
          | none => .error .malformed
          | some last =>
            let (_,rest) ← take 16 last.payload
            let (state,rest) ← stateRead rest
            GraphWal.finish rest
            match checkedSub (fieldAt 64 bytes 16 8) 1 with
            | none => .error .sequence
            | some previous =>
              let ((step,replay),_) ← Replay.nextInner xxh3 (none : Option (ReplayValidator Unit))
                ⟨bytes,{ state with
                  store := store
                  generation := generation
                  sequence := previous
                  highWaters := ⟨0,0,List.replicate 4 0,0,by simp⟩ },0,false,none⟩ ()
              match step with
              | .envelope _ => if replay.offset = bytes.length then return () else .error .malformed
              | .finished _ => .error .malformed

end Checksum

end Zeppelin.GraphWal
