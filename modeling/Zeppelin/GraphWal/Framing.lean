import Zeppelin.Format.Frame
import Zeppelin.GraphWal.ChangeSpec

/-! property_graph/wal/framing.rs -/

namespace Zeppelin.GraphWal
open PropertyGraph List

inductive EnvelopeKind where
  | mutation
  | maintenance
  deriving DecidableEq

structure Envelope where
  batch : BatchId
  kind : EnvelopeKind
  changes : List Change
  state : CommitState
  deriving DecidableEq

def validateTransition (base next : CommitState) : Except WalError Unit :=
  if base.store ≠ next.store then .error .store
  else if next.generation ≤ base.generation ∨ checkedAdd base.sequence 1 ≠ some next.sequence then
    .error .sequence
  else if next.highWaters.node < base.highWaters.node ∨
      next.highWaters.relationship < base.highWaters.relationship ∨
      next.highWaters.creationSerial < base.highWaters.creationSerial ∨
      ((base.highWaters.symbols.zip next.highWaters.symbols).any fun marks =>
        marks.2 < marks.1) = true then .error .highWater
  else .ok ()

def validateOptional (state : CommitState) (kind : BlockKind) :
    Option RequiredRef → Except WalError Unit
  | none => .ok ()
  | some v => validateRef v state kind

def putRoot (state : CommitState) (kind : BlockKind) (root : Option RequiredRef) :
    Except WalError Bytes := do
  validateOptional state kind root
  putOptional root

def putParticipant (state : CommitState) (v : RequiredRef) : Except WalError Bytes := do
  validateRef v state .commitParticipant
  putRef v

def putSymbol (v : U64) : Except WalError Bytes := .ok (toLe 8 v)

def stateWrite (v : CommitState) : Except WalError Bytes := do
  let symbols ← putMany putSymbol v.highWaters.symbols
  let roots ← putMany (putRoot v .treePage) v.graph.slots
  let catalog ← putParticipant v v.catalog
  let vector ← putRoot v .commitParticipant v.vector
  let text ← putRoot v .commitParticipant v.text
  let reclaim ← putRoot v .commitParticipant v.reclaim
  if 2^32 ≤ v.preparedInventories.length then .error .capacity
  else
    let inventories ← putMany (putParticipant v) v.preparedInventories
    return toLe 16 v.store.get++(toLe 8 v.generation++(toLe 8 v.sequence++
      (toLe 16 v.highWaters.node++(toLe 16 v.highWaters.relationship++(symbols++
        (toLe 8 v.highWaters.creationSerial++(roots++(catalog++(vector++(text++
          (reclaim++(toLe 4 (BitVec.ofNat 32 v.preparedInventories.length)++(zeros 4++
            inventories)))))))))))))

def sized {α : Type} (n : ℕ) (xs : List α) : Except WalError {xs : List α // xs.length = n} :=
  if h : xs.length = n then .ok ⟨xs,h⟩ else .error .malformed

def stateRead (bytes : Bytes) : Except WalError (CommitState × Bytes) := do
  let (store,rest) ← u128 bytes
  let store ← NonzeroId.new store
  let (generation,rest) ← u64 rest
  let (sequence,rest) ← u64 rest
  let (node,rest) ← u128 rest
  let (relationship,rest) ← u128 rest
  let (symbols,rest) ← readMany u64 4 rest
  let symbols ← sized 4 symbols
  let (serial,rest) ← u64 rest
  let (slots,rest) ← readMany getOptional 8 rest
  let slots ← sized 8 slots
  let (catalog,rest) ← getRef rest
  let (vector,rest) ← getOptional rest
  let (text,rest) ← getOptional rest
  let (reclaim,rest) ← getOptional rest
  let (count,rest) ← u32 rest
  let rest ← zero 4 rest
  let (inventories,rest) ← readRows 96 getRef count.toNat rest
  let _ ← stateWrite ⟨store,generation,sequence,⟨slots.1,slots.2⟩,catalog,vector,text,reclaim,
    ⟨node,relationship,symbols.1,serial,symbols.2⟩,inventories⟩
  return (⟨store,generation,sequence,⟨slots.1,slots.2⟩,catalog,vector,text,reclaim,
    ⟨node,relationship,symbols.1,serial,symbols.2⟩,inventories⟩,rest)

section Checksum
variable (xxh3 : Bytes → U64)

def fileMagic : Bytes := [0x5A,0x45,0x50,0x45,0x4D,0x42,0x45,0x44]
def frameMagic : Bytes := [0x5A,0x47,0x57,0x46]
def headerBytes : ℕ := 64

def headerFields (store : StoreInstanceId) (firstSequence : U64) : Bytes :=
  fileMagic++(toLe 2 Format.FormatFamily.nativeGraphWal.id++(toLe 2 (1 : U16)++
    (toLe 4 (0 : U32)++(toLe 8 (64 : U64)++(toLe 8 (0 : U64)++(toLe 16 store.get++
      toLe 8 firstSequence))))))

def encodeHeader (store : StoreInstanceId) (firstSequence : U64) : Except WalError Bytes :=
  if firstSequence = 0 then .error .sequence
  else .ok (headerFields store firstSequence++toLe 8 (xxh3 (headerFields store firstSequence)))

def recordFields (kind : U16) (index : U32) (batch : BatchId) (seq : U64) (length : ℕ) : Bytes :=
  frameMagic++(toLe 2 kind++(toLe 2 (1 : U16)++(toLe 4 (BitVec.ofNat 32 length)++
    (toLe 4 index++(toLe 8 seq++(toLe 16 batch.get++zeros 16))))))

def recordHeader (kind : U16) (index : U32) (batch : BatchId) (seq : U64) (length : ℕ) : Bytes :=
  recordFields kind index batch seq length++
    toLe 8 (xxh3 (recordFields kind index batch seq length))

def record (kind : U16) (index : U32) (batch : BatchId) (seq : U64) (payload : Bytes) :
    Except WalError Bytes :=
  if 2^32 ≤ payload.length then .error .capacity
  else .ok (recordHeader xxh3 kind index batch seq payload.length++(payload++
    toLe 8 (xxh3 (recordHeader xxh3 kind index batch seq payload.length++payload))))

def kindByte : EnvelopeKind → U8
  | .mutation => 1
  | .maintenance => 2

def beginPayload (base : CommitState) (v : Envelope) (size : ℕ) : Bytes :=
  toLe 16 v.state.store.get++(toLe 1 (kindByte v.kind)++(zeros 7++(toLe 8 base.generation++
    (toLe 8 v.state.generation++(toLe 4 (BitVec.ofNat 32 v.changes.length)++(zeros 4++
      toLe 8 (BitVec.ofNat 64 size)))))))

/-- The records of the changes, numbered from `index` on. -/
def putChanges (v : Envelope) : ℕ → List Change → Except WalError Bytes
  | _,[] => .ok []
  | index,change::rest => do
    let payload ← change.write v.state
    let bytes ← record xxh3 change.tag (BitVec.ofNat 32 index) v.batch v.state.sequence payload
    let others ← putChanges v (index+1) rest
    return bytes++others

def commitPayload (v : Envelope) (digest : U64) (state : Bytes) : Bytes :=
  toLe 4 (BitVec.ofNat 32 v.changes.length)++(zeros 4++(toLe 8 digest++state))

def envelopeWrite (base : CommitState) (v : Envelope) (size : ℕ) : Except WalError Bytes := do
  let first ← record xxh3 1 0 v.batch v.state.sequence (beginPayload base v size)
  let changes ← putChanges xxh3 v 1 v.changes
  let state ← stateWrite v.state
  let last ← record xxh3 6 (BitVec.ofNat 32 (v.changes.length+1)) v.batch v.state.sequence
    (commitPayload v (xxh3 (first++changes)) state)
  return first++(changes++last)

def admitsChange (kind : EnvelopeKind) : Change → Bool
  | .mutation _ => kind = .mutation
  | .inventory _ => true
  | .reclaimIntent _ | .reclaimComplete _ => kind = .maintenance

def Change.isMutation : Change → Bool
  | .mutation _ => true
  | _ => false

/-- Measuring writes no checksums; the length does not depend on them. -/
def envelopeSize (base : CommitState) (v : Envelope) : Except WalError ℕ := do
  validateTransition base v.state
  if maxEnvelopeBytes / 72 < v.changes.length then .error .capacity
  else if (v.changes.all (admitsChange v.kind)) = false then .error .participant
  else if maxGraphChanges < v.changes.countP Change.isMutation then .error .capacity
  else
    let bytes ← envelopeWrite (fun _ => 0) base v 0
    if maxEnvelopeBytes < bytes.length then .error .capacity else return bytes.length

def encodeEnvelope (base : CommitState) (v : Envelope) : Except WalError Bytes := do
  let size ← envelopeSize base v
  envelopeWrite xxh3 base v size

structure Record where
  kind : U16
  batch : BatchId
  payload : Bytes
  bytes : ℕ
  deriving DecidableEq

/-- What is there of a field is what the field starts with. -/
def partialMatch (bytes : Bytes) (offset : ℕ) (expected : Bytes) : Except WalError Unit :=
  if (bytes.drop offset).take expected.length = expected.take (bytes.length-offset) then .ok ()
  else .error .malformed

def observedTag (bytes : Bytes) : Except WalError Unit :=
  if [2,3,4,5].any fun tag : U16 =>
      (toLe 2 tag).take ((bytes.drop 4).take 2).length = (bytes.drop 4).take 2 then .ok ()
  else .error .unsupported

def batchMatch (bytes : Bytes) : Option BatchId → Except WalError Unit
  | none => .ok ()
  | some batch => partialMatch bytes 24 (toLe 16 batch.get)

def kindMatch (bytes : Bytes) : Option U16 → Except WalError Unit
  | none => observedTag bytes
  | some kind => partialMatch bytes 4 (toLe 2 kind)

/-- Fields that a record must have so far, also when its end is missing. -/
def checkFields (bytes : Bytes) (index : U32) (batch : Option BatchId) (seq : U64)
    (kind : Option U16) : Except WalError Unit := do
  partialMatch bytes 0 frameMagic
  partialMatch bytes 6 (toLe 2 (1 : U16))
  partialMatch bytes 12 (toLe 4 index)
  partialMatch bytes 16 (toLe 8 seq)
  partialMatch bytes 40 (zeros 16)
  batchMatch bytes batch
  kindMatch bytes kind
  if maxEnvelopeBytes-72 < leNat ((bytes.drop 8).take 4) then .error .capacity
  else if kind = some 1 then partialMatch bytes 8 (toLe 4 (56 : U32))
  else .ok ()

def fieldAt (w : ℕ) (bytes : Bytes) (offset n : ℕ) : BitVec w := ofLe w ((bytes.drop offset).take n)

def readBody (bytes : Bytes) : Except WalError (Option Record) := do
  let batch ← NonzeroId.new (fieldAt 128 bytes 24 16)
  if ((bytes.drop 40).take 16).any (· ≠ 0) then .error .malformed
  else if xxh3 (bytes.take 56) ≠ fieldAt 64 bytes 56 8 then .error .checksum
  else if fieldAt 16 bytes 4 2 < 1 ∨ 6 < fieldAt 16 bytes 4 2 ∨ fieldAt 16 bytes 6 2 ≠ 1 then
    .error .unsupported
  else if maxEnvelopeBytes < (fieldAt 32 bytes 8 4).toNat+72 then .error .capacity
  else if bytes.length < (fieldAt 32 bytes 8 4).toNat+72 then return none
  else if xxh3 (bytes.take (64+(fieldAt 32 bytes 8 4).toNat)) ≠
      fieldAt 64 bytes (64+(fieldAt 32 bytes 8 4).toNat) 8 then .error .checksum
  else return some ⟨fieldAt 16 bytes 4 2,batch,
    (bytes.drop 64).take (fieldAt 32 bytes 8 4).toNat,(fieldAt 32 bytes 8 4).toNat+72⟩

def readRecord (bytes : Bytes) (index : U32) (batch : Option BatchId) (seq : U64)
    (kind : Option U16) : Except WalError (Option Record) := do
  checkFields bytes index batch seq kind
  if batch = none ∧ 40 ≤ bytes.length ∧ ((bytes.drop 24).take 16).all (· = 0) then .error .malformed
  else if bytes.length < 64 then
    if 56 ≤ bytes.length then
      partialMatch bytes 56 (toLe 8 (xxh3 (bytes.take 56)))
      return none
    else return none
  else readBody xxh3 bytes

end Checksum

structure FieldIn (stream field : Bytes) (offset : ℕ) : Prop where
  split : ∃ a b,stream = a++(field++b) ∧ a.length = offset

section Fields
variable {stream field : Bytes} {offset : ℕ}

theorem FieldIn.first (field b : Bytes) : FieldIn (field++b) field 0 := ⟨[],b,rfl,rfl⟩

theorem FieldIn.behind {a : Bytes} {k : ℕ} (ha : a.length = k) (h : FieldIn stream field offset) :
    FieldIn (a++stream) field (k+offset) := by
  obtain ⟨c,b,rfl,rfl⟩ := h.split
  exact ⟨a++c,b,by rw [append_assoc],by rw [length_append,ha]⟩

theorem FieldIn.take_drop (h : FieldIn stream field offset) (n : ℕ) :
    ((stream.take n).drop offset).take field.length = field.take (n-offset) := by
  obtain ⟨a,b,rfl,rfl⟩ := h.split
  rw [drop_take,drop_left,take_take,List.take_append]
  have hnone : min field.length (n-a.length)-field.length = 0 := by omega
  rw [hnone,take_zero,append_nil]
  refine take_eq_take_iff.mpr ?_
  omega

theorem FieldIn.length (h : FieldIn stream field offset) : offset+field.length ≤ stream.length := by
  obtain ⟨a,b,rfl,rfl⟩ := h.split
  simp only [length_append]
  omega

theorem FieldIn.partialMatch (h : FieldIn stream field offset) (n : ℕ) :
    partialMatch (stream.take n) offset field = .ok () := by
  rw [GraphWal.partialMatch,h.take_drop,if_pos]
  have hlength:=h.length
  refine take_eq_take_iff.mpr ?_
  rw [length_take]
  omega

theorem FieldIn.whole (h : FieldIn stream field offset) {n : ℕ} (hn : offset+field.length ≤ n) :
    ((stream.take n).drop offset).take field.length = field := by
  rw [h.take_drop,take_of_length_le (by omega)]

theorem FieldIn.fieldAt {w k n : ℕ} {v : BitVec w} (h : FieldIn stream (toLe k v) offset)
    (hw : w = 8*k) (hn : offset+k ≤ n) : fieldAt w (stream.take n) offset k = v := by
  have hwhole:=h.whole (n := n) (by rwa [toLe_length])
  rw [toLe_length] at hwhole
  rw [GraphWal.fieldAt,hwhole,ofLe_toLe k hw]

end Fields

theorem leNat_take_le (bs : Bytes) (n : ℕ) : leNat (bs.take n) ≤ leNat bs := by
  induction bs generalizing n with
  | nil => simp
  | cons b bs ih =>
    cases n with
    | zero => simp [leNat]
    | succ n =>
      have := ih n
      simp only [take_succ_cons,leNat]
      omega

theorem leNat_toLe {w : ℕ} (n : ℕ) (h : w = 8*n) (v : BitVec w) : leNat (toLe n v) = v.toNat := by
  refine leNat_leBytes n v.toNat ?_
  rw [← pow_two_eq_pow_byte,← h]
  exact v.isLt

section Records
variable {xxh3 : Bytes → U64} {kind : U16} {index : U32} {batch : BatchId} {seq : U64}
  {payload bytes rest : Bytes}

@[simp] theorem recordFields_length (kind : U16) (index : U32) (batch : BatchId) (seq : U64)
    (length : ℕ) : (recordFields kind index batch seq length).length = 56 := by
  simp [recordFields,frameMagic]

@[simp] theorem recordHeader_length (kind : U16) (index : U32) (batch : BatchId) (seq : U64)
    (length : ℕ) : (recordHeader xxh3 kind index batch seq length).length = 64 := by
  simp [recordHeader]

theorem record_length (h : record xxh3 kind index batch seq payload = .ok bytes) :
    bytes.length = payload.length+72 := by
  unfold record at h
  obtain ⟨-,h⟩ := of_ite_error h
  obtain rfl := Except.ok.inj h
  simp only [length_append,recordHeader_length,toLe_length]
  omega

structure Layout (kind : U16) (index : U32) (batch : BatchId) (seq : U64) (length : ℕ)
    (stream : Bytes) : Prop where
  magic : FieldIn stream frameMagic 0
  kindAt : FieldIn stream (toLe 2 kind) 4
  version : FieldIn stream (toLe 2 (1 : U16)) 6
  lengthAt : FieldIn stream (toLe 4 (BitVec.ofNat 32 length)) 8
  indexAt : FieldIn stream (toLe 4 index) 12
  seqAt : FieldIn stream (toLe 8 seq) 16
  batchAt : FieldIn stream (toLe 16 batch.get) 24
  reserved : FieldIn stream (zeros 16) 40

theorem recordFields_layout (length : ℕ) (tail : Bytes) :
    Layout kind index batch seq length (recordFields kind index batch seq length++tail) := by
  simp only [recordFields,append_assoc]
  have hmagic : frameMagic.length = 4 := rfl
  have htwo : ∀ v : U16,(toLe 2 v).length = 2 := toLe_length 2
  have hfour : ∀ v : U32,(toLe 4 v).length = 4 := toLe_length 4
  exact ⟨.first _ _,.behind hmagic (.first _ _),.behind hmagic (.behind (htwo _) (.first _ _)),
    .behind hmagic (.behind (htwo _) (.behind (htwo _) (.first _ _))),
    .behind hmagic (.behind (htwo _) (.behind (htwo _) (.behind (hfour _) (.first _ _)))),
    .behind hmagic (.behind (htwo _) (.behind (htwo _) (.behind (hfour _)
      (.behind (hfour _) (.first _ _))))),
    .behind hmagic (.behind (htwo _) (.behind (htwo _) (.behind (hfour _)
      (.behind (hfour _) (.behind (toLe_length 8 seq) (.first _ _)))))),
    .behind hmagic (.behind (htwo _) (.behind (htwo _) (.behind (hfour _)
      (.behind (hfour _) (.behind (toLe_length 8 seq) (.behind (toLe_length 16 batch.get)
        (.first _ _)))))))⟩

structure Expects (batch : BatchId) (kind : U16) (length : ℕ) (knownBatch : Option BatchId)
    (knownKind : Option U16) : Prop where
  sameBatch : ∀ b ∈ knownBatch,b = batch
  sameKind : knownKind = some kind ∨ knownKind = none ∧ kind ∈ [2,3,4,5]
  begins : knownKind = some 1 → length = 56
  range : 1 ≤ kind ∧ kind ≤ 6
  size : length+72 ≤ maxEnvelopeBytes

variable {knownBatch : Option BatchId} {knownKind : Option U16} {length : ℕ} {stream : Bytes}

theorem observedTag_take {tag : U16} (h : FieldIn stream (toLe 2 tag) 4) (htag : tag ∈ [2,3,4,5])
    (n : ℕ) : observedTag (stream.take n) = .ok () := by
  have hfield:=h.take_drop n
  rw [toLe_length] at hfield
  rw [observedTag,hfield,if_pos]
  refine any_eq_true.mpr ⟨tag,htag,?_⟩
  rw [decide_eq_true_eq,length_take,toLe_length]
  refine take_eq_take_iff.mpr ?_
  rw [toLe_length]
  omega

theorem checkFields_take (hlayout : Layout kind index batch seq length stream)
    (h : Expects batch kind length knownBatch knownKind) (n : ℕ) :
    checkFields (stream.take n) index knownBatch seq knownKind = .ok () := by
  have hsize:=h.size
  simp only [maxEnvelopeBytes] at hsize
  have hbatch : batchMatch (stream.take n) knownBatch = .ok () := by
    cases hknown : knownBatch with
    | none => rfl
    | some b =>
      obtain rfl := h.sameBatch b (by rw [hknown]; rfl)
      exact hlayout.batchAt.partialMatch n
  have hkind : kindMatch (stream.take n) knownKind = .ok () := by
    rcases h.sameKind with rfl | ⟨rfl,htag⟩
    · exact hlayout.kindAt.partialMatch n
    · exact observedTag_take hlayout.kindAt htag n
  have hlength : leNat (((stream.take n).drop 8).take 4) ≤ length := by
    have hfield:=hlayout.lengthAt.take_drop n
    rw [toLe_length] at hfield
    rw [hfield]
    refine (leNat_take_le _ _).trans ?_
    rw [leNat_toLe 4 rfl,BitVec.toNat_ofNat]
    exact Nat.mod_le _ _
  rw [checkFields,hlayout.magic.partialMatch,ok_bind,hlayout.version.partialMatch,ok_bind,
    hlayout.indexAt.partialMatch,ok_bind,hlayout.seqAt.partialMatch,ok_bind,
    hlayout.reserved.partialMatch,ok_bind,hbatch,ok_bind,hkind,ok_bind]
  rw [if_neg (by simp only [maxEnvelopeBytes]; omega)]
  split
  · rename_i hone
    have hfirst:=hlayout.lengthAt.partialMatch n
    rw [h.begins hone] at hfirst
    exact hfirst
  · rfl

theorem readBody_take (hlayout : Layout kind index batch seq payload.length stream)
    (h : Expects batch kind payload.length knownBatch knownKind)
    (hstream : stream = recordHeader xxh3 kind index batch seq payload.length++(payload++
      (toLe 8 (xxh3 (recordHeader xxh3 kind index batch seq payload.length++payload))++rest)))
    {n : ℕ} (hn : 64 ≤ n) : readBody xxh3 (stream.take n) =
      .ok (if n < payload.length+72 then none
        else some ⟨kind,batch,payload,payload.length+72⟩) := by
  have hsize:=h.size
  have hmax : maxEnvelopeBytes < 2^32 := by decide
  have hlength : stream.length = payload.length+72+rest.length := by
    rw [hstream]
    simp only [length_append,recordHeader_length,toLe_length]
    omega
  have hword : (BitVec.ofNat 32 payload.length).toNat = payload.length := by
    rw [BitVec.toNat_ofNat,Nat.mod_eq_of_lt (by omega)]
  have hfields : (stream.take n).take 56 = recordFields kind index batch seq payload.length := by
    rw [take_take,min_eq_left (by omega),hstream,recordHeader,append_assoc]
    exact take_left' (recordFields_length ..)
  have hsum : FieldIn stream (toLe 8 (xxh3 (recordFields kind index batch seq payload.length))) 56 := by
    rw [hstream,recordHeader,append_assoc]
    exact .behind (recordFields_length ..) (.first _ _)
  have hreserved:=hlayout.reserved.whole (n := n) (by rw [zeros_length]; omega)
  rw [zeros_length] at hreserved
  rw [readBody,hlayout.batchAt.fieldAt rfl (by omega),NonzeroId.new_get,ok_bind,hreserved,
    hlayout.kindAt.fieldAt rfl (by omega),hlayout.version.fieldAt rfl (by omega),
    hlayout.lengthAt.fieldAt rfl (by omega),hsum.fieldAt rfl (by omega),hfields,hword]
  have hkind:=h.range
  rw [if_neg (by simp [zeros]),if_neg (by simp),if_neg,if_neg (by omega),length_take]
  · by_cases hcut : n < payload.length+72
    · rw [if_pos hcut,if_pos (by omega)]
      rfl
    · have hbody : (stream.take n).take (64+payload.length) =
          recordHeader xxh3 kind index batch seq payload.length++payload := by
        rw [take_take,min_eq_left (by omega),hstream,← append_assoc]
        exact take_left' (by rw [length_append,recordHeader_length])
      have htrailer : FieldIn stream (toLe 8
          (xxh3 (recordHeader xxh3 kind index batch seq payload.length++payload)))
          (64+payload.length) := by
        have hfront : (recordHeader xxh3 kind index batch seq payload.length++payload).length =
            64+payload.length := by rw [length_append,recordHeader_length]
        have hbehind:=FieldIn.behind hfront (.first (toLe 8 (xxh3
          (recordHeader xxh3 kind index batch seq payload.length++payload))) rest)
        rw [hstream,← append_assoc]
        exact hbehind
      have hpayload : FieldIn stream payload 64 := by
        rw [hstream]
        exact .behind (recordHeader_length ..) (.first _ _)
      rw [if_neg hcut,if_neg (by omega),hbody,htrailer.fieldAt rfl (by omega),if_neg (by simp),
        hpayload.whole (by omega)]
      rfl
  · rw [not_or,not_or]
    refine ⟨?_,?_,by simp⟩
    · rw [BitVec.not_lt]
      exact hkind.1
    · rw [BitVec.not_lt]
      exact hkind.2

theorem readRecord_take (h : record xxh3 kind index batch seq payload = .ok bytes)
    (hexpects : Expects batch kind payload.length knownBatch knownKind) (rest : Bytes) (n : ℕ) :
    readRecord xxh3 ((bytes++rest).take n) index knownBatch seq knownKind =
      .ok (if n < bytes.length then none else some ⟨kind,batch,payload,bytes.length⟩) := by
  have hlength:=record_length h
  unfold record at h
  obtain ⟨hfits,h⟩ := of_ite_error h
  have hbytes:=(Except.ok.inj h).symm
  have hstream : bytes++rest = recordHeader xxh3 kind index batch seq payload.length++
      (payload++(toLe 8 (xxh3 (recordHeader xxh3 kind index batch seq payload.length++
        payload))++rest)) := by
    rw [hbytes]
    simp only [append_assoc]
  have hlayout : Layout kind index batch seq payload.length (bytes++rest) := by
    rw [hstream,recordHeader,append_assoc]
    exact recordFields_layout payload.length _
  have hlen : ((bytes++rest).take n).length = min n (payload.length+72+rest.length) := by
    rw [length_take,length_append,hlength]
  rw [readRecord,checkFields_take hlayout hexpects,ok_bind,if_neg,hlength]
  · by_cases hheader : n < 64
    · rw [if_pos (by omega),if_pos (show n < payload.length+72 by omega)]
      split
      · have hsum : FieldIn (bytes++rest)
            (toLe 8 (xxh3 (recordFields kind index batch seq payload.length))) 56 := by
          rw [hstream,recordHeader,append_assoc]
          exact .behind (recordFields_length ..) (.first _ _)
        have hfields : ((bytes++rest).take n).take 56 =
            recordFields kind index batch seq payload.length := by
          rw [take_take,min_eq_left (by omega),hstream,recordHeader,append_assoc]
          exact take_left' (recordFields_length ..)
        rw [hfields,hsum.partialMatch,ok_bind]
        rfl
      · rfl
    · rw [if_neg (by omega)]
      exact readBody_take hlayout hexpects hstream (by omega)
  · -- the identity is not zero
    rintro ⟨-,hlong,hzero⟩
    have hbatch:=hlayout.batchAt.fieldAt (n := n) rfl (by omega)
    have hall : ((((bytes++rest).take n).drop 24).take 16) = zeros 16 := by
      refine eq_replicate_iff.mpr ⟨?_,fun b hb => by simpa using all_eq_true.mp hzero b hb⟩
      rw [length_take,length_drop]
      omega
    rw [fieldAt,hall] at hbatch
    exact batch.nonzero (hbatch.symm.trans (by decide))

end Records

section States
variable {state : CommitState}

theorem getOptional_putRoot {kind : BlockKind} (hkind : blockKind kind.id = .ok kind)
    (root : Option RequiredRef) : RoundTrip (putRoot state kind) getOptional root := by
  intro bytes h rest
  obtain ⟨⟨⟩,hvalid,h⟩ := bind_eq_ok h
  refine getOptional_put (fun r hr => ?_) bytes h rest
  rw [Option.mem_def] at hr
  rw [hr] at hvalid
  rw [validateRef_kind hvalid]
  exact hkind

theorem getRef_putParticipant (v : RequiredRef) : RoundTrip (putParticipant state) getRef v := by
  intro bytes h rest
  obtain ⟨⟨⟩,hvalid,h⟩ := bind_eq_ok h
  exact getRef_of_validateRef rfl hvalid bytes h rest

theorem putParticipant_length (v : RequiredRef) (bytes : Bytes)
    (h : putParticipant state v = .ok bytes) : bytes.length = 96 := by
  obtain ⟨⟨⟩,-,h⟩ := bind_eq_ok h
  exact putRef_length v bytes h

theorem u64_putSymbol (v : U64) : RoundTrip putSymbol u64 v := by
  intro bytes h rest
  obtain rfl := Except.ok.inj h
  exact u64_append v rest

theorem sized_of_length {α : Type} {n : ℕ} {xs : List α} (h : xs.length = n) :
    sized n xs = .ok ⟨xs,h⟩ := dif_pos h

theorem stateRead_write (v : CommitState) : RoundTrip stateWrite stateRead v := by
  intro bytes h rest
  have hwritten:=h
  obtain ⟨symbols,hsymbols,h⟩ := bind_eq_ok h
  obtain ⟨roots,hroots,h⟩ := bind_eq_ok h
  obtain ⟨catalog,hcatalog,h⟩ := bind_eq_ok h
  obtain ⟨vector,hvector,h⟩ := bind_eq_ok h
  obtain ⟨text,htext,h⟩ := bind_eq_ok h
  obtain ⟨reclaim,hreclaim,h⟩ := bind_eq_ok h
  obtain ⟨hcount,h⟩ := of_ite_error h
  obtain ⟨inventories,hinventories,hbytes⟩ := bind_eq_ok h
  have hword : (BitVec.ofNat 32 v.preparedInventories.length).toNat =
      v.preparedInventories.length := by
    rw [BitVec.toNat_ofNat,Nat.mod_eq_of_lt (by omega)]
  have hreadSymbols:=readMany_putMany (fun x _ => u64_putSymbol x) symbols hsymbols
  have hreadRoots:=readMany_putMany
    (fun x _ => getOptional_putRoot rfl x) roots hroots
  have hreadInventories:=readRows_putMany putParticipant_length
    (fun x _ => getRef_putParticipant x) inventories hinventories
  rw [v.highWaters.four] at hreadSymbols
  rw [v.graph.eight] at hreadRoots
  obtain rfl := Except.ok.inj hbytes
  simp only [stateRead,append_assoc,u128_append,ok_bind,NonzeroId.new_get,u64_append,
    hreadSymbols,sized_of_length v.highWaters.four,hreadRoots,sized_of_length v.graph.eight,
    getRef_putParticipant v.catalog catalog hcatalog,
    getOptional_putRoot rfl v.vector vector hvector,
    getOptional_putRoot rfl v.text text htext,
    getOptional_putRoot rfl v.reclaim reclaim hreclaim,
    u32_append,zero_append,hword,hreadInventories]
  rw [hwritten,ok_bind]
  rfl

end States

end Zeppelin.GraphWal
