import Zeppelin.Format.Block
import Zeppelin.GraphStore.RangeEdits

/-! adjacency/codec.rs, adjacency/merge.rs -/

namespace Zeppelin.GraphStore.Adjacency
open List

def headerBytes : ℕ := 96

def entryWidth (delta : Bool) : ℕ := if delta then 40 else 32

/-- `Error` with the issues that only bytes can have. -/
inductive BlockError where
  | inner (error : InnerError)
  | reserved
  | length
  | identity
  deriving DecidableEq

abbrev Decoding := Except BlockError

def tagIssue : BlockError := .inner (.format .tag)

def sequenceIssue : BlockError := .inner (.format .sequence)

def readBytes (bytes : Bytes) (offset width : ℕ) : Decoding Bytes :=
  match slice? bytes offset (offset+width) with
  | some part => .ok part
  | none => .error .length

def readNumber (bytes : Bytes) (offset width : ℕ) : Decoding ℕ :=
  leNat <$> readBytes bytes offset width

/-- `RelId::new`, `RelTypeId::new` -/
def nonzero (value : ℕ) : Decoding ℕ := if value = 0 then .error .identity else .ok value

def readIdentity (bytes : Bytes) (offset width : ℕ) : Decoding ℕ :=
  readNumber bytes offset width >>= nonzero

def parseAction (tail : Bytes) : Decoding Action :=
  if (tail.drop 1).any (· ≠ 0) then .error .reserved
  else
    match tail.head? with
    | some 1 => .ok .insert
    | some 2 => .ok .delete
    | _ => .error tagIssue

def readAction (delta : Bool) (bytes : Bytes) (offset : ℕ) : Decoding Action :=
  if delta then readBytes bytes offset 8 >>= parseAction else .ok .insert

/-- `Run::entry`, for an index below the count -/
def readEntry (delta : Bool) (bytes : Bytes) (index : ℕ) : Decoding DeltaEntry := do
  let offset:=index*entryWidth delta+headerBytes
  let rel ← readIdentity bytes offset 16
  let neighbor ← readNumber bytes (offset+16) 16
  let action ← readAction delta bytes (offset+32)
  return ⟨⟨rel,neighbor⟩,action⟩

def parseUpper (tag : ℕ) (bits : ℕ) : Decoding UpperBound :=
  if tag = 0 then UpperBound.exclusive <$> nonzero bits
  else if tag = 1 then if bits = 0 then .ok .infinity else .error .reserved
  else .error tagIssue

def parseDirection (tag : ℕ) : Decoding Direction :=
  if tag = 1 then .ok .out else if tag = 2 then .ok .incoming else .error tagIssue

def magic : Bytes := [0x5a,0x41,0x44,0x4a]

def blockKind (delta : Bool) : ℕ := if delta then 14 else 13

def checkTags (delta : Bool) (header : Bytes) : Decoding Unit := do
  let found ← readBytes header 0 4
  let version ← readNumber header 4 2
  let kind ← readNumber header 6 2
  failIf (found ≠ magic ∨ version ≠ 1 ∨ kind ≠ blockKind delta) tagIssue
  failIf ((header.drop 78).any (· ≠ 0)) .reserved

def readKey (header : Bytes) : Decoding RangeKey := do
  let node ← readNumber header 8 16
  let relType ← readIdentity header 24 8
  let lower ← readIdentity header 32 16
  let upperBits ← readNumber header 48 16
  let upperTag ← readNumber header 77 1
  let upper ← parseUpper upperTag upperBits
  let directionTag ← readNumber header 76 1
  let direction ← parseDirection directionTag
  return ⟨node,relType,direction,lower,upper⟩

/-- The entries from an index on, each checked against its predecessor. -/
def decodeEntries (key : RangeKey) (delta : Bool) (bytes : Bytes) :
    ℕ → ℕ → Option ℕ → Decoding (List DeltaEntry)
  | 0,_,_ => .ok []
  | count+1,index,previous => do
    let entry ← readEntry delta bytes index
    Except.mapError .inner (validEdge key entry.edge previous)
    let entries ← decodeEntries key delta bytes count (index+1) (some entry.edge.rel)
    return entry::entries

/-- `codec::decode` -/
def decodeBlock (key : RangeKey) (delta : Bool) (bytes : Bytes) : Decoding Run := do
  let header ← readBytes bytes 0 headerBytes
  checkTags delta header
  let decoded ← readKey header
  Except.mapError .inner (validRange decoded)
  failIf (decoded ≠ key) (.inner (.format .group))
  let count ← readNumber header 72 4
  Except.mapError .inner (limitCount delta count)
  failIf (bytes.length ≠ count*entryWidth delta+headerBytes) .length
  let sequence ← readNumber header 64 8
  let entries ← decodeEntries key delta bytes count 0 none
  return ⟨key,sequence,delta,entries⟩

def actionByte : Action → U8
  | .insert => 1
  | .delete => 2

def entryBytes (delta : Bool) (entry : DeltaEntry) : Bytes :=
  leBytes 16 entry.edge.rel++(leBytes 16 entry.edge.neighbor++
    if delta then [actionByte entry.action,0,0,0,0,0,0,0] else [])

def upperBits : UpperBound → ℕ
  | .exclusive rel => rel
  | .infinity => 0

def upperTag : UpperBound → ℕ
  | .exclusive _ => 0
  | .infinity => 1

def directionTag : Direction → ℕ
  | .out => 1
  | .incoming => 2

def headerOf (run : Run) : Bytes :=
  magic++(leBytes 2 1++(leBytes 2 (blockKind run.delta)++(leBytes 16 run.key.node++
    (leBytes 8 run.key.relType++(leBytes 16 run.key.lower++
      (leBytes 16 (upperBits run.key.upper)++(leBytes 8 run.sequence++
        (leBytes 4 run.entries.length++(leBytes 1 (directionTag run.key.direction)++
          (leBytes 1 (upperTag run.key.upper)++List.replicate 18 0))))))))))

/-- The bytes that `encode_base` and `encode_delta` write for a checked run. -/
def blockBytes (run : Run) : Bytes := headerOf run++run.entries.flatMap (entryBytes run.delta)

structure Partition where
  key : RangeKey
  start : ℕ
  stop : ℕ
  deriving DecidableEq

/-- `Merged` -/
structure MergeOutput where
  edges : List Edge
  partitions : List Partition
  watermark : ℕ
  deriving DecidableEq

def decodeDeltas (key : RangeKey) (watermark cutoff : ℕ) :
    ℕ → ℕ → List Bytes → Decoding (List Run)
  | _,_,[] => .ok []
  | previous,pending,bytes::blocks => do
    let run ← decodeBlock key true bytes
    failIf (run.sequence ≤ watermark ∨ cutoff < run.sequence ∨ run.sequence < previous)
      sequenceIssue
    failIf (pending+run.entries.length > maxPendingEntries) (.inner (.limit .pendingEntries))
    let runs ← decodeDeltas key watermark cutoff run.sequence (pending+run.entries.length) blocks
    return run::runs

/-- The first walk counts the edges and notes where a second base would start. -/
def countEdge (seen : ℕ × Option ℕ) (edge : Edge) : ℕ × Option ℕ :=
  (seen.1+1,if seen.1 = maxBaseEntries then some edge.rel else seen.2)

def copyEdges (capacity : ℕ) : List Edge → List Edge → Except InnerError (List Edge)
  | written,[] => .ok written
  | written,edge::edges =>
    if capacity ≤ written.length then .error (.limit .output)
    else copyEdges capacity (written++[edge]) edges

def partitionsOf (key : RangeKey) (needed : ℕ) : Option ℕ → List Partition
  | some cut =>
    [⟨{ key with upper := .exclusive cut },0,maxBaseEntries⟩,
      ⟨{ key with lower := cut },maxBaseEntries,needed⟩]
  | none => if needed = 0 then [] else [⟨key,0,needed⟩]

/-- `merge` over stored blocks, with an output of `capacity` edges. -/
def mergeBlocks (key : RangeKey) (watermark cutoff : ℕ) (base : Bytes) (deltas : List Bytes)
    (capacity : ℕ) : Decoding MergeOutput := do
  Except.mapError .inner (validRange key)
  failIf (cutoff < watermark) sequenceIssue
  failIf (deltas.length > maxDeltaRuns) (.inner (.limit .deltaRuns))
  let run ← decodeBlock key false base
  failIf (run.sequence ≠ watermark) sequenceIssue
  let runs ← decodeDeltas key watermark cutoff watermark 0 deltas
  let counted ← Except.mapError .inner (walk (run::runs))
  let seen:=counted.foldl countEdge (0,none)
  failIf (seen.1 > capacity) (.inner (.limit .output))
  let edges ← Except.mapError .inner (walk (run::runs) >>= copyEdges capacity [])
  return ⟨edges,partitionsOf key seen.1 seen.2,cutoff⟩

open Format

theorem mapError_ok_iff {ε ε' α : Type} {f : ε → ε'} {x : Except ε α} {a : α} :
    Except.mapError f x = .ok a ↔ x = .ok a := by
  refine ⟨mapError_eq_ok,fun h => ?_⟩
  rw [h]
  rfl

theorem decodeEntries_ok {key : RangeKey} {delta : Bool} {bytes : Bytes} {count index : ℕ}
    {previous : Option ℕ} {entries : List DeltaEntry}
    (h : decodeEntries key delta bytes count index previous = .ok entries) :
    entries.length = count ∧ checkEntries key previous entries = .ok () := by
  induction count generalizing index previous entries with
  | zero =>
    cases h
    exact ⟨rfl,rfl⟩
  | succ count ih =>
    obtain ⟨entry,-,h⟩ := bind_eq_ok h
    obtain ⟨⟨⟩,hedge,h⟩ := bind_eq_ok h
    obtain ⟨rest,hrest,h⟩ := bind_eq_ok h
    cases h
    obtain ⟨hlength,hcheck⟩ := ih hrest
    rw [length_cons,hlength,checkEntries,mapError_ok_iff.mp hedge,ok_bind]
    exact ⟨rfl,hcheck⟩

theorem decodeBlock_fits {key : RangeKey} {delta : Bool} {bytes : Bytes} {run : Run}
    (h : decodeBlock key delta bytes = .ok run) : run.Fits key delta := by
  obtain ⟨header,-,h⟩ := bind_eq_ok h
  obtain ⟨⟨⟩,-,h⟩ := bind_eq_ok h
  obtain ⟨decoded,-,h⟩ := bind_eq_ok h
  obtain ⟨⟨⟩,hrange,h⟩ := bind_eq_ok h
  obtain ⟨⟨⟩,hkey,h⟩ := bind_eq_ok h
  obtain ⟨count,-,h⟩ := bind_eq_ok h
  obtain ⟨⟨⟩,hcount,h⟩ := bind_eq_ok h
  obtain ⟨⟨⟩,-,h⟩ := bind_eq_ok h
  obtain ⟨sequence,-,h⟩ := bind_eq_ok h
  obtain ⟨entries,hentries,h⟩ := bind_eq_ok h
  cases h
  rw [failIf_eq_ok,not_not] at hkey
  rw [hkey] at hrange
  obtain ⟨hlength,hcheck⟩ := decodeEntries_ok hentries
  obtain ⟨-,hascending,hholds⟩ := checkEntries_eq_ok.mp hcheck
  exact ⟨rfl,rfl,validRange_eq_ok.mp (mapError_ok_iff.mp hrange),
    hlength ▸ limitCount_eq_ok.mp (mapError_ok_iff.mp hcount),hascending,hholds⟩

/-- The sizes of the source's types: nodes and relationships of 128 bits, types and sequences
of 64. -/
structure Run.Sized (run : Run) : Prop where
  node : run.key.node < 2^128
  relType : 0 < run.key.relType ∧ run.key.relType < 2^64
  lower : 0 < run.key.lower ∧ run.key.lower < 2^128
  upper : ∀ rel,run.key.upper = .exclusive rel → rel < 2^128
  sequence : run.sequence < 2^64
  entries : ∀ entry ∈ run.entries,entry.edge.rel < 2^128 ∧ entry.edge.neighbor < 2^128
  base_inserts : run.delta = false → ∀ entry ∈ run.entries,entry.action = .insert

section Fields
variable {bytes rest : Bytes} {offset width value : ℕ}

theorem readBytes_of_drop {part : Bytes} (width : ℕ) (h : bytes.drop offset = part++rest)
    (hlength : part.length = width) (hpos : 0 < width) :
    readBytes bytes offset width = .ok part := by
  have htotal:=length_of_drop h (by omega)
  rw [readBytes,slice?_eq_some (by omega) (by omega),h,Nat.add_sub_cancel_left,
    take_left' hlength]

theorem readNumber_of_drop (h : bytes.drop offset = leBytes width value++rest)
    (hpos : 0 < width) (hvalue : value < 256^width) :
    readNumber bytes offset width = .ok value := by
  rw [readNumber,readBytes_of_drop width h (leBytes_length ..) hpos,ok_map,leNat_leBytes _ _ hvalue]

theorem readIdentity_of_drop (h : bytes.drop offset = leBytes width value++rest)
    (hpos : 0 < width) (hvalue : value < 256^width) (hnonzero : 0 < value) :
    readIdentity bytes offset width = .ok value := by
  rw [readIdentity,readNumber_of_drop h hpos hvalue,ok_bind,nonzero,if_neg (by omega)]

theorem drop_leBytes (h : bytes.drop offset = leBytes width value++rest) :
    bytes.drop (offset+width) = rest := drop_behind h (leBytes_length ..)

end Fields

theorem length_headerOf (run : Run) : (headerOf run).length = headerBytes := by
  simp [headerOf,magic,headerBytes,leBytes_length]

theorem length_entryBytes (delta : Bool) (entry : DeltaEntry) :
    (entryBytes delta entry).length = entryWidth delta := by
  cases delta <;> simp [entryBytes,entryWidth,leBytes_length]

theorem checkTags_headerOf (run : Run) : checkTags run.delta (headerOf run) = .ok () := by
  have hmagic : (headerOf run).drop 0 = magic++_ := rfl
  have hversion:=drop_behind hmagic (n := 4) rfl
  have hkind:=drop_leBytes hversion
  have hkindLt : blockKind run.delta < 256^2 := by
    rw [blockKind]
    split_ifs <;> decide
  have h8:=drop_leBytes hkind
  have h24:=drop_leBytes h8
  have h32:=drop_leBytes h24
  have h48:=drop_leBytes h32
  have h64:=drop_leBytes h48
  have h72:=drop_leBytes h64
  have h76:=drop_leBytes h72
  have h77:=drop_leBytes h76
  have h78:=drop_leBytes h77
  norm_num at h78
  rw [checkTags,readBytes_of_drop 4 hmagic rfl (by decide),ok_bind,
    readNumber_of_drop hversion (by decide) (by decide),ok_bind,
    readNumber_of_drop hkind (by decide) hkindLt,ok_bind,failIf_neg _ (by simp),ok_bind,h78]
  exact failIf_neg _ (by decide)

theorem parseUpper_bits {upper : UpperBound} (h : ∀ rel,upper = .exclusive rel → 0 < rel) :
    parseUpper (upperTag upper) (upperBits upper) = .ok upper := by
  cases upper with
  | infinity => rfl
  | exclusive rel =>
    have hpos:=h rel rfl
    rw [upperTag,upperBits,parseUpper,if_pos rfl,nonzero,if_neg (by omega)]
    rfl

theorem parseDirection_tag (direction : Direction) :
    parseDirection (directionTag direction) = .ok direction := by
  cases direction <;> rfl

variable {run : Run} {delta : Bool} {index : ℕ} {key : RangeKey}

theorem readKey_headerOf (h : run.Sized)
    (hrange : run.key.upper.above run.key.lower = true) (hcount : run.entries.length < 2^32) :
    readKey (headerOf run) = .ok run.key ∧
      readNumber (headerOf run) 72 4 = .ok run.entries.length ∧
      readNumber (headerOf run) 64 8 = .ok run.sequence := by
  have hmagic : (headerOf run).drop 0 = magic++_ := rfl
  have h4:=drop_behind hmagic (n := 4) rfl
  have h6:=drop_leBytes h4
  have h8:=drop_leBytes h6
  have h24:=drop_leBytes h8
  have h32:=drop_leBytes h24
  have h48:=drop_leBytes h32
  have h64:=drop_leBytes h48
  have h72:=drop_leBytes h64
  have h76:=drop_leBytes h72
  have h77:=drop_leBytes h76
  have hupper : ∀ rel,run.key.upper = .exclusive rel → 0 < rel := by
    intro rel hrel
    rw [hrel,UpperBound.above,decide_eq_true_eq] at hrange
    omega
  have hbits : upperBits run.key.upper < 256^16 := by
    cases hcase : run.key.upper with
    | infinity => exact Nat.pow_pos (by decide)
    | exclusive rel => exact h.upper rel hcase
  have htag : upperTag run.key.upper < 256^1 := by
    cases run.key.upper with
    | infinity => exact (by decide : 1 < 256^1)
    | exclusive rel => exact Nat.pow_pos (by decide)
  have hdirection : directionTag run.key.direction < 256^1 := by
    cases run.key.direction <;> decide
  refine ⟨?_,readNumber_of_drop h72 (by decide) hcount,
    readNumber_of_drop h64 (by decide) h.sequence⟩
  rw [readKey,readNumber_of_drop h8 (by decide) h.node,ok_bind,
    readIdentity_of_drop h24 (by decide) h.relType.2 h.relType.1,ok_bind,
    readIdentity_of_drop h32 (by decide) h.lower.2 h.lower.1,ok_bind,
    readNumber_of_drop h48 (by decide) hbits,ok_bind,
    readNumber_of_drop h77 (by decide) htag,ok_bind,parseUpper_bits hupper,ok_bind,
    readNumber_of_drop h76 (by decide) hdirection,ok_bind,parseDirection_tag,ok_bind]
  rfl

theorem parseAction_bytes (action : Action) :
    parseAction [actionByte action,0,0,0,0,0,0,0] = .ok action := by
  cases action <;> rfl

theorem readEntry_of_drop {bytes rest : Bytes} {entry : DeltaEntry}
    (h : bytes.drop (index*entryWidth delta+headerBytes) = entryBytes delta entry++rest)
    (hrel : 0 < entry.edge.rel) (hsized : entry.edge.rel < 2^128 ∧ entry.edge.neighbor < 2^128)
    (hbase : delta = false → entry.action = .insert) : readEntry delta bytes index = .ok entry := by
  rw [entryBytes,append_assoc,append_assoc] at h
  have h16:=drop_leBytes h
  have h32:=drop_leBytes h16
  simp only [readEntry]
  rw [readIdentity_of_drop h (by decide) hsized.1 hrel,ok_bind,
    readNumber_of_drop h16 (by decide) hsized.2,ok_bind]
  cases delta with
  | false =>
    have haction:=hbase rfl
    rw [readAction,if_neg Bool.false_ne_true,ok_bind,← haction]
    rfl
  | true =>
    rw [if_pos rfl] at h32
    rw [readAction,if_pos rfl,readBytes_of_drop 8 h32 rfl (by decide),ok_bind,parseAction_bytes,
      ok_bind]
    rfl

theorem decodeEntries_of_drop {bytes : Bytes} {previous : Option ℕ} {entries : List DeltaEntry}
    (h : bytes.drop (index*entryWidth delta+headerBytes) =
      entries.flatMap (entryBytes delta))
    (hpos : ∀ entry ∈ entries,0 < entry.edge.rel)
    (hsized : ∀ entry ∈ entries,entry.edge.rel < 2^128 ∧ entry.edge.neighbor < 2^128)
    (hbase : delta = false → ∀ entry ∈ entries,entry.action = .insert)
    (hcheck : checkEntries key previous entries = .ok ()) :
    decodeEntries key delta bytes entries.length index previous = .ok entries := by
  induction entries generalizing index previous with
  | nil => rfl
  | cons entry entries ih =>
    rw [flatMap_cons] at h
    rw [checkEntries] at hcheck
    obtain ⟨⟨⟩,hedge,hrest⟩ := bind_eq_ok hcheck
    have hread:=readEntry_of_drop h (hpos entry (mem_cons_self ..))
      (hsized entry (mem_cons_self ..)) fun hd => hbase hd entry (mem_cons_self ..)
    have hnext:=drop_behind h (length_entryBytes delta entry)
    have hoffset : index*entryWidth delta+headerBytes+entryWidth delta =
        (index+1)*entryWidth delta+headerBytes := by
      rw [Nat.add_mul]
      omega
    rw [hoffset] at hnext
    rw [length_cons,decodeEntries,hread,ok_bind,mapError_ok_iff.mpr hedge,ok_bind,
      ih hnext (fun e he => hpos e (mem_cons_of_mem _ he))
        (fun e he => hsized e (mem_cons_of_mem _ he))
        (fun hd e he => hbase hd e (mem_cons_of_mem _ he)) hrest]
    rfl

theorem length_flatMap_entries (delta : Bool) (entries : List DeltaEntry) :
    (entries.flatMap (entryBytes delta)).length = entries.length*entryWidth delta := by
  induction entries with
  | nil => simp
  | cons entry entries ih =>
    rw [flatMap_cons,length_append,ih,length_entryBytes,length_cons,
      Nat.add_mul]
    omega

theorem decodeBlock_blockBytes (hsized : run.Sized)
    (hfits : run.Fits key delta) : decodeBlock key delta (blockBytes run) = .ok run := by
  have hheader:=length_headerOf run
  have hcount:=hfits.count
  have hmax : maxEntries delta < 2^32 := by
    cases delta <;> decide
  have hrange:=hfits.interval
  rw [← hfits.key_eq] at hrange
  obtain ⟨hkey,hcountRead,hsequence⟩ := readKey_headerOf hsized hrange (by omega)
  have htags:=checkTags_headerOf run
  rw [hfits.delta_eq] at htags
  have hread : readBytes (blockBytes run) 0 headerBytes = .ok (headerOf run) :=
    readBytes_of_drop headerBytes (by rw [drop_zero,blockBytes]) hheader (by decide)
  have hlength : (blockBytes run).length = run.entries.length*entryWidth delta+headerBytes := by
    rw [blockBytes,length_append,hheader,length_flatMap_entries,hfits.delta_eq]
    omega
  have hpos : ∀ entry ∈ run.entries,0 < entry.edge.rel := by
    intro entry hentry
    have hholds:=(hfits.holds entry hentry).1
    have hlower:=hsized.lower.1
    rw [hfits.key_eq] at hlower
    omega
  have hentries : decodeEntries key delta (blockBytes run) run.entries.length 0 none =
      .ok run.entries := by
    refine decodeEntries_of_drop ?_ hpos hsized.entries (hfits.delta_eq ▸ hsized.base_inserts)
      (checkEntries_eq_ok.mpr ⟨by simp,hfits.ascending,hfits.holds⟩)
    rw [Nat.zero_mul,Nat.zero_add,blockBytes,drop_left' hheader,hfits.delta_eq]
  rw [decodeBlock,hread,ok_bind,htags,ok_bind,hkey,ok_bind,
    mapError_ok_iff.mpr (validRange_eq_ok.mpr hrange),ok_bind,
    failIf_neg _ (not_not.mpr hfits.key_eq),ok_bind,hcountRead,ok_bind,
    mapError_ok_iff.mpr (limitCount_eq_ok.mpr hcount),ok_bind,
    failIf_neg _ (not_not.mpr hlength),ok_bind,hsequence,ok_bind,hentries,ok_bind]
  obtain ⟨runKey,sequence,runDelta,entries⟩ := run
  rw [← hfits.key_eq,← hfits.delta_eq]
  rfl

end Zeppelin.GraphStore.Adjacency
