import Zeppelin.Collections.SortedIndex
import Zeppelin.Collections.SortedMap
import Zeppelin.GraphWal.Change

/-! storage/inventory.rs -/

namespace Zeppelin.GraphStore.Inventory
open Collections GraphWal PropertyGraph List

def maxPreparedManifestDescriptors : ℕ := 8192
def inventoryFoldAdditionLimit : ℕ := 256
def inventoryFoldManifestLimit : ℕ := 64
def inventoryMappingWindowRows : ℕ := 8

inductive TreeError where
  | invalid (reason : String)
  | format (reason : String)
  deriving DecidableEq

abbrev Fold := Except TreeError

structure Block where
  store : StoreInstanceId
  artifact : ArtifactId
  generation : GraphGeneration
  creationSerial : U64
  reference : PhysicalRef
  fileLength : ℕ
  fileChecksum : U64
  payload : Bytes
  deriving DecidableEq

abbrev BlockSource := PhysicalRef → Fold Block

/-- `GraphRoots`, of which a fold needs the object inventory. -/
structure GraphRoots where
  store : StoreInstanceId
  generation : GraphGeneration
  rows : SortedMap ℕ InventoryChange

def artifactKey (object : ArtifactDescriptor) : ℕ := object.artifact.get.toNat

def validate (object : ArtifactDescriptor) (store : StoreInstanceId)
    (generation : GraphGeneration) : Fold Unit :=
  failIf (object.store ≠ store ∨ generation < object.generation ∨ object.serial = 0 ∨
    object.family ≠ 17 ∨ object.version ≠ 1 ∨ object.bytes.toNat < 104 ∨
      GraphWal.maxArtifactBytes < object.bytes.toNat) (.invalid "inventory artifact descriptor")

/-- `prepared_manifest`: the payload and the number of its rows. -/
def preparedManifest (source : BlockSource) (required : RequiredRef) (store : StoreInstanceId)
    (generation : GraphGeneration) : Fold (Bytes × ℕ) := do
  failIf (required.object.store ≠ store ∨ generation < required.object.generation ∨
    required.object.family ≠ 17 ∨ required.object.version ≠ 1 ∨
      required.block.artifact ≠ required.object.artifact ∨
        required.block.kind ≠ .commitParticipant ∨ required.block.version ≠ 1)
    (.invalid "prepared inventory required reference")
  let block ← source required.block
  failIf (block.store ≠ required.object.store ∨ block.artifact ≠ required.object.artifact ∨
    block.generation ≠ required.object.generation ∨
      block.creationSerial ≠ required.object.serial ∨ block.reference ≠ required.block ∨
        block.fileLength ≠ required.object.bytes.toNat ∨
          block.fileChecksum ≠ required.object.checksum)
    (.invalid "prepared inventory immutable descriptor")
  failIf (slice? block.payload 0 4 ≠ some (utf8Bytes "ZGCP") ∨
    slice? block.payload 4 6 ≠ some [2,0] ∨ slice? block.payload 6 8 ≠ some [1,0] ∨
      slice? block.payload 12 16 ≠ some [0,0,0,0])
    (.invalid "prepared inventory role or reserved")
  let count:=leNat ((block.payload.drop 8).take 4)
  failIf (maxPreparedManifestDescriptors < count ∨ block.payload.length ≠ count*64+16)
    (.invalid "prepared inventory length")
  return (block.payload,count)

def identity (bytes : Bytes) (error : TreeError) : Fold NonzeroId :=
  if h : ofLe 128 bytes = 0 then .error error else .ok ⟨ofLe 128 bytes,h⟩

def decodeDescriptor (bytes : Bytes) : Fold ArtifactDescriptor := do
  failIf (bytes.length ≠ 64) (.invalid "prepared inventory descriptor width")
  let store ← identity (bytes.take 16) (.invalid "zero prepared inventory store")
  let artifact ← identity ((bytes.drop 16).take 16) (.format "zero artifact identity")
  return {
    store
    artifact
    generation := ofLe 64 ((bytes.drop 32).take 8)
    serial := ofLe 64 ((bytes.drop 40).take 8)
    bytes := ofLe 32 ((bytes.drop 48).take 4)
    family := ofLe 16 ((bytes.drop 52).take 2)
    version := ofLe 16 ((bytes.drop 54).take 2)
    checksum := ofLe 64 ((bytes.drop 56).take 8) }

def readDescriptors (store : StoreInstanceId) (generation : GraphGeneration) :
    ℕ → Bytes → Fold (List ArtifactDescriptor)
  | 0,_ => .ok []
  | count+1,bytes => do
    let descriptor ← decodeDescriptor (bytes.take 64)
    validate descriptor store generation
    let rest ← readDescriptors store generation count (bytes.drop 64)
    return descriptor::rest

def manifestRows (source : BlockSource) (required : RequiredRef) (store : StoreInstanceId)
    (generation : GraphGeneration) : Fold (List ArtifactDescriptor) := do
  let (payload,count) ← preparedManifest source required store generation
  readDescriptors store generation count (payload.drop 16)

section Search
variable {α : Type} (key : α → ℕ)

def sortBy (rows : List α) : List α := rows.mergeSort fun a b => key a ≤ key b

/-- `binary_search_by_key` -/
def binarySearchBy (target : ℕ) (rows : List α) : Option α :=
  rows[slicePartitionPoint (fun row => key row < target) rows]?.filter fun row => key row = target

def adjacentEqual : List α → Bool
  | a::b::rest => key a = key b || adjacentEqual (b::rest)
  | _ => false

end Search

def coveredState : InventoryState → Bool
  | .retained => true
  | .reclaimPending _ => true
  | .reclaimed _ => true
  | .prepared => false

def GraphRoots.find (root : GraphRoots) (key : ℕ) : Option InventoryChange :=
  root.rows.entries.lookup key

def lookupInventory (root : GraphRoots) (expected : ArtifactDescriptor) :
    Fold (Option InventoryChange) :=
  match root.find (artifactKey expected) with
  | none => .ok none
  | some actual =>
    if actual.object ≠ expected then .error (.invalid "contradictory prepared inventory descriptor")
    else .ok (some actual)

def GraphRoots.seek (root : GraphRoots) (lower : ℕ) : List (ℕ × InventoryChange) :=
  root.rows.entries.filter fun entry => lower ≤ entry.1

def changeKey (change : InventoryChange) : ℕ := artifactKey change.object

def changeSerial (change : InventoryChange) : ℕ := change.object.serial.toNat

def checkSerial (manifest : List InventoryChange) (owner : ArtifactDescriptor)
    (rooted : InventoryChange) : Fold Unit :=
  failIf ((binarySearchBy changeSerial (changeSerial rooted) manifest).any
      (fun change => change.object.artifact ≠ rooted.object.artifact) ∨
    rooted.object.serial = owner.serial ∧ rooted.object.artifact ≠ owner.artifact)
    (.invalid "duplicate prepared inventory serial ownership")

def checkSerials (manifest : List InventoryChange) (owner : ArtifactDescriptor) :
    List InventoryChange → Fold Unit
  | [] => .ok ()
  | rooted::rest => do
    checkSerial manifest owner rooted
    checkSerials manifest owner rest

/-- `validate_root_serials_in_windows`: the next window starts behind the last row of a full
one. -/
def rootSerialsInWindows (root : GraphRoots) (manifest : List InventoryChange)
    (owner : ArtifactDescriptor) : ℕ → ℕ → Fold Unit
  | 0,_ => .ok ()
  | fuel+1,lower => do
    let window:=(root.seek lower).take inventoryMappingWindowRows
    checkSerials manifest owner (window.map Prod.snd)
    match window.getLast? with
    | none => return
    | some last =>
      if window.length < inventoryMappingWindowRows ∨ 2^128 ≤ last.1+1 then return
      else rootSerialsInWindows root manifest owner fuel (last.1+1)

def retained (object : ArtifactDescriptor) : InventoryChange := ⟨object,.retained⟩

def segmentOf (root : GraphRoots) (owner : ArtifactDescriptor) (rows : List ArtifactDescriptor) :
    Fold (List InventoryChange) := do
  let manifest:=sortBy changeKey (rows.map retained)
  failIf (binarySearchBy changeKey (artifactKey owner) manifest).isSome
    (.invalid "prepared inventory owner row collision")
  failIf (adjacentEqual changeKey manifest) (.invalid "duplicate prepared inventory row ownership")
  let serials:=sortBy changeSerial manifest
  failIf (binarySearchBy changeSerial owner.serial.toNat serials).isSome
    (.invalid "prepared inventory owner serial collision")
  failIf (adjacentEqual changeSerial serials)
    (.invalid "duplicate prepared inventory serial ownership")
  rootSerialsInWindows root serials owner (root.rows.entries.length+1) 0
  return sortBy changeKey serials++[retained owner]

abbrev Selection := List InventoryChange × Bool

def select (limit : ℕ) (expected : InventoryChange) (state : Selection) : Selection :=
  if state.1.length < limit then (state.1++[expected],state.2) else (state.1,false)

def selectRow (root : GraphRoots) (limit : ℕ) (state : Selection) (expected : InventoryChange) :
    Fold Selection :=
  match state.1.find? fun change => change.object.artifact = expected.object.artifact with
  | some change =>
    if change.object = expected.object then .ok state
    else .error (.invalid "contradictory prepared inventory descriptor")
  | none => do
    match ← lookupInventory root expected.object with
    | some change =>
      if coveredState change.state then return state
      else if change.state ≠ .prepared then .error (.invalid "inventory fold rooted state")
      else return select limit expected state
    | none => return select limit expected state

def selectRows (root : GraphRoots) (limit : ℕ) :
    Selection → List InventoryChange → Fold Selection
  | state,[] => .ok state
  | state,expected::rest => do
    let next ← selectRow root limit state expected
    selectRows root limit next rest

def admittedRun (source : BlockSource) (base : GraphRoots) :
    ℕ → ℕ → List RequiredRef → Fold ℕ
  | _,admitted,[] => .ok admitted
  | capacity,admitted,required::rest => do
    let (_,count) ← preparedManifest source required base.store base.generation
    if 0 < admitted ∧ maxPreparedManifestDescriptors < capacity+count+1 then return admitted
    else admittedRun source base (capacity+count+1) (admitted+1) rest

/-- `PreparedInventoryFold`, the rows by manifest. -/
structure PreparedInventoryFold where
  selected : List RequiredRef
  retired : ℕ
  segments : List (List InventoryChange)
  changes : List InventoryChange
  deriving DecidableEq

def examine (source : BlockSource) (base : GraphRoots) (limit : ℕ) :
    List RequiredRef → PreparedInventoryFold → Fold PreparedInventoryFold
  | [],fold => .ok fold
  | required::rest,fold => do
    let rows ← manifestRows source required base.store base.generation
    let segment ← segmentOf base required.object rows
    let (changes,complete) ← selectRows base limit (fold.changes,true) segment
    let examined : PreparedInventoryFold :=
      ⟨fold.selected++[required],fold.retired,fold.segments++[segment],changes⟩
    if complete then
      examine source base limit rest { examined with retired := examined.retired+1 }
    else return examined

def selectedChange (changes : List InventoryChange) (expected : InventoryChange) : Bool :=
  (binarySearchBy changeKey (changeKey expected) changes).any fun change =>
    change.object = expected.object ∧ change.state = expected.state

def coveredRows (root : GraphRoots) (changes : List InventoryChange) :
    List InventoryChange → Fold Bool
  | [] => .ok true
  | expected::rest => do
    let existing ← lookupInventory root expected.object
    let covered ← coveredRows root changes rest
    return (existing.any (fun change => coveredState change.state) ||
      selectedChange changes expected) && covered

def observedRetired (root : GraphRoots) (changes : List InventoryChange) :
    List (List InventoryChange) → Fold ℕ
  | [] => .ok 0
  | segment::rest => do
    let covered ← coveredRows root changes segment
    if covered then (· + 1) <$> observedRetired root changes rest else return 0

def prepareInventoryFold (source : BlockSource) (manifests : List RequiredRef)
    (base : GraphRoots) (additionLimit : ℕ) : Fold PreparedInventoryFold := do
  failIf (additionLimit = 0 ∨ inventoryFoldAdditionLimit < additionLimit)
    (.invalid "inventory fold addition limit")
  let run:=manifests.take inventoryFoldManifestLimit
  let admitted ← admittedRun source base 0 0 run
  let examined ← examine source base additionLimit (run.take admitted) ⟨[],0,[],[]⟩
  let fold:={ examined with changes := sortBy changeKey examined.changes }
  failIf (fold.changes.any fun change => !(fold.segments.flatten.any fun expected =>
      expected.object = change.object ∧ expected.state = change.state) ||
    change.state ≠ .retained) (.invalid "inventory fold selected unauthorized descriptor")
  let observed ← observedRetired base fold.changes fold.segments
  failIf (fold.retired ≠ observed) (.invalid "inventory fold completion proof mismatch")
  return fold

def checkChanges (root : GraphRoots) (generation : GraphGeneration) :
    Option ℕ → List InventoryChange → Fold Unit
  | _,[] => .ok ()
  | previous,change::rest => do
    validate change.object root.store generation
    failIf (previous.any fun id => changeKey change ≤ id)
      (.invalid "duplicate/unordered inventory change")
    failIf ((root.find (changeKey change)).any fun actual => actual.object ≠ change.object)
      (.invalid "inventory immutable descriptor changed")
    checkChanges root generation (some (changeKey change)) rest

def insertChanges (rows : SortedMap ℕ InventoryChange) (changes : List InventoryChange) :
    SortedMap ℕ InventoryChange :=
  changes.foldl (fun rows change => (rows.insert (changeKey change) change).2) rows

def applyInventory (root : GraphRoots) (changes : List InventoryChange)
    (generation : GraphGeneration) : Fold GraphRoots := do
  failIf (generation < root.generation) (.invalid "inventory root/generation")
  checkChanges root generation none changes
  return ⟨root.store,generation,insertChanges root.rows changes⟩

def checkSelected (root : GraphRoots) (rows : List InventoryChange) :
    List InventoryChange → Fold Unit
  | [] => .ok ()
  | change::rest => do
    failIf (¬ rows.any fun expected => expected.object = change.object)
      (.invalid "inventory fold selected unauthorized descriptor")
    match ← lookupInventory root change.object with
    | none => .error (.invalid "inventory fold selected row is absent")
    | some actual =>
      failIf (actual.state ≠ .retained) (.invalid "inventory fold selected state")
      checkSelected root rows rest

def checkRetired (root : GraphRoots) : List InventoryChange → Fold Unit
  | [] => .ok ()
  | expected::rest => do
    match ← lookupInventory root expected.object with
    | none => .error (.invalid "inventory fold retirement row is absent")
    | some actual =>
      failIf (¬ coveredState actual.state) (.invalid "inventory fold retirement state")
      checkRetired root rest

def PreparedInventoryFold.validateCandidate (fold : PreparedInventoryFold) (base root : GraphRoots)
    (expectedGeneration : GraphGeneration) : Fold Unit := do
  failIf (expectedGeneration ≤ base.generation ∨ root.store ≠ base.store ∨
    root.generation ≠ expectedGeneration) (.invalid "inventory fold candidate root")
  checkSelected root fold.segments.flatten fold.changes
  checkRetired root (fold.segments.take fold.retired).flatten

structure Admitted where
  manifests : List RequiredRef
  roots : GraphRoots

def foldCommit (source : BlockSource) (additionLimit : ℕ) (generation : GraphGeneration)
    (admitted : Admitted) : Fold Admitted := do
  let fold ← prepareInventoryFold source admitted.manifests admitted.roots additionLimit
  let root ← applyInventory admitted.roots fold.changes generation
  fold.validateCandidate admitted.roots root generation
  return ⟨admitted.manifests.drop fold.retired,root⟩

def foldCommits (source : BlockSource) (additionLimit : ℕ) :
    List GraphGeneration → Admitted → Fold Admitted
  | [],admitted => .ok admitted
  | generation::rest,admitted => do
    let next ← foldCommit source additionLimit generation admitted
    foldCommits source additionLimit rest next

section Search
variable {α : Type} {key : α → ℕ} {rows : List α}

theorem mem_sortBy {row : α} : row ∈ sortBy key rows ↔ row ∈ rows :=
  (mergeSort_perm ..).mem_iff

theorem sortBy_pairwise (key : α → ℕ) (rows : List α) :
    (sortBy key rows).Pairwise fun a b => key a ≤ key b := by
  have h:=@pairwise_mergeSort _ (fun a b => decide (key a ≤ key b))
    (by
      intro a b c hab hbc
      rw [decide_eq_true_eq] at *
      exact hab.trans hbc)
    (by
      intro a b
      rw [Bool.or_eq_true,decide_eq_true_eq,decide_eq_true_eq]
      exact Nat.le_total ..)
    rows
  exact h.imp of_decide_eq_true

theorem sortBy_distinct (h : rows.Pairwise fun a b => key a ≠ key b) :
    (sortBy key rows).Pairwise fun a b => key a ≠ key b :=
  (mergeSort_perm ..).symm.pairwise h fun hab => hab.symm

theorem binarySearchBy_some {target : ℕ} {row : α}
    (h : binarySearchBy key target rows = some row) : row ∈ rows ∧ key row = target := by
  obtain ⟨hget,hkey⟩ := Option.filter_eq_some_iff.mp h
  exact ⟨mem_of_getElem? hget,of_decide_eq_true hkey⟩

theorem binarySearchBy_isSome (hsorted : rows.Pairwise fun a b => key a ≤ key b) {target : ℕ} :
    (binarySearchBy key target rows).isSome = true ↔ ∃ row ∈ rows,key row = target := by
  constructor
  · intro h
    obtain ⟨row,hrow⟩ := Option.isSome_iff_exists.mp h
    exact ⟨row,binarySearchBy_some hrow⟩
  · intro ⟨row,hrow,hkey⟩
    have hbelow : rows.Pairwise fun a b => decide (key b < target) = true →
        decide (key a < target) = true := by
      refine hsorted.imp fun {a b} hab hb => ?_
      rw [decide_eq_true_eq] at hb ⊢
      omega
    have hdrop:=drop_eq_filter hbelow
    -- the row itself is at or behind the partition point, and the point is not behind the row
    have hmem : row ∈ rows.drop (slicePartitionPoint (fun r => key r < target) rows) := by
      rw [hdrop]
      exact mem_filter.mpr ⟨hrow,by simp [hkey]⟩
    cases hfront : rows.drop (slicePartitionPoint (fun r => key r < target) rows) with
    | nil =>
      rw [hfront] at hmem
      cases hmem
    | cons first rest =>
      have hget : rows[slicePartitionPoint (fun r => key r < target) rows]? = some first := by
        rw [← head?_drop,hfront]
        rfl
      have hge : target ≤ key first := by
        have hfirst : first ∈ rows.filter fun r => !decide (key r < target) := by
          rw [← hdrop,hfront]
          exact mem_cons_self ..
        have := (mem_filter.mp hfirst).2
        simpa using this
      have hle : key first ≤ target := by
        have htail : (first::rest).Pairwise fun a b => key a ≤ key b := by
          rw [← hfront]
          exact hsorted.sublist (drop_sublist ..)
        rw [hfront] at hmem
        rcases mem_cons.mp hmem with rfl | hmem
        · exact hkey.le
        · exact ((pairwise_cons.mp htail).1 row hmem).trans hkey.le
      rw [binarySearchBy,hget,Option.filter_some,if_pos (decide_eq_true (by omega))]
      rfl

theorem adjacentEqual_eq_false (h : rows.Pairwise fun a b => key a ≠ key b) :
    adjacentEqual key rows = false := by
  induction rows with
  | nil => rfl
  | cons a rows ih =>
    cases rows with
    | nil => rfl
    | cons b rest =>
      obtain ⟨ha,hrest⟩ := pairwise_cons.mp h
      rw [adjacentEqual,ih hrest,decide_eq_false (ha b (mem_cons_self ..))]
      rfl

end Search

theorem checkSerials_iff {manifest : List InventoryChange} {owner : ArtifactDescriptor}
    {rows : List InventoryChange} : checkSerials manifest owner rows = .ok () ↔
      ∀ rooted ∈ rows,checkSerial manifest owner rooted = .ok () := by
  induction rows with
  | nil => exact iff_of_true rfl nofun
  | cons rooted rest ih =>
    rw [checkSerials,forall_mem_cons,← ih]
    cases checkSerial manifest owner rooted with
    | error e => simp
    | ok u => simp

variable {root : GraphRoots} {lower : ℕ} {last : ℕ × InventoryChange}

theorem seek_behind_filter (h : last ∈ root.seek lower) :
    root.seek (last.1+1) = (root.seek lower).filter fun entry => last.1+1 ≤ entry.1 := by
  obtain ⟨-,hlower⟩ := mem_filter.mp h
  rw [decide_eq_true_eq] at hlower
  rw [GraphRoots.seek,GraphRoots.seek,filter_filter]
  refine filter_congr fun entry _ => ?_
  by_cases hentry : last.1+1 ≤ entry.1
  · have hle : lower ≤ entry.1 := by omega
    simp [hentry,hle]
  · simp [hentry]

theorem seek_behind_lt
    (h : last ∈ root.seek lower) : (root.seek (last.1+1)).length < (root.seek lower).length := by
  rw [seek_behind_filter h,length_filter_lt_length_iff_exists]
  exact ⟨last,h,by simp⟩

theorem seek_behind_eq {count : ℕ} (h : ((root.seek lower).take count).getLast? = some last) :
    (root.seek lower).drop count = root.seek (last.1+1) := by
  have hsplit : (root.seek lower).take count++(root.seek lower).drop count = root.seek lower :=
    take_append_drop ..
  have hsorted : (root.seek lower).Pairwise fun a b => a.1 < b.1 := root.rows.sorted.filter _
  obtain ⟨front,hfront⟩ := getLast?_eq_some_iff.mp h
  rw [← hsplit,hfront,append_assoc,singleton_append,pairwise_append] at hsorted
  obtain ⟨-,htail,hacross⟩ := hsorted
  have hsub : root.seek (last.1+1) =
      (root.seek lower).filter fun entry => last.1+1 ≤ entry.1 := seek_behind_filter
        (mem_of_mem_take (mem_of_getLast? h))
  have hwindow : ((root.seek lower).take count).filter (fun entry => last.1+1 ≤ entry.1) = [] := by
    apply filter_eq_nil_iff.mpr
    intro entry hentry
    rw [hfront] at hentry
    rw [decide_eq_true_eq]
    rcases mem_append.mp hentry with hmem | hmem
    · have := hacross entry hmem last (mem_cons_self ..)
      omega
    · rw [mem_singleton.mp hmem]
      omega
  have hrest : ((root.seek lower).drop count).filter (fun entry => last.1+1 ≤ entry.1) =
      (root.seek lower).drop count := by
    apply filter_eq_self.mpr
    intro entry hentry
    exact decide_eq_true ((pairwise_cons.mp htail).1 entry hentry)
  rw [hsub]
  conv_rhs => rw [← hsplit]
  rw [filter_append,hwindow,hrest,nil_append]

theorem rootSerialsInWindows_iff {manifest : List InventoryChange}
    {owner : ArtifactDescriptor} (hkeys : ∀ entry ∈ root.rows.entries,entry.1 < 2^128)
    {fuel : ℕ} (hfuel : (root.seek lower).length < fuel) :
    rootSerialsInWindows root manifest owner fuel lower = .ok () ↔
      ∀ entry ∈ root.seek lower,checkSerial manifest owner entry.2 = .ok () := by
  induction fuel generalizing lower with
  | zero => omega
  | succ fuel ih =>
    have hsplit : (root.seek lower).take inventoryMappingWindowRows++
        (root.seek lower).drop inventoryMappingWindowRows = root.seek lower :=
      take_append_drop ..
    have hwindow : checkSerials manifest owner
        (((root.seek lower).take inventoryMappingWindowRows).map Prod.snd) = .ok () ↔
          ∀ entry ∈ (root.seek lower).take inventoryMappingWindowRows,
            checkSerial manifest owner entry.2 = .ok () := by
      rw [checkSerials_iff,forall_mem_map]
    have hall : (∀ entry ∈ root.seek lower,checkSerial manifest owner entry.2 = .ok ()) ↔
        checkSerials manifest owner
          (((root.seek lower).take inventoryMappingWindowRows).map Prod.snd) = .ok () ∧
            ∀ entry ∈ (root.seek lower).drop inventoryMappingWindowRows,
              checkSerial manifest owner entry.2 = .ok () := by
      rw [hwindow,← forall_mem_append,hsplit]
    rw [rootSerialsInWindows,hall]
    cases hchecked : checkSerials manifest owner
        (((root.seek lower).take inventoryMappingWindowRows).map Prod.snd) with
    | error e => simp
    | ok u =>
      simp only [ok_bind,true_and]
      cases hlast : ((root.seek lower).take inventoryMappingWindowRows).getLast? with
      | none =>
        have hnil:=getLast?_eq_none_iff.mp hlast
        have hempty : root.seek lower = [] := by
          rcases take_eq_nil_iff.mp hnil with hzero | hempty
          · cases hzero
          · exact hempty
        simp only [hempty,drop_nil]
        exact iff_of_true rfl nofun
      | some last =>
        have hmem : last ∈ root.seek lower :=
          mem_of_mem_take (mem_of_getLast? hlast)
        -- behind the window lie the rows with keys above its last one
        have hbehind : (root.seek lower).drop inventoryMappingWindowRows =
            root.seek (last.1+1) := seek_behind_eq hlast
        dsimp only
        split_ifs with hdone
        · have hnone : (root.seek lower).drop inventoryMappingWindowRows = [] := by
            rcases hdone with hshort | hlarge
            · rw [length_take] at hshort
              exact drop_eq_nil_of_le (by omega)
            · rw [hbehind]
              apply filter_eq_nil_iff.mpr
              intro entry hentry
              have := hkeys entry hentry
              rw [decide_eq_true_eq]
              omega
          rw [hnone]
          exact iff_of_true rfl nofun
        · have hless:=seek_behind_lt hmem
          rw [hbehind]
          exact ih (by omega)

end Zeppelin.GraphStore.Inventory
