import Mathlib.Algebra.GroupWithZero.Nat
import Mathlib.Data.List.Sort
import Zeppelin.Machine.Except

/-! property_graph/storage/reclaim.rs -/

namespace Zeppelin.Reclaim

def spillChunkLimit : ℕ := 256
def mergeFanIn : ℕ := 8
def maxRunLevels : ℕ := 64

inductive ReclaimError where
  | memory
  | work
  | missingPage
  | pageHeader
  | leafOrder
  | leafGeometry
  | leafHeight
  | indexFanIn
  | indexChild
  | indexChildOrder
  | indexGeometry
  | childHeight
  | cycle
  | notSorted
  | countOrDigest
  | emptyRun
  | missingRoot
  | completed
  deriving DecidableEq

structure SpillBinding where
  store : ℕ
  session : ℕ
  captureGeneration : ℕ
  targetGeneration : ℕ
  sequence : ℕ
  serialFence : ℕ
  deriving DecidableEq

structure DurableRun where
  root : ℕ
  count : ℕ
  digest : ℕ
  first : ℕ
  last : ℕ
  binding : SpillBinding
  height : ℕ
  deriving DecidableEq

inductive PageBody where
  | leaf (ids : List ℕ) (ordinal total digest : ℕ)
  | index (height count digest : ℕ) (children : List DurableRun)
  deriving DecidableEq

structure Page where
  binding : SpillBinding
  body : PageBody
  deriving DecidableEq

abbrev Pages := List Page

structure Digests where
  ids : List ℕ → ℕ
  children : List (ℕ × ℕ) → ℕ

def addCount (a b : ℕ) : Except ReclaimError ℕ :=
  if a+b < 2^64 then .ok (a+b) else .error .work

def isAscending (ids : List ℕ) : Bool := ids.Pairwise (· < ·)

def encodeLeaf (binding : SpillBinding) (ids : List ℕ) (ordinal total digest : ℕ) :
    Except ReclaimError Page :=
  if ids.isEmpty ∨ ids.length > spillChunkLimit ∨ ¬ isAscending ids then .error .leafOrder
  else .ok ⟨binding,.leaf ids ordinal total digest⟩

def firstId (ids : List ℕ) : Except ReclaimError ℕ :=
  match ids.head? with
  | some id => .ok id
  | none => .error .emptyRun

def lastId (ids : List ℕ) : Except ReclaimError ℕ :=
  match ids.getLast? with
  | some id => .ok id
  | none => .error .emptyRun

/-- `write_single_run` and `child_for_leaf`: the run of one leaf. -/
def leafRun (digests : Digests) (binding : SpillBinding) (root : ℕ) (ids : List ℕ) :
    Except ReclaimError DurableRun := do
  let first ← firstId ids
  let last ← lastId ids
  return ⟨root,ids.length,digests.ids ids,first,last,binding,0⟩

def writeSingleRun (digests : Digests) (binding : SpillBinding) (pages : Pages) (ids : List ℕ) :
    Except ReclaimError (DurableRun × Pages) := do
  let run ← leafRun digests binding pages.length ids
  let page ← encodeLeaf binding ids 0 ids.length (digests.ids ids)
  return (run,pages++[page])

def checkChildren (binding : SpillBinding) (height : ℕ) :
    Option ℕ → ℕ → List DurableRun → Except ReclaimError ℕ
  | _,count,[] => .ok count
  | previous,count,child::children =>
    if child.binding ≠ binding ∨ child.height+1 ≠ height ∨
        (previous.any fun last => last ≥ child.first) then .error .indexChildOrder
    else do
      let total ← addCount count child.count
      checkChildren binding height (some child.last) total children

def writeIndex (digests : Digests) (binding : SpillBinding) (pages : Pages)
    (children : List DurableRun) : Except ReclaimError (DurableRun × Pages) :=
  if children.length = 0 ∨ children.length > mergeFanIn then .error .indexFanIn
  else
    match children.head?,children.getLast? with
    | some first,some last => do
      let count ← checkChildren binding (first.height+1) none 0 children
      let digest:=digests.children (children.map fun child => (child.digest,child.count))
      return (⟨pages.length,count,digest,first.first,last.last,binding,first.height+1⟩,
        pages++[⟨binding,.index (first.height+1) count digest children⟩])
    | _,_ => .error .indexChild

/-- `RunTreeBuilder`: the open children of each level, from the leaves up. -/
abbrev BuildLevels := List (List DurableRun)

def pushAt (digests : Digests) (binding : SpillBinding) :
    BuildLevels → DurableRun → Pages → Except ReclaimError (BuildLevels × Pages)
  | [],_,_ => .error .work
  | slot::levels,child,pages =>
    if (slot++[child]).length < mergeFanIn then .ok ((slot++[child])::levels,pages)
    else do
      let (parent,pages) ← writeIndex digests binding pages (slot++[child])
      let (levels,pages) ← pushAt digests binding levels parent pages
      return ([]::levels,pages)

/-- The fuel is the number of levels; the last one is the top. -/
def finishFrom (digests : Digests) (binding : SpillBinding) :
    ℕ → BuildLevels → Pages → Except ReclaimError (DurableRun × Pages)
  | 0,_,_ => .error .work
  | _+1,[],_ => .error .work
  | _+1,[top],pages =>
    match top with
    | [root] => .ok (root,pages)
    | _ => .error .work
  | fuel+1,slot::levels,pages =>
    match slot with
    | [] => finishFrom digests binding fuel levels pages
    | child::others =>
      if others = [] ∧ levels.all List.isEmpty then .ok (child,pages)
      else do
        let (parent,pages) ← writeIndex digests binding pages (child::others)
        let (levels,pages) ← pushAt digests binding levels parent pages
        finishFrom digests binding fuel levels pages

def emptyLevels : BuildLevels := List.replicate maxRunLevels []

structure CursorFrame where
  reference : ℕ
  nextChild : ℕ
  height : ℕ
  deriving DecidableEq

/-- `DurableRunReader`. The innermost frame comes first, and the stream that was hashed so far
stands for the state of the hash. -/
structure Reader where
  run : DurableRun
  page : Option Page
  frames : List CursorFrame
  leaf : Bool
  leafIndex : ℕ
  leafCount : ℕ
  expectedOrdinal : ℕ
  emitted : ℕ
  previous : Option ℕ
  hash : List ℕ
  done : Bool
  deriving DecidableEq

def Reader.new (run : DurableRun) : Reader :=
  ⟨run,none,[⟨run.root,0,run.height⟩],false,0,0,0,0,none,[],false⟩

def readPage (pages : Pages) (reference : ℕ) : Except ReclaimError Page :=
  match pages[reference]? with
  | some page => .ok page
  | none => .error .missingPage

def validatePrefix (page : Page) (binding : SpillBinding) : Except ReclaimError Unit :=
  failIf (page.binding ≠ binding) .pageHeader

def validateLeafHeader (page : Page) (ordinal : ℕ) (run : DurableRun) :
    Except ReclaimError (List ℕ) :=
  match page.body with
  | .index .. => .error .leafGeometry
  | .leaf ids storedOrdinal total digest =>
    if page.binding ≠ run.binding then .error .pageHeader
    else if ids.length = 0 ∨ ids.length > spillChunkLimit ∨ total ≠ run.count ∨
        digest ≠ run.digest ∨ storedOrdinal ≠ ordinal then .error .leafGeometry
    else .ok ids

def decodeChild (height : ℕ) (children : List DurableRun) (index : ℕ) :
    Except ReclaimError DurableRun :=
  if children.length = 0 ∨ children.length > mergeFanIn then .error .indexGeometry
  else
    match children[index]? with
    | none => .error .indexGeometry
    | some child => if height = 0 then .error .childHeight
      else .ok { child with height := height-1 }

/-- The page below the innermost frame: a leaf is opened, an index page is left when its
children are read, or the next of them is entered. -/
def descend (pages : Pages) (reader : Reader) (frame : CursorFrame) (rest : List CursorFrame) :
    Except ReclaimError Reader := do
  let page ← readPage pages frame.reference
  validatePrefix page reader.run.binding
  match page.body with
  | .leaf .. => do
    failIf (frame.height ≠ 0) .leafHeight
    let ids ← validateLeafHeader page reader.expectedOrdinal reader.run
    let ordinal ← addCount reader.expectedOrdinal 1
    return { reader with
      page := some page,frames := rest,leaf := true,leafIndex := 0,leafCount := ids.length,
      expectedOrdinal := ordinal }
  | .index height _ _ children =>
    if children.length = 0 ∨ children.length > mergeFanIn ∨ height ≠ frame.height ∨
        frame.nextChild > children.length then .error .indexGeometry
    else if frame.nextChild = children.length then
      .ok { reader with page := some page,frames := rest }
    else do
      let child ← decodeChild height children frame.nextChild
      let frames:={ frame with nextChild := frame.nextChild+1 }::rest
      failIf (child.height+1 ≠ height ∨ frames.length = maxRunLevels) .childHeight
      failIf (frames.any fun ancestor => ancestor.reference = child.root) .cycle
      return { reader with page := some page,frames := ⟨child.root,0,child.height⟩::frames }

def takeId (reader : Reader) : Except ReclaimError (ℕ × Reader) :=
  match reader.page with
  | none => .error .leafGeometry
  | some page => do
    let ids ← validateLeafHeader page (reader.expectedOrdinal-1) reader.run
    match ids[reader.leafIndex]? with
    | none => .error .leafGeometry
    | some id => do
      failIf (reader.previous.any fun previous => previous ≥ id) .notSorted
      let emitted ← addCount reader.emitted 1
      return (id,{ reader with
        previous := some id,hash := reader.hash++[id],emitted := emitted,
        leafIndex := reader.leafIndex+1 })

/-- The loops of `next` and `descend_next`. -/
def nextFrom (digests : Digests) (pages : Pages) :
    ℕ → Reader → Except ReclaimError (Option ℕ × Reader)
  | 0,_ => .error .work
  | fuel+1,reader =>
    if reader.leaf then
      if reader.leafIndex < reader.leafCount then do
        let (id,reader) ← takeId reader
        return (some id,reader)
      else nextFrom digests pages fuel { reader with leaf := false }
    else
      match reader.frames with
      | [] =>
        if reader.emitted ≠ reader.run.count ∨ digests.ids reader.hash ≠ reader.run.digest then
          .error .countOrDigest
        else .ok (none,{ reader with done := true })
      | frame::rest => do
        let reader ← descend pages reader frame rest
        nextFrom digests pages fuel reader

/-- Between two identities a reader leaves at most as many frames as there are levels and
enters as many, so this is enough fuel for every run. -/
def nextFuel : ℕ := 4*maxRunLevels

def Reader.next (digests : Digests) (pages : Pages) (reader : Reader) :
    Except ReclaimError (Option ℕ × Reader) :=
  if reader.done then .ok (none,reader) else nextFrom digests pages nextFuel reader

/-- All that is left of a run; the fuel bounds the calls. -/
def readFrom (digests : Digests) (pages : Pages) : ℕ → Reader → Except ReclaimError (List ℕ)
  | 0,_ => .error .work
  | fuel+1,reader => do
    let (id,reader) ← reader.next digests pages
    match id with
    | none => return []
    | some id => do
      let rest ← readFrom digests pages fuel reader
      return id::rest

def readRun (digests : Digests) (pages : Pages) (run : DurableRun) :
    Except ReclaimError (List ℕ) :=
  readFrom digests pages (run.count+1) (Reader.new run)

/-- The bisection of a leaf; its length is enough fuel. -/
def searchLeaf (ids : List ℕ) (artifact : ℕ) : ℕ → ℕ → ℕ → Except ReclaimError Bool
  | 0,_,_ => .ok false
  | fuel+1,low,high =>
    if low < high then
      match ids[low+(high-low) / 2]? with
      | none => .error .leafGeometry
      | some id =>
        if id = artifact then .ok true
        else if id < artifact then searchLeaf ids artifact fuel (low+(high-low) / 2+1) high
        else searchLeaf ids artifact fuel low (low+(high-low) / 2)
    else .ok false

def childFor (height : ℕ) (children : List DurableRun) (artifact : ℕ) :
    ℕ → Except ReclaimError (Option DurableRun)
  | 0 => .ok none
  | left+1 => do
    let child ← decodeChild height children (children.length-(left+1))
    failIf (child.height+1 ≠ height) .childHeight
    if child.first ≤ artifact ∧ artifact ≤ child.last then return some child
    else childFor height children artifact left

def containsFrom (pages : Pages) (binding : SpillBinding) (artifact : ℕ) :
    ℕ → ℕ → ℕ → Except ReclaimError Bool
  | 0,_,_ => .error .childHeight
  | fuel+1,reference,height => do
    let page ← readPage pages reference
    validatePrefix page binding
    match page.body with
    | .leaf ids .. =>
      if height ≠ 0 ∨ ids.length = 0 ∨ ids.length > spillChunkLimit then .error .leafGeometry
      else searchLeaf ids artifact ids.length 0 ids.length
    | .index stored _ _ children =>
      if stored ≠ height ∨ height = 0 then .error .indexGeometry
      else do
        let child ← childFor height children artifact children.length
        match child with
        | none => return false
        | some child => containsFrom pages binding artifact fuel child.root child.height

def contains (pages : Pages) (run : DurableRun) (artifact : ℕ) : Except ReclaimError Bool :=
  if artifact < run.first ∨ artifact > run.last then .ok false
  else containsFrom pages run.binding artifact (maxRunLevels+1) run.root run.height

structure MergeReader where
  left : Reader
  right : Reader
  leftNext : Option ℕ
  rightNext : Option ℕ
  deriving DecidableEq

def MergeReader.new (left right : DurableRun) : MergeReader :=
  ⟨Reader.new left,Reader.new right,none,none⟩

def holdNext (digests : Digests) (pages : Pages) (held : Option ℕ) (reader : Reader) :
    Except ReclaimError (Option ℕ × Reader) :=
  match held with
  | some id => .ok (some id,reader)
  | none => reader.next digests pages

def MergeReader.next (digests : Digests) (pages : Pages) (reader : MergeReader) :
    Except ReclaimError (Option ℕ × MergeReader) := do
  let (leftNext,left) ← holdNext digests pages reader.leftNext reader.left
  let (rightNext,right) ← holdNext digests pages reader.rightNext reader.right
  match leftNext,rightNext with
  | none,none => return (none,⟨left,right,none,none⟩)
  | some id,none => return (some id,⟨left,right,none,none⟩)
  | none,some id => return (some id,⟨left,right,none,none⟩)
  | some a,some b =>
    if a < b then return (some a,⟨left,right,none,some b⟩)
    else if b < a then return (some b,⟨left,right,some a,none⟩)
    else return (some a,⟨left,right,none,none⟩)

/-- Up to `limit` identities of the merged stream. -/
def fillChunk (digests : Digests) (pages : Pages) :
    ℕ → MergeReader → Except ReclaimError (List ℕ × MergeReader)
  | 0,reader => .ok ([],reader)
  | limit+1,reader => do
    let (id,reader) ← reader.next digests pages
    match id with
    | none => return ([],reader)
    | some id => do
      let (rest,reader) ← fillChunk digests pages limit reader
      return (id::rest,reader)

def writeLeaves (digests : Digests) (binding : SpillBinding) (count digest : ℕ) :
    ℕ → ℕ → MergeReader → BuildLevels → Pages → Except ReclaimError (BuildLevels × Pages)
  | 0,_,_,_,_ => .error .work
  | fuel+1,ordinal,reader,levels,pages => do
    let (chunk,reader) ← fillChunk digests pages spillChunkLimit reader
    if chunk.isEmpty then return (levels,pages)
    else do
      let page ← encodeLeaf binding chunk ordinal count digest
      let child ← leafRun digests binding pages.length chunk
      let (levels,pages) ← pushAt digests binding levels child (pages++[page])
      let ordinal ← addCount ordinal 1
      writeLeaves digests binding count digest fuel ordinal reader levels pages

def mergeRuns (digests : Digests) (binding : SpillBinding) (left right : DurableRun)
    (pages : Pages) : Except ReclaimError (DurableRun × Pages) := do
  let (ids,_) ← fillChunk digests pages (left.count+right.count+1) (MergeReader.new left right)
  let count ← addCount ids.length 0
  let first ← firstId ids
  let last ← lastId ids
  let (levels,pages) ← writeLeaves digests binding count (digests.ids ids)
    (left.count+right.count+1) 0 (MergeReader.new left right) emptyLevels pages
  let (run,pages) ← finishFrom digests binding maxRunLevels levels pages
  return ({ run with count := count,digest := digests.ids ids,first := first,last := last },
    pages)

structure SpillMark where
  chunk : List ℕ
  levels : List (Option DurableRun)
  binding : SpillBinding
  requestedChunk : ℕ
  complete : Bool
  deriving DecidableEq

def SpillMark.new (binding : SpillBinding) (requestedChunk : ℕ) : Except ReclaimError SpillMark :=
  if requestedChunk = 0 ∨ requestedChunk > spillChunkLimit then .error .memory
  else .ok ⟨[],List.replicate maxRunLevels none,binding,requestedChunk,false⟩

def dedup : List ℕ → List ℕ
  | [] => []
  | [id] => [id]
  | a::b::ids => if a = b then dedup (b::ids) else a::dedup (b::ids)

def sortDedup (ids : List ℕ) : List ℕ := dedup (ids.insertionSort (· ≤ ·))

def carry (digests : Digests) (binding : SpillBinding) :
    List (Option DurableRun) → DurableRun → Pages →
      Except ReclaimError (List (Option DurableRun) × Pages)
  | [],_,_ => .error .work
  | none::levels,run,pages => .ok (some run::levels,pages)
  | some previous::levels,run,pages => do
    let (merged,pages) ← mergeRuns digests binding previous run pages
    let (levels,pages) ← carry digests binding levels merged pages
    return (none::levels,pages)

def flushChunk (digests : Digests) (mark : SpillMark) (pages : Pages) :
    Except ReclaimError (SpillMark × Pages) := do
  let (run,pages) ← writeSingleRun digests mark.binding pages (sortDedup mark.chunk)
  let (levels,pages) ← carry digests mark.binding mark.levels run pages
  return ({ mark with chunk := [],levels := levels },pages)

def settle (digests : Digests) (mark : SpillMark) (pages : Pages) :
    Except ReclaimError (SpillMark × Pages) :=
  if mark.chunk.length = mark.requestedChunk then
    if (sortDedup mark.chunk).length = mark.requestedChunk then
      flushChunk digests { mark with chunk := sortDedup mark.chunk } pages
    else .ok ({ mark with chunk := sortDedup mark.chunk },pages)
  else .ok (mark,pages)

def emit (digests : Digests) (mark : SpillMark) (pages : Pages) (artifact : ℕ) :
    Except ReclaimError (SpillMark × Pages) :=
  if mark.complete then .error .completed
  else if mark.chunk.getLast? = some artifact then .ok (mark,pages)
  else settle digests { mark with chunk := mark.chunk++[artifact] } pages

def emitAll (digests : Digests) :
    SpillMark → Pages → List ℕ → Except ReclaimError (SpillMark × Pages)
  | mark,pages,[] => .ok (mark,pages)
  | mark,pages,artifact::artifacts => do
    let (mark,pages) ← emit digests mark pages artifact
    emitAll digests mark pages artifacts

def mergeLevels (digests : Digests) (binding : SpillBinding) :
    Option DurableRun → List (Option DurableRun) → Pages →
      Except ReclaimError (Option DurableRun × Pages)
  | output,[],pages => .ok (output,pages)
  | output,none::levels,pages => mergeLevels digests binding output levels pages
  | none,some run::levels,pages => mergeLevels digests binding (some run) levels pages
  | some previous,some run::levels,pages => do
    let (merged,pages) ← mergeRuns digests binding previous run pages
    mergeLevels digests binding (some merged) levels pages

def flushLast (digests : Digests) (mark : SpillMark) (pages : Pages) :
    Except ReclaimError (SpillMark × Pages) :=
  if mark.chunk.isEmpty then .ok (mark,pages) else flushChunk digests mark pages

def finish (digests : Digests) (mark : SpillMark) (pages : Pages) :
    Except ReclaimError (Option DurableRun × Pages) := do
  failIf (mark.complete) .completed
  let (mark,pages) ← flushLast digests mark pages
  mergeLevels digests mark.binding none mark.levels pages

def markAll (digests : Digests) (binding : SpillBinding) (requestedChunk : ℕ) (pages : Pages)
    (artifacts : List ℕ) : Except ReclaimError (Option DurableRun × Pages) := do
  let mark ← SpillMark.new binding requestedChunk
  let (mark,pages) ← emitAll digests mark pages artifacts
  finish digests mark pages

end Zeppelin.Reclaim
