import Mathlib.Data.Prod.Lex
import Zeppelin.Collections.TopList
import Zeppelin.Fts.StreamSpec
import Zeppelin.Machine.Run

/-! fts/search.rs, fts/prune -/

namespace Zeppelin.Fts
open Collections Machine

structure GlobalDocId where
  segment : ℕ
  row : ℕ
  deriving DecidableEq

structure ScoredDoc (R : Type) where
  doc : GlobalDocId
  score : R
  deriving DecidableEq

structure LiveSegment where
  segment : SealedSegment
  live : Finset ℕ
  valid : segment.Valid

/-- Segments are numbered by a `u32`. -/
structure LexicalIndex where
  segments : List LiveSegment
  ordinals : segments.length ≤ 2^32

structure TermQuery where
  terms : List String
  fields : FieldWeights
  deriving DecidableEq

structure AllowLists (index : LexicalIndex) where
  lists : List (Finset ℕ)
  length_eq : lists.length = index.segments.length

def drain : ℕ → TermStream → List (ℕ × ℕ)
  | 0,_ => []
  | fuel+1,s =>
    match s.currentRow with
    | none => []
    | some row => (row,s.currentTf.getD 0)::drain fuel s.advance

def TermStream.postings (s : TermStream) : List (ℕ × ℕ) := drain (left s.runs+1) s

namespace LexicalIndex

def documentCount (index : LexicalIndex) : ℕ :=
  index.segments.foldl (fun total s => min (total+s.live.card) u64Max) 0

def totalTokens (index : LexicalIndex) : ℕ :=
  index.segments.foldl (fun total s => min (total+
    min (∑ row ∈ s.live,s.segment.totalLengths[row]?.getD 0) u64Max) u64Max) 0

def corpusStats (index : LexicalIndex) : Except Bm25Error CorpusStats :=
  CorpusStats.new index.documentCount index.totalTokens

def documentFrequency (index : LexicalIndex) (term : String) (fields : List FieldId) : ℕ :=
  index.segments.foldl (fun total s => min (total+
    ((s.segment.openStream term (fields.map fun field => (field,1000))).elim 0 fun stream =>
      (stream.postings.filter fun p => p.1 ∈ s.live).length)) u32Max) 0

end LexicalIndex

def TermQuery.frequency (query : TermQuery) (index : LexicalIndex) (term : String) : ℕ :=
  index.documentFrequency term (query.fields.map Prod.fst)

section Search
variable {R : Type} [AddCommGroup R] [LinearOrder R]

def rankKey (d : ScoredDoc R) : Rᵒᵈ ×ₗ ℕ ×ₗ ℕ :=
  toLex (OrderDual.toDual d.score,toLex (d.doc.segment,d.doc.row))

omit [AddCommGroup R] [LinearOrder R] in
theorem rankKey_injective : Function.Injective (rankKey : ScoredDoc R → _) := by
  rintro ⟨⟨segment,row⟩,score⟩ ⟨⟨segment',row'⟩,score'⟩ h
  simp only [rankKey,EmbeddingLike.apply_eq_iff_eq,Prod.mk.injEq] at h
  obtain ⟨rfl,rfl,rfl⟩ := h
  rfl

instance : LinearOrder (ScoredDoc R) := LinearOrder.lift' rankKey rankKey_injective

structure TopK (R : Type) where
  capacity : ℕ
  entries : List (ScoredDoc R)

namespace TopK

def new (capacity : ℕ) : TopK R := ⟨capacity,[]⟩

def offer (heap : TopK R) (d : ScoredDoc R) : TopK R :=
  { heap with entries := offerTop heap.capacity heap.entries d }

def isFull (heap : TopK R) : Bool := heap.capacity ≤ heap.entries.length

def threshold (heap : TopK R) : R :=
  if heap.entries.length < heap.capacity then 0
  else (heap.entries.getLast?.map ScoredDoc.score).getD 0

end TopK

def offerRow (segment : ℕ) (allowed : ℕ → Bool) (heap : TopK R) (row : ℕ) (score : R) : TopK R :=
  if allowed row then heap.offer ⟨⟨segment,row⟩,score⟩ else heap

def scoreRow (state : List R × List ℕ) (row : ℕ) (score : R) : List R × List ℕ :=
  match state.1[row]? with
  | none => state
  | some entry =>
    (state.1.set row (entry+score),if entry = 0 then state.2++[row] else state.2)

def openTerms (scorerFor : ℕ → CorpusStats → TermScorer R) (index : LexicalIndex) (stats : CorpusStats)
    (query : TermQuery) (segment : SealedSegment) : List (TermStream × TermScorer R) :=
  query.terms.filterMap fun term =>
    if query.frequency index term = 0 then none
    else (segment.openStream term query.fields).map fun stream =>
      (stream,scorerFor (query.frequency index term) stats)

def scoreSegment (segment : SealedSegment) (query : TermQuery) (allowed : ℕ → Bool)
    (terms : List (TermStream × TermScorer R)) : List R × List ℕ :=
  terms.foldl (fun state term => term.1.postings.foldl (fun state p =>
    if allowed p.1 then
      scoreRow state p.1 (term.2.score p.2 ((segment.weightedLengths query.fields)[p.1]?.getD 0))
    else state) state) (List.replicate segment.rowCount 0,[])

def segmentIndex (ordinal : ℕ) : ℕ := min ordinal u32Max

def touchedHits (ordinal : ℕ) (state : List R × List ℕ) : List (ScoredDoc R) :=
  (state.2.mergeSort (· ≤ ·)).dedup.map fun row =>
    ⟨⟨segmentIndex ordinal,row⟩,state.1[row]?.getD 0⟩

def allowedAt {index : LexicalIndex} (allow : Option (AllowLists index)) (ordinal row : ℕ) : Bool :=
  allow.all fun allow => allow.lists[ordinal]?.all fun list => row ∈ list

variable (scorerFor : ℕ → CorpusStats → TermScorer R)

/-- `search`, and with allow lists the posting-driven branch of `search_allow_list_driven`. -/
def search (index : LexicalIndex) (query : TermQuery) (k : ℕ) (allow : Option (AllowLists index)) :
    Except Bm25Error (List (ScoredDoc R)) := do
  let stats ← index.corpusStats
  return (((index.segments.zipIdx.flatMap fun entry => touchedHits entry.2
    (scoreSegment entry.1.segment query (allowedAt allow entry.2)
      (openTerms scorerFor index stats query entry.1.segment))).mergeSort (· ≤ ·)).take k)

structure TermCursor (R : Type) [Zero R] [LE R] where
  stream : TermStream
  scorer : TermScorer R
  upperBound : R

namespace TermCursor

def current (c : TermCursor R) : Option ℕ := c.stream.currentRow

def seek (row : ℕ) (c : TermCursor R) : TermCursor R := { c with stream := c.stream.seek row }

def advanceFrom (row : ℕ) (c : TermCursor R) : TermCursor R :=
  if c.current = some row then { c with stream := c.stream.advance } else c

def contribution (lengths : List ℕ) (row : ℕ) (c : TermCursor R) : R :=
  if c.current = some row then
    c.stream.currentTf.elim 0 fun tf => c.scorer.score tf (lengthOf lengths row)
  else 0

end TermCursor

def addTotal (row : ℕ) (score : R) : List (ℕ × R) → List (ℕ × R)
  | [] => [(row,score)]
  | (r,total)::rest =>
    if r = row then (r,total+score)::rest
    else if row < r then (row,score)::(r,total)::rest
    else (r,total)::addTotal row score rest

def scoreAll (lengths : List ℕ) (segment : ℕ) (allowed : ℕ → Bool) (cursors : List (TermCursor R))
    (heap : TopK R) : TopK R :=
  (cursors.foldl (fun totals c => c.stream.reset.postings.foldl (fun totals p =>
      addTotal p.1 (c.scorer.score p.2 (lengthOf lengths p.1)) totals) totals) []).foldl
    (fun heap total => offerRow segment allowed heap total.1 total.2) heap

def liveCursors (cursors : List (TermCursor R)) : List (ℕ × ℕ) :=
  (cursors.zipIdx.filterMap fun entry => entry.1.current.map fun row => (row,entry.2)).mergeSort
    fun a b => a.1 < b.1 || a.1 = b.1 && a.2 ≤ b.2

def boundAt (cursors : List (TermCursor R)) (slot : ℕ) : R :=
  (cursors[slot]?.map TermCursor.upperBound).getD 0

def findPivot (cursors : List (TermCursor R)) (full : Bool) (threshold : R) :
    ℕ → R → List (ℕ × ℕ) → Option (ℕ × R)
  | _,_,[] => none
  | position,accumulated,(_,slot)::rest =>
    if threshold < accumulated+boundAt cursors slot ∨ full = false then
      some (position,accumulated+boundAt cursors slot)
    else findPivot cursors full threshold (position+1) (accumulated+boundAt cursors slot) rest

def blockBoundAt (cursors : List (TermCursor R)) (slot : ℕ) : R :=
  (cursors[slot]?.map fun c => c.stream.blockBound c.scorer).getD 0

def condemnable (cursors : List (TermCursor R)) (threshold : R) (live : List (ℕ × ℕ))
    (position pivotRow : ℕ) (accumulated : R) : Bool :=
  accumulated+
      (((live.drop position).takeWhile fun entry => entry.1 = pivotRow).zipIdx.map fun entry =>
        blockBoundAt cursors entry.1.2-
          if entry.2 = 0 then boundAt cursors entry.1.2 else 0).sum+
      (((live.take position).reverse.takeWhile fun entry => entry.1 = pivotRow).map fun entry =>
        blockBoundAt cursors entry.2-boundAt cursors entry.2).sum ≤ threshold

def spanBound (cursors : List (TermCursor R)) (target : ℕ) : R :=
  (cursors.map fun c =>
    if c.stream.exhausted then 0 else c.stream.boundFor target c.scorer).sum

def spanEdge (cursors : List (TermCursor R)) (target : ℕ) : Option ℕ :=
  (cursors.map fun c =>
    if c.stream.exhausted then none else c.stream.boundHorizonFor target).foldl minRow none

/-- The first row that the block bounds do not condemn. -/
def condemn (cursors : List (TermCursor R)) (threshold : R) (target : ℕ) : ℕ :=
  if threshold < spanBound cursors target then target
  else match spanEdge cursors target with
    | none => target
    | some edge =>
      if min (edge+1) u32Max ≤ target then target
      else condemn cursors threshold (min (edge+1) u32Max)
termination_by u32Max-target

abbrev PruneState (R : Type) [Zero R] [LE R] := List (TermCursor R) × TopK R

section Segment
variable (lengths : List ℕ) (segment : ℕ) (allowed : ℕ → Bool)

def wandPivot (state : PruneState R) (position : ℕ) (accumulated : R) (pivotRow firstRow : ℕ) :
    PruneState R :=
  if state.2.isFull ∧ firstRow = pivotRow ∧ condemnable state.1 state.2.threshold
      (liveCursors state.1) position pivotRow accumulated ∧
      pivotRow < condemn state.1 state.2.threshold pivotRow then
    (state.1.map fun c =>
      if c.current.any fun row => row < condemn state.1 state.2.threshold pivotRow then
        c.seek (condemn state.1 state.2.threshold pivotRow)
      else c,state.2)
  else if firstRow = pivotRow then
    (state.1.map (TermCursor.advanceFrom pivotRow),offerRow segment allowed state.2 pivotRow
      (state.1.map (TermCursor.contribution lengths pivotRow)).sum)
  else (((liveCursors state.1).take (position+1)).foldl (fun cursors entry =>
    if pivotRow ≤ entry.1 then cursors
    else cursors.modify entry.2 (TermCursor.seek pivotRow)) state.1,state.2)

def wandStep (state : PruneState R) : Flow (PruneState R) :=
  match findPivot state.1 state.2.isFull state.2.threshold 0 0 (liveCursors state.1) with
  | none => .stop state
  | some (position,accumulated) =>
    match (liveCursors state.1)[position]?,(liveCursors state.1).head? with
    | some pivot,some first =>
      .next (wandPivot lengths segment allowed state position accumulated pivot.1 first.1)
    | _,_ => .stop state

def resetCursors (cursors : List (TermCursor R)) : List (TermCursor R) :=
  cursors.map fun c => { c with stream := c.stream.reset }

def boundOrder (cursors : List (TermCursor R)) : List ℕ :=
  (List.range cursors.length).mergeSort fun a b => boundAt cursors a ≤ boundAt cursors b

def essential (cursors : List (TermCursor R)) (full : Bool) (threshold : R) :
    R → List ℕ → List ℕ
  | _,[] => []
  | accumulated,slot::rest =>
    if full = true ∧ accumulated+boundAt cursors slot ≤ threshold then
      essential cursors full threshold (accumulated+boundAt cursors slot) rest
    else slot::rest

def nextCandidate (cursors : List (TermCursor R)) (slots : List ℕ) : Option ℕ :=
  (slots.map fun slot => cursors[slot]?.bind TermCursor.current).foldl minRow none

def probe (full : Bool) (threshold : R) (row : ℕ) :
    List ℕ → List (TermCursor R) → List R → R → R → List (TermCursor R) × Option (List R)
  | [],cursors,contributions,_,_ => (cursors,some contributions)
  | slot::slots,cursors,contributions,running,remaining =>
    match cursors[slot]? with
    | none => probe full threshold row slots cursors contributions running remaining
    | some c =>
      if full = true ∧ c.current ≠ some row ∧
          running+c.stream.boundFor row c.scorer+(remaining-c.upperBound) < threshold then
        (cursors,none)
      else if running+(c.seek row).contribution lengths row+(remaining-c.upperBound) <
          threshold ∧ full = true then
        (cursors.set slot (c.seek row),none)
      else probe full threshold row slots (cursors.set slot (c.seek row))
        (contributions.set slot ((c.seek row).contribution lengths row))
        (running+(c.seek row).contribution lengths row) (remaining-c.upperBound)

def maxscoreRow (order : List ℕ) (totalBound : R) (state : PruneState R) (row : ℕ) : PruneState R :=
  match probe lengths state.2.isFull state.2.threshold row order.reverse state.1
      (List.replicate state.1.length 0) 0 totalBound with
  | (cursors,contributions) => (cursors.map (TermCursor.advanceFrom row),
      contributions.elim state.2 fun contributions =>
        offerRow segment allowed state.2 row contributions.sum)

def maxscoreStep (order : List ℕ) (totalBound : R) (state : PruneState R) : Flow (PruneState R) :=
  match nextCandidate state.1
      (essential state.1 state.2.isFull state.2.threshold 0 order) with
  | none => .stop state
  | some row =>
    if (maxscoreRow lengths segment allowed order totalBound state row).1.all
        fun c => c.stream.exhausted then
      .stop (maxscoreRow lengths segment allowed order totalBound state row)
    else .next (maxscoreRow lengths segment allowed order totalBound state row)

def cursorsLeft (cursors : List (TermCursor R)) : ℕ := (cursors.map fun c => left c.stream.runs).sum

def wand (cursors : List (TermCursor R)) (heap : TopK R) : Option (TopK R) :=
  (loop (wandStep lengths segment allowed) (cursorsLeft (resetCursors cursors)+1)
    (resetCursors cursors,heap)).map Prod.snd

def maxscore (cursors : List (TermCursor R)) (heap : TopK R) : Option (TopK R) :=
  (loop (maxscoreStep lengths segment allowed (boundOrder cursors)
      ((boundOrder cursors).map (boundAt cursors)).sum)
    (cursorsLeft (resetCursors cursors)+1) (resetCursors cursors,heap)).map Prod.snd

end Segment

inductive Strategy where
  | exhaustive
  | blockMaxWand
  | blockMaxMaxscore
  deriving DecidableEq

def selectStrategy (termCount : ℕ) : Strategy :=
  if 4 ≤ termCount then .blockMaxWand else .blockMaxMaxscore

def shortListPostings : ℕ := 64

def openCursors (terms : List (TermStream × TermScorer R)) : List (TermCursor R) :=
  (terms.filter fun term => !term.1.exhausted).map fun term =>
    ⟨term.1,term.2,term.1.upperBound term.2⟩

def pruneSegment (strategy : Strategy) (lengths : List ℕ) (ordinal : ℕ) (allowed : ℕ → Bool)
    (cursors : List (TermCursor R)) (heap : TopK R) : Option (TopK R) :=
  if cursors.isEmpty then some heap
  else if (cursors.map fun c => c.stream.postingCount).sum ≤ shortListPostings then
    some (scoreAll lengths (segmentIndex ordinal) allowed cursors heap)
  else match strategy with
    | .exhaustive => some heap
    | .blockMaxWand => wand lengths (segmentIndex ordinal) allowed cursors heap
    | .blockMaxMaxscore => maxscore lengths (segmentIndex ordinal) allowed cursors heap

/-- A loop that has not ended counts as an error of its own. -/
inductive SearchError where
  | stats (error : Bm25Error)
  | unfinished
  deriving DecidableEq

def searchPruned (index : LexicalIndex) (query : TermQuery) (k : ℕ) (strategy : Strategy)
    (allow : Option (AllowLists index)) : Except SearchError (List (ScoredDoc R)) :=
  if strategy = .exhaustive then (search scorerFor index query k allow).mapError .stats
  else match index.corpusStats with
  | .error error => .error (.stats error)
  | .ok stats =>
    match index.segments.zipIdx.foldlM (fun heap entry =>
        pruneSegment strategy (entry.1.segment.weightedLengths query.fields) entry.2
          (allowedAt allow entry.2)
          (openCursors (openTerms scorerFor index stats query entry.1.segment)) heap)
        (TopK.new (max k 1)) with
    | none => .error .unfinished
    | some heap => .ok heap.entries

end Search

end Zeppelin.Fts
