import Mathlib.Algebra.Order.BigOperators.Group.List
import Mathlib.Data.List.Sort
import Mathlib.Data.String.Basic
import Zeppelin.Bytes.LittleEndian

/-! fts/index.rs, fts/postings.rs -/

namespace Zeppelin.Fts
open List

structure Posting where
  docid : ℕ
  tf : ℕ
  positions : List U32
  deriving DecidableEq

inductive PostingsError where
  | docidsNotAscending (docid : ℕ)
  | positionsNotAscending (position : U32)
  | zeroTermFrequency
  deriving DecidableEq

abbrev PostingList := List Posting

def validatePositions : List U32 → Except PostingsError Unit
  | a::b::rest =>
    if b ≤ a then .error (.positionsNotAscending b) else validatePositions (b::rest)
  | _ => .ok ()

def pushPosting (list : PostingList) (posting : Posting) : Except PostingsError PostingList :=
  if posting.tf = 0 ∨ posting.positions = [] then .error .zeroTermFrequency
  else if list.getLast?.any fun last => posting.docid ≤ last.docid then
    .error (.docidsNotAscending posting.docid)
  else do
    validatePositions posting.positions
    return list++[posting]

def insertPosting (list : PostingList) (posting : Posting) : Except PostingsError PostingList :=
  if posting.tf = 0 ∨ posting.positions = [] then .error .zeroTermFrequency
  else
    let index:=(list.takeWhile fun existing => existing.docid < posting.docid).length
    if list[index]?.any fun existing => existing.docid = posting.docid then
      .error (.docidsNotAscending posting.docid)
    else do
      validatePositions posting.positions
      return list.take index++posting::list.drop index

def removePosting (list : PostingList) (docid : ℕ) : Option PostingList :=
  if list.any fun posting => posting.docid = docid then
    some (list.eraseP fun posting => posting.docid = docid)
  else none

abbrev FieldId := U16

def defaultField : FieldId := 0

structure TermKey where
  term : String
  field : FieldId
  deriving DecidableEq

inductive IndexError where
  | postings (error : PostingsError)
  | replacedRowOutOfRange (row rowCount : ℕ)
  | replacedPostingMissing (row : ℕ)
  deriving DecidableEq

def PostingsError.message : PostingsError → String
  | .docidsNotAscending docid => "document ids are not ascending at "++toString docid
  | .positionsNotAscending position => "positions are not ascending at "++toString position.toNat
  | .zeroTermFrequency => "a posting had a zero term frequency"

def IndexError.message : IndexError → String
  | .postings error => "postings rejected: "++error.message
  | .replacedRowOutOfRange row rowCount => "replaced lexical row "++toString row++
      " is outside the segment's "++toString rowCount++" rows"
  | .replacedPostingMissing row => "replaced lexical row "++toString row++
      " has no posting for a term of its previous document"

structure Document where
  fields : List (FieldId × String)
  deriving DecidableEq

def Document.new : Document := ⟨[]⟩

def Document.withText (text : String) : Document := ⟨[(defaultField,text)]⟩

structure Token where
  term : String
  position : U32
  deriving DecidableEq

structure SegmentIndex where
  terms : List (TermKey × ℕ)
  lists : List PostingList
  lengths : List (FieldId × List U32)
  rowCount : ℕ
  freeSlots : List ℕ
  deriving DecidableEq

inductive Placement where
  | append
  | insert
  deriving DecidableEq

def place : Placement → PostingList → Posting → Except PostingsError PostingList
  | .append => pushPosting
  | .insert => insertPosting

def distinctTerms (tokens : List Token) : List String :=
  (tokens.map Token.term).dedup.mergeSort

def termPositions (tokens : List Token) (term : String) : List U32 :=
  ((tokens.filter fun token => token.term = term).map Token.position).dedup.mergeSort
    fun a b => a ≤ b

def termGroups (tokens : List Token) : List (String × List U32) :=
  (distinctTerms tokens).map fun term => (term,termPositions tokens term)

/-- Stacked variants share a position, so positions are counted, not tokens. -/
def analyzedLength (tokens : List Token) : U32 :=
  match (tokens.map fun token => token.position.toNat).max? with
  | none => 0
  | some highest => saturatingAdd (BitVec.ofNat 32 highest) 1

def resize (n : ℕ) (lengths : List U32) : List U32 :=
  (lengths++List.replicate (n-lengths.length) 0).take n

def setLength (row : ℕ) (length : U32) (lengths : List U32) : List U32 :=
  if row < lengths.length then lengths.set row length else resize row lengths++[length]

def insertField (field : FieldId) : List (FieldId × List U32) → List (FieldId × List U32)
  | [] => [(field,[])]
  | entry::entries =>
    if entry.1 > field then (field,[])::entry::entries
    else entry::insertField field entries

def SegmentIndex.setFieldLength (index : SegmentIndex) (row : ℕ) (field : FieldId) (length : U32) :
    SegmentIndex :=
  let lengths:=if index.lengths.any fun entry => entry.1 = field then index.lengths
    else insertField field index.lengths
  { index with lengths := lengths.map fun entry =>
      if entry.1 = field then (entry.1,setLength row length entry.2) else entry }

def SegmentIndex.padLengthsTo (index : SegmentIndex) (rows : ℕ) : SegmentIndex :=
  { index with lengths := index.lengths.map fun entry => (entry.1,resize rows entry.2) }

def SegmentIndex.clearLengths (index : SegmentIndex) (row : ℕ) : SegmentIndex :=
  { index with lengths := index.lengths.map fun entry => (entry.1,entry.2.set row 0) }

namespace SegmentIndex

def new : SegmentIndex := ⟨[],[],[],0,[]⟩

def postingList (index : SegmentIndex) (term : String) (field : FieldId) : Option PostingList := do
  let slot ← index.terms.lookup ⟨term,field⟩
  index.lists[slot]?

def liftPostings {α : Type} : Except PostingsError α → Except IndexError α
  | .error e => .error (.postings e)
  | .ok a => .ok a

/-- A term new to the segment takes a freed slot before it grows `lists`. -/
def addTerm (index : SegmentIndex) (key : TermKey) (list : PostingList) : SegmentIndex :=
  match index.freeSlots with
  | slot::freeSlots =>
    if slot < index.lists.length then
      { index with terms := (key,slot)::index.terms,lists := index.lists.set slot list,freeSlots }
    else { index with
      terms := (key,index.lists.length)::index.terms,lists := index.lists++[list],freeSlots }
  | [] => { index with
      terms := (key,index.lists.length)::index.terms,lists := index.lists++[list] }

def addPosting (placement : Placement) (index : SegmentIndex) (key : TermKey) (posting : Posting) :
    Except IndexError SegmentIndex :=
  match index.terms.lookup key with
  | some slot =>
    match index.lists[slot]? with
    | none => .ok index
    | some list => do
      let list ← liftPostings (place placement list posting)
      return { index with lists := index.lists.set slot list }
  | none => do
    let list ← liftPostings (pushPosting [] posting)
    return index.addTerm key list

def posting (row : ℕ) (positions : List U32) : Posting :=
  ⟨row,min positions.length (2^32-1),positions⟩

def accumulate (index : SegmentIndex) (row : ℕ) (field : FieldId) (tokens : List Token)
    (placement : Placement) : Except IndexError SegmentIndex :=
  (termGroups tokens).foldlM
    (fun index group => index.addPosting placement ⟨group.1,field⟩ (posting row group.2))
    (index.setFieldLength row field (analyzedLength tokens))

/-- The row count saturates at the largest `u32`. -/
def finishRow (index : SegmentIndex) : SegmentIndex :=
  let rowCount:=min (index.rowCount+1) (2^32-1)
  { index with rowCount }.padLengthsTo rowCount

def dropPosting (row : ℕ) (index : SegmentIndex) (key : TermKey) : Except IndexError SegmentIndex :=
  match index.terms.lookup key with
  | none => .error (.replacedPostingMissing row)
  | some slot =>
    match index.lists[slot]? with
    | none => .error (.replacedPostingMissing row)
    | some list =>
      match removePosting list row with
      | none => .error (.replacedPostingMissing row)
      | some [] => .ok { index with
          terms := index.terms.filter fun entry => entry.1 ≠ key
          lists := index.lists.set slot []
          freeSlots := slot::index.freeSlots }
      | some list => .ok { index with lists := index.lists.set slot list }

section Analyzer
variable (analyze : String → List Token)

def pushDocument (index : SegmentIndex) (document : Document) : Except IndexError SegmentIndex := do
  let next ← document.fields.foldlM
    (fun next field => next.accumulate index.rowCount field.1 (analyze field.2) .append) index
  return next.finishRow

def removeFields (row : ℕ) (index : SegmentIndex) (document : Document) :
    Except IndexError SegmentIndex :=
  document.fields.foldlM (fun index field =>
    (distinctTerms (analyze field.2)).foldlM
      (fun index term => index.dropPosting row ⟨term,field.1⟩) index) index

def replaceDocument (index : SegmentIndex) (row : ℕ) (previous replacement : Document) :
    Except IndexError SegmentIndex :=
  if index.rowCount ≤ row then .error (.replacedRowOutOfRange row index.rowCount)
  else do
    let removed ← removeFields analyze row index previous
    let next ← replacement.fields.foldlM
      (fun next field => next.accumulate row field.1 (analyze field.2) .insert)
      (removed.clearLengths row)
    return next.padLengthsTo next.rowCount

end Analyzer

end SegmentIndex

/-! fts/sealed.rs, fts/postings.rs, fts/search.rs -/

def u16Max : ℕ := 2^16-1
def u32Max : ℕ := 2^32-1
def u64Max : ℕ := 2^64-1

structure BlockImpact where
  maxTf : ℕ
  minLen : ℕ
  deriving DecidableEq

structure Block where
  postings : List (ℕ × ℕ)
  lastDocid : ℕ
  impact : BlockImpact
  deriving DecidableEq

structure ListSpan where
  term : String
  field : FieldId
  blocks : List Block
  overall : BlockImpact
  deriving DecidableEq

structure SealedSegment where
  spans : List ListSpan
  lengths : List (FieldId × List ℕ)
  rowCount : ℕ
  deriving DecidableEq

def postingsPerBlock : ℕ := 64

/-- `slice::chunks`. -/
def chunksOf {α : Type} (size : ℕ) (xs : List α) : List (List α) :=
  if xs = [] ∨ size = 0 then [] else xs.take size::chunksOf size (xs.drop size)
termination_by xs.length
decreasing_by
  rename_i h
  have hne : xs.length ≠ 0 := fun hzero => h (.inl (length_eq_zero_iff.mp hzero))
  rw [length_drop]
  omega

/-- The impact pair of one chunk; a length that is missing counts as one. -/
def blockImpact (lengths : List ℕ) (chunk : List Posting) : BlockImpact where
  maxTf := chunk.foldl (fun most p => max most p.tf) 0
  minLen := min (chunk.foldl (fun least p => min least (lengths[p.docid]?.getD 1)) u32Max) u16Max

def sealBlock (lengths : List ℕ) (chunk : List Posting) : Block where
  postings := chunk.map fun p => (p.docid,p.tf)
  lastDocid := (chunk.getLast?.map Posting.docid).getD 0
  impact := blockImpact lengths chunk

def overallImpact (blocks : List Block) : BlockImpact where
  maxTf := blocks.foldl (fun most b => max most b.impact.maxTf) 0
  minLen := blocks.foldl (fun least b => min least b.impact.minLen) u16Max

def fieldLengths (lengths : List (FieldId × List ℕ)) (field : FieldId) : List ℕ :=
  (lengths.lookup field).getD []

def sealSpan (lengths : List (FieldId × List ℕ)) (key : TermKey) (list : PostingList) : ListSpan where
  term := key.term
  field := key.field
  blocks := (chunksOf postingsPerBlock list).map (sealBlock (fieldLengths lengths key.field))
  overall := overallImpact ((chunksOf postingsPerBlock list).map
    (sealBlock (fieldLengths lengths key.field)))

def TermKey.le (a b : TermKey) : Bool := a.term < b.term || a.term = b.term && a.field ≤ b.field

def SegmentIndex.postings (index : SegmentIndex) : List (TermKey × PostingList) :=
  (index.terms.mergeSort fun a b => a.1.le b.1).filterMap fun entry =>
    index.lists[entry.2]?.map fun list => (entry.1,list)

def SegmentIndex.natLengths (index : SegmentIndex) : List (FieldId × List ℕ) :=
  index.lengths.map fun entry => (entry.1,entry.2.map BitVec.toNat)

/-- `SealedSegment::seal`. -/
def sealSegment (index : SegmentIndex) : SealedSegment where
  spans := (index.postings.filter fun entry => !entry.2.isEmpty).map fun entry =>
    sealSpan index.natLengths entry.1 entry.2
  lengths := index.natLengths
  rowCount := index.rowCount

def fieldLength (lengths : List (FieldId × List ℕ)) (field : FieldId) (row : ℕ) : ℕ :=
  (fieldLengths lengths field)[row]?.getD 0

structure Block.Valid (lengths : List (FieldId × List ℕ)) (rowCount : ℕ) (field : FieldId)
    (b : Block) : Prop where
  last : b.postings.getLast?.map Prod.fst = some b.lastDocid
  row : ∀ p ∈ b.postings,p.1 < rowCount
  tf_pos : ∀ p ∈ b.postings,0 < p.2
  tf_le : ∀ p ∈ b.postings,p.2 ≤ b.impact.maxTf
  len_le : ∀ p ∈ b.postings,b.impact.minLen ≤ fieldLength lengths field p.1

structure ListSpan.Valid (lengths : List (FieldId × List ℕ)) (rowCount : ℕ) (span : ListSpan) :
    Prop where
  ascending : (span.blocks.flatMap Block.postings).Pairwise fun p q => p.1 < q.1
  block : ∀ b ∈ span.blocks,b.Valid lengths rowCount span.field
  overall_tf : ∀ b ∈ span.blocks,b.impact.maxTf ≤ span.overall.maxTf
  overall_len : ∀ b ∈ span.blocks,span.overall.minLen ≤ b.impact.minLen

structure SealedSegment.Valid (s : SealedSegment) : Prop where
  span : ∀ span ∈ s.spans,span.Valid s.lengths s.rowCount
  rows : s.rowCount ≤ u32Max

structure SealablePosting (lengths : List U32) (rowCount : ℕ) (p : Posting) : Prop where
  row : p.docid < rowCount
  tf_pos : 0 < p.tf
  length : p.docid < lengths.length

structure Sealable (index : SegmentIndex) : Prop where
  rows : index.rowCount ≤ u32Max
  ascending : ∀ entry ∈ index.terms,∀ list ∈ index.lists[entry.2]?,
    list.Pairwise fun p q => p.docid < q.docid
  posting : ∀ entry ∈ index.terms,∀ list ∈ index.lists[entry.2]?,∀ p ∈ list,
    ∃ lengths,index.lengths.lookup entry.1.field = some lengths ∧
      SealablePosting lengths index.rowCount p

section Chunks
variable {α : Type}

theorem chunksOf_flatten {size : ℕ} (hsize : size ≠ 0) (xs : List α) :
    (chunksOf size xs).flatten = xs := by
  fun_induction chunksOf size xs with
  | case1 xs h =>
    rcases h with h | h
    · rw [h]
      rfl
    · exact absurd h hsize
  | case2 xs h ih => rw [flatten_cons,ih,take_append_drop]

theorem chunksOf_ne_nil {size : ℕ} {xs chunk : List α} (h : chunk ∈ chunksOf size xs) :
    chunk ≠ [] := by
  fun_induction chunksOf size xs with
  | case1 xs h' => cases h
  | case2 xs h' ih =>
    rcases mem_cons.mp h with rfl | h
    · intro hnil
      rcases take_eq_nil_iff.mp hnil with hzero | hzero
      · exact h' (.inr hzero)
      · exact h' (.inl hzero)
    · exact ih h

end Chunks

theorem le_foldl_max {α : Type} (f : α → ℕ) (xs : List α) (start : ℕ) :
    start ≤ xs.foldl (fun most x => max most (f x)) start ∧
      ∀ x ∈ xs,f x ≤ xs.foldl (fun most x => max most (f x)) start := by
  induction xs generalizing start with
  | nil => exact ⟨le_rfl,fun x hx => nomatch hx⟩
  | cons y ys ih =>
    obtain ⟨hstart,hall⟩ := ih (max start (f y))
    refine ⟨le_trans (le_max_left _ _) hstart,?_⟩
    intro x hx
    rcases mem_cons.mp hx with rfl | hx
    · exact le_trans (le_max_right _ _) hstart
    · exact hall x hx

theorem foldl_min_le {α : Type} (f : α → ℕ) (xs : List α) (start : ℕ) :
    xs.foldl (fun least x => min least (f x)) start ≤ start ∧
      ∀ x ∈ xs,xs.foldl (fun least x => min least (f x)) start ≤ f x := by
  induction xs generalizing start with
  | nil => exact ⟨le_rfl,fun x hx => nomatch hx⟩
  | cons y ys ih =>
    obtain ⟨hstart,hall⟩ := ih (min start (f y))
    refine ⟨le_trans hstart (min_le_left _ _),?_⟩
    intro x hx
    rcases mem_cons.mp hx with rfl | hx
    · exact le_trans hstart (min_le_right _ _)
    · exact hall x hx

theorem lookup_map_snd {β γ : Type} (f : β → γ) (field : FieldId) (entries : List (FieldId × β)) :
    (entries.map fun entry => (entry.1,f entry.2)).lookup field = (entries.lookup field).map f := by
  induction entries with
  | nil => rfl
  | cons entry entries ih =>
    obtain ⟨key,value⟩ := entry
    simp only [map_cons,lookup_cons]
    cases field == key with
    | true => rfl
    | false => exact ih

theorem sealBlock_valid {lengths : List (FieldId × List ℕ)} {rowCount : ℕ} {field : FieldId}
    {chunk : List Posting} (hne : chunk ≠ [])
    (hposting : ∀ p ∈ chunk,p.docid < rowCount ∧ 0 < p.tf ∧
      p.docid < (fieldLengths lengths field).length) :
    (sealBlock (fieldLengths lengths field) chunk).Valid lengths rowCount field where
  last := by
    cases hlast : chunk.getLast? with
    | none => exact absurd (getLast?_eq_none_iff.mp hlast) hne
    | some last => simp [sealBlock,hlast]
  row := by
    intro p hp
    obtain ⟨posting,hmem,rfl⟩ := mem_map.mp hp
    exact (hposting posting hmem).1
  tf_pos := by
    intro p hp
    obtain ⟨posting,hmem,rfl⟩ := mem_map.mp hp
    exact (hposting posting hmem).2.1
  tf_le := by
    intro p hp
    obtain ⟨posting,hmem,rfl⟩ := mem_map.mp hp
    exact (le_foldl_max Posting.tf chunk 0).2 posting hmem
  len_le := by
    intro p hp
    obtain ⟨posting,hmem,rfl⟩ := mem_map.mp hp
    have hleast:=(foldl_min_le
      (fun p : Posting => (fieldLengths lengths field)[p.docid]?.getD 1) chunk u32Max).2
      posting hmem
    have hlength:=(hposting posting hmem).2.2
    rw [getElem?_eq_getElem hlength,Option.getD_some] at hleast
    rw [fieldLength,getElem?_eq_getElem hlength,Option.getD_some]
    exact le_trans (min_le_left _ _) hleast

theorem sealSegment_valid {index : SegmentIndex} (h : Sealable index) :
    (sealSegment index).Valid where
  rows := h.rows
  span := by
    intro span hspan
    obtain ⟨⟨key,list⟩,hentry,rfl⟩ := mem_map.mp hspan
    obtain ⟨entry,hterm,hlist⟩ := mem_filterMap.mp (mem_filter.mp hentry).1
    obtain ⟨list',hget,heq⟩ := Option.map_eq_some_iff.mp hlist
    obtain ⟨rfl,rfl⟩ := Prod.mk.inj heq
    have hmem : entry ∈ index.terms := mem_mergeSort.mp hterm
    have hposting : ∀ p ∈ list',p.docid < index.rowCount ∧ 0 < p.tf ∧
        p.docid < (fieldLengths index.natLengths entry.1.field).length := by
      intro p hp
      obtain ⟨lengths,hlookup,hp⟩ := h.posting entry hmem list' hget p hp
      refine ⟨hp.row,hp.tf_pos,?_⟩
      have hnat : index.natLengths.lookup entry.1.field = some (lengths.map BitVec.toNat) := by
        rw [SegmentIndex.natLengths,lookup_map_snd,hlookup]
        rfl
      rw [fieldLengths,hnat,Option.getD_some,length_map]
      exact hp.length
    have hchunk : ∀ chunk ∈ chunksOf postingsPerBlock list',∀ p ∈ chunk,p ∈ list' := by
      intro chunk hchunk p hp
      rw [← chunksOf_flatten (show postingsPerBlock ≠ 0 by decide) list']
      exact mem_flatten.mpr ⟨chunk,hchunk,hp⟩
    refine ⟨?_,?_,?_,?_⟩
    · have hflat : ((sealSpan index.natLengths entry.1 list').blocks.flatMap Block.postings) =
          list'.map fun p => (p.docid,p.tf) := by
        have hblock : (fun chunk => (sealBlock (fieldLengths index.natLengths entry.1.field)
            chunk).postings) = List.map fun p : Posting => (p.docid,p.tf) := rfl
        simp only [sealSpan,flatMap_map]
        rw [hblock,flatMap_def,← map_flatten,
          chunksOf_flatten (show postingsPerBlock ≠ 0 by decide)]
      rw [hflat,pairwise_map]
      exact h.ascending entry hmem list' hget
    · intro b hb
      obtain ⟨chunk,hmem',rfl⟩ := mem_map.mp hb
      exact sealBlock_valid (chunksOf_ne_nil hmem') fun p hp => hposting p (hchunk chunk hmem' p hp)
    · intro b hb
      exact (le_foldl_max (fun b : Block => b.impact.maxTf) _ 0).2 b hb
    · intro b hb
      exact (foldl_min_le (fun b : Block => b.impact.minLen) _ u16Max).2 b hb

/-- One weight in thousandths for each field, the first one where a field is named twice. -/
abbrev FieldWeights := List (FieldId × ℕ)

def FieldWeights.weight (weights : FieldWeights) (field : FieldId) : ℕ :=
  (weights.lookup field).getD 0

namespace SealedSegment

def totalLengths (s : SealedSegment) : List ℕ :=
  (List.range s.rowCount).map fun row =>
    s.lengths.foldl (fun total entry => min (total+entry.2[row]?.getD 0) u32Max) 0

def rowLength (s : SealedSegment) (weights : FieldWeights) (row : ℕ) : ℕ :=
  min (weights.foldl (fun total entry =>
    min (total+fieldLength s.lengths entry.1 row*entry.2) u64Max) 0 / 1000) u32Max

def unitField (s : SealedSegment) : FieldWeights → Option (List ℕ)
  | [(field,weight)] =>
    if weight = 1000 then (s.lengths.lookup field).filter fun lengths => lengths.length = s.rowCount
    else none
  | _ => none

def unitCover (s : SealedSegment) (weights : FieldWeights) : Bool :=
  !weights.isEmpty && (weights.all fun entry => entry.2 = 1000) &&
    s.lengths.all fun entry => weights.any fun weight => weight.1 = entry.1

def weightedLengths (s : SealedSegment) (weights : FieldWeights) : List ℕ :=
  match s.unitField weights with
  | some lengths => lengths
  | none =>
    if s.unitCover weights then s.totalLengths
    else (List.range s.rowCount).map (s.rowLength weights)

end SealedSegment

theorem foldl_saturating (bound : ℕ) (xs : List ℕ) (start : ℕ) (h : start ≤ bound) :
    xs.foldl (fun total x => min (total+x) bound) start = min (start+xs.sum) bound := by
  induction xs generalizing start with
  | nil => simpa using h
  | cons x xs ih =>
    rw [foldl_cons,ih _ (min_le_right _ _),sum_cons]
    omega

theorem le_foldl_saturating {α : Type} (f : α → ℕ) (bound : ℕ) {xs : List α} {x : α} (h : x ∈ xs) :
    min (f x) bound ≤ xs.foldl (fun total x => min (total+f x) bound) 0 := by
  have hsum:=foldl_saturating bound (xs.map f) 0 (Nat.zero_le _)
  rw [foldl_map] at hsum
  have hle : f x ≤ (xs.map f).sum := le_sum_of_mem (mem_map_of_mem h)
  rw [hsum]
  omega

variable {field : FieldId} {weights : FieldWeights}

theorem mem_of_lookup {β : Type} {value : β} {entries : List (FieldId × β)}
    (h : entries.lookup field = some value) : (field,value) ∈ entries := by
  induction entries with
  | nil => cases h
  | cons entry entries ih =>
    obtain ⟨key,first⟩ := entry
    rw [lookup_cons] at h
    cases hkey : field == key with
    | true =>
      rw [hkey] at h
      obtain rfl := Option.some.inj h
      rw [beq_iff_eq.mp hkey]
      exact mem_cons_self
    | false =>
      rw [hkey] at h
      exact mem_cons_of_mem _ (ih h)

theorem FieldWeights.mem_of_weight
    (h : weights.weight field ≠ 0) : (field,weights.weight field) ∈ weights := by
  unfold FieldWeights.weight at h ⊢
  cases hlookup : weights.lookup field with
  | none => simp [hlookup] at h
  | some weight => exact mem_of_lookup hlookup

theorem weightedLengths_ge (s : SealedSegment)
    {row : ℕ} (hweight : weights.weight field ≠ 0) (hrow : row < s.rowCount) :
    ∃ length,(s.weightedLengths weights)[row]? = some length ∧
      min (fieldLength s.lengths field row*weights.weight field / 1000) u32Max ≤ length := by
  have hmem:=FieldWeights.mem_of_weight hweight
  unfold SealedSegment.weightedLengths
  cases hunit : s.unitField weights with
  | some lengths =>
    unfold SealedSegment.unitField at hunit
    split at hunit
    · rename_i only weight
      split at hunit
      · rename_i hone
        obtain ⟨hlookup,hlength⟩ := Option.filter_eq_some_iff.mp hunit
        rw [decide_eq_true_eq] at hlength
        obtain ⟨hfield,hvalue⟩ := Prod.mk.inj (mem_singleton.mp hmem)
        rw [hvalue,hone,Nat.mul_div_cancel _ (by decide),hfield,fieldLength,fieldLengths,
          hlookup,Option.getD_some]
        have hin : row < lengths.length := hlength ▸ hrow
        exact ⟨lengths[row],getElem?_eq_getElem hin,by simp [getElem?_eq_getElem hin]⟩
      · cases hunit
    · cases hunit
  | none =>
    simp only
    split
    · rename_i hcover
      simp only [SealedSegment.unitCover,Bool.and_eq_true,all_eq_true,
        decide_eq_true_eq] at hcover
      have hone : weights.weight field = 1000 := hcover.1.2 _ hmem
      refine ⟨s.lengths.foldl (fun total entry => min (total+entry.2[row]?.getD 0) u32Max) 0,
        by simp [SealedSegment.totalLengths,getElem?_range hrow],?_⟩
      rw [hone,Nat.mul_div_cancel _ (by decide),fieldLength,fieldLengths]
      cases hlookup : s.lengths.lookup field with
      | none => simp
      | some lengths =>
        exact le_foldl_saturating (fun entry : FieldId × List ℕ => entry.2[row]?.getD 0) u32Max
          (mem_of_lookup hlookup)
    · refine ⟨s.rowLength weights row,by simp [getElem?_range hrow],?_⟩
      have hterm:=le_foldl_saturating (fun entry : FieldId × ℕ =>
        fieldLength s.lengths entry.1 row*entry.2) u64Max hmem
      rw [SealedSegment.rowLength]
      simp only [u32Max,u64Max] at hterm ⊢
      omega

end Zeppelin.Fts
