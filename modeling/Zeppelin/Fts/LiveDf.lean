import Zeppelin.Fts.RowTotals
import Zeppelin.Segment.Identity

/-! fts/live_df.rs, fts/sealed.rs, fts/control.rs -/

namespace Zeppelin.Fts
open Collections Segment List

abbrev Callback (ε : Type) := ℕ → Except ε Unit

/-- `WorkCheck`: the calls made, and the steps up to the next one. -/
structure WorkCheck where
  calls : ℕ
  remaining : ℕ
  deriving DecidableEq

abbrev Controlled (ε : Type) := StateT WorkCheck (Except ε)

section Checks
variable {ε : Type} (check : Callback ε)

def checkNow : Controlled ε Unit := fun work =>
  match check work.calls with
  | .ok () => .ok ((),{ work with calls := work.calls+1 })
  | .error e => .error e

def newCheck : Controlled ε Unit := fun work => .ok ((),{ work with remaining := 64 })

def step : Controlled ε Unit := fun work =>
  if work.remaining = 1 then checkNow check { work with remaining := 64 }
  else .ok ((),{ work with remaining := work.remaining-1 })

def repeated (action : Controlled ε Unit) : ℕ → Controlled ε Unit
  | 0 => pure ()
  | count+1 => do
    action
    repeated action count

end Checks

def termBytes (span : ListSpan) : Bytes := utf8Bytes span.term

def SealedSegment.termSpanRange (s : SealedSegment) (term : Bytes) : List ListSpan :=
  (s.spans.drop (slicePartitionPoint (fun span => byteKey (termBytes span) < byteKey term)
    s.spans)).takeWhile fun span => termBytes span = term

/-- `doc_freq`, which the encoder counts. -/
def ListSpan.docFreq (span : ListSpan) : ℕ := (span.blocks.flatMap Block.postings).length

/-- `FieldWeights::flat` -/
def flatWeights (fields : List FieldId) : FieldWeights := fields.map fun field => (field,1000)

def SealedSegment.openRuns (s : SealedSegment) (term : Bytes) (fields : List FieldId) :
    List ListCursor :=
  ((s.termSpanRange term).filter fun span => (flatWeights fields).weight span.field ≠ 0).map
    fun span => cursorAt span ((flatWeights fields).weight span.field)

def refreshSteps (runs : List ListCursor) : ℕ := if unitSingle runs then 0 else runs.length

section Count
variable {ε : Type} (check : Callback ε)

def countRows (live : Finset ℕ) : ℕ → TermStream → ℕ → Controlled ε ℕ
  | 0,_,count => pure count
  | fuel+1,stream,count =>
    match stream.currentRow with
    | none => do
      checkNow check
      return count
    | some row => do
      step check
      repeated (step check) (stream.runs.length+refreshSteps stream.runs)
      countRows live fuel stream.advance (if row ∈ live then min (count+1) u32Max else count)

def SealedSegment.liveDocumentFrequencyControlled (s : SealedSegment) (live : Finset ℕ)
    (term : Bytes) (fields : List FieldId) : Controlled ε ℕ := do
  newCheck
  checkNow check
  repeated (step check) (1+(s.termSpanRange term).length)
  if (s.openRuns term fields).isEmpty then return 0
  else
    repeated (step check) ((s.openRuns term fields).length+refreshSteps (s.openRuns term fields))
    let stream:=TermStream.reset ⟨s.openRuns term fields,none⟩
    countRows check live (left stream.runs+1) stream 0

end Count

/-- The only span of the fields with a posting, or `none` for more than one posting. -/
def singleSpan (fields : List FieldId) :
    List ListSpan → Option ListSpan → Option (Option ListSpan)
  | [],matched => some matched
  | span::spans,matched =>
    if span.field ∉ fields ∨ span.docFreq = 0 then singleSpan fields spans matched
    else if 1 < span.docFreq ∨ matched.isSome then none
    else singleSpan fields spans (some span)

def SealedSegment.singlePostingLiveFrequency (s : SealedSegment) (live : Finset ℕ) (term : Bytes)
    (fields : List FieldId) : Option ℕ :=
  match singleSpan fields (s.termSpanRange term) none with
  | none => none
  | some none => some 0
  | some (some span) =>
    (cursorAt span 1000).reset.current.map fun row => if row ∈ live then 1 else 0

namespace LiveDf

def maxEntries : ℕ := 64

def maxKeyBytes : ℕ := 4096

structure Entry where
  start : ℕ
  termLen : ℕ
  fieldsLen : ℕ
  frequency : ℕ
  used : ℕ
  deriving DecidableEq

structure Table where
  entries : List Entry
  keys : Bytes
  clock : ℕ
  deriving DecidableEq

/-- `invalid cache offsets` -/
inductive CacheError where
  | invalid
  deriving DecidableEq

def Entry.length (entry : Entry) : ℕ := entry.fieldsLen*2+entry.termLen

def Entry.stop (entry : Entry) : ℕ := entry.start+entry.length

def keyOf (term : Bytes) (fields : List FieldId) : Bytes := term++fields.flatMap (toLe 2)

/-- `Table::matches` -/
def Entry.agrees (keys term : Bytes) (fields : List FieldId) (entry : Entry) :
    Except CacheError Bool :=
  if entry.termLen ≠ term.length ∨ entry.fieldsLen ≠ fields.length then .ok false
  else
    match slice? keys entry.start (entry.start+entry.termLen) with
    | none => .error .invalid
    | some found =>
      if found ≠ term then .ok false
      else
        match slice? keys (entry.start+entry.termLen)
            (entry.start+entry.termLen+entry.fieldsLen*2) with
        | none => .error .invalid
        | some stored =>
          .ok (((chunksOf 2 stored).zip fields).all fun pair => pair.1 = toLe 2 pair.2)

def findSlot (keys term : Bytes) (fields : List FieldId) :
    List Entry → Except CacheError (Option ℕ)
  | [] => .ok none
  | entry::entries =>
    match entry.agrees keys term fields with
    | .error e => .error e
    | .ok true => .ok (some 0)
    | .ok false => Option.map (· + 1) <$> findSlot keys term fields entries

def leastUsed (entries : List Entry) : Option ℕ :=
  (entries.zipIdx.argmin fun slot => slot.1.used).map Prod.snd

def Entry.shift (gone other : Entry) : Entry :=
  if gone.stop ≤ other.start then { other with start := other.start-gone.length } else other

def Table.evict (table : Table) : Except CacheError Table :=
  match leastUsed table.entries with
  | none => .error .invalid
  | some slot =>
    match table.entries[slot]? with
    | none => .error .invalid
    | some entry =>
      if table.keys.length < entry.stop then .error .invalid
      else .ok { table with
        entries := (table.entries.eraseIdx slot).map entry.shift
        keys := table.keys.take entry.start++table.keys.drop entry.stop }

theorem Table.evict_length {table smaller : Table} (h : table.evict = .ok smaller) :
    smaller.entries.length < table.entries.length := by
  rw [Table.evict] at h
  cases hslot : leastUsed table.entries with
  | none =>
    rw [hslot] at h
    cases h
  | some slot =>
    cases hentry : table.entries[slot]? with
    | none =>
      simp only [hslot,hentry,reduceCtorEq] at h
    | some entry =>
      simp only [hslot,hentry] at h
      split_ifs at h
      cases h
      obtain ⟨hlt,-⟩ := List.getElem?_eq_some_iff.mp hentry
      dsimp only
      rw [length_map,length_eraseIdx_of_lt hlt]
      omega

/-- Evicts until a key of `length` bytes and its entry have room. -/
def Table.makeRoom (length : ℕ) (table : Table) : Except CacheError Unit × Table :=
  if table.entries.length = maxEntries ∨ maxKeyBytes-length < table.keys.length then
    match _hevict : table.evict with
    | .error e => (.error e,table)
    | .ok smaller => makeRoom length smaller
  else (.ok (),table)
termination_by table.entries.length
decreasing_by exact Table.evict_length _hevict

def Table.new : Table := ⟨[],[],0⟩

structure Lookup (ε : Type) where
  term : Bytes
  fields : List FieldId
  check : Callback ε
  waits : ℕ

inductive LookupError (ε : Type) where
  | control (error : ε)
  | cache (error : CacheError)
  deriving DecidableEq

section Lookups
variable {ε : Type} (s : SealedSegment) (live : Finset ℕ) (l : Lookup ε)

def Lookup.keyBytes (l : Lookup ε) : ℕ := l.fields.length*2+l.term.length

/-- What a lookup does before it holds the lock; `none` when it needs the table. -/
def beforeTable : Controlled ε (Option ℕ) := do
  checkNow l.check
  match s.singlePostingLiveFrequency live l.term l.fields with
  | some frequency => return some frequency
  | none =>
    if maxKeyBytes < l.keyBytes then
      some <$> s.liveDocumentFrequencyControlled l.check live l.term l.fields
    else
      repeated (checkNow l.check) l.waits
      checkNow l.check
      return none

def fillTable (work : WorkCheck) (table : Table) : Except (LookupError ε) ℕ × Table :=
  match s.liveDocumentFrequencyControlled l.check live l.term l.fields work with
  | .error e => (.error (.control e),table)
  | .ok (frequency,_) =>
    match table.makeRoom l.keyBytes with
    | (.error e,room) => (.error (.cache e),room)
    | (.ok (),room) =>
      (.ok frequency,{ room with
        entries := room.entries++
          [⟨room.keys.length,l.term.length,l.fields.length,frequency,table.clock⟩]
        keys := room.keys++keyOf l.term l.fields })

def lookupTable (work : WorkCheck) (table : Table) : Except (LookupError ε) ℕ × Table :=
  match findSlot table.keys l.term l.fields table.entries with
  | .error e => (.error (.cache e),table)
  | .ok none => fillTable s live l work table
  | .ok (some slot) =>
    match table.entries[slot]? with
    | none => (.error (.cache .invalid),table)
    | some entry => (.ok entry.frequency,
        { table with entries := table.entries.set slot { entry with used := table.clock } })

def frequencyInner (table : Table) : Except (LookupError ε) ℕ × Table :=
  match beforeTable s live l ⟨0,64⟩ with
  | .error e => (.error (.control e),table)
  | .ok (some frequency,_) => (.ok frequency,table)
  | .ok (none,work) =>
    lookupTable s live l work { table with clock := min (table.clock+1) u64Max }

end Lookups

end LiveDf

def ListSpan.rows (span : ListSpan) : List ℕ := (span.blocks.flatMap Block.postings).map Prod.fst

def SealedSegment.Contains (s : SealedSegment) (term : Bytes) (fields : List FieldId)
    (row : ℕ) : Prop :=
  ∃ span ∈ s.spans,termBytes span = term ∧ span.field ∈ fields ∧ row ∈ span.rows

instance (s : SealedSegment) (term : Bytes) (fields : List FieldId) :
    DecidablePred (s.Contains term fields) :=
  fun row => inferInstanceAs (Decidable (∃ span ∈ s.spans,termBytes span = term ∧
    span.field ∈ fields ∧ row ∈ span.rows))

def SealedSegment.liveCount (s : SealedSegment) (live : Finset ℕ) (term : Bytes)
    (fields : List FieldId) : ℕ :=
  (live.filter (s.Contains term fields)).card

/-- A segment as it is sealed and opened: its spans ascend by the bytes of their terms. -/
structure SealedSegment.Indexed (s : SealedSegment) : Prop extends s.Valid where
  ascending : s.spans.Pairwise fun a b => byteKey (termBytes a) ≤ byteKey (termBytes b)

theorem takeWhile_eq_filter {α : Type} {p : α → Bool} {xs : List α}
    (h : xs.Pairwise fun a b => p b = true → p a = true) : xs.takeWhile p = xs.filter p := by
  induction xs with
  | nil => rfl
  | cons x xs ih =>
    obtain ⟨hx,hxs⟩ := pairwise_cons.mp h
    by_cases hp : p x = true
    · rw [takeWhile_cons_of_pos hp,filter_cons_of_pos hp,ih hxs]
    · rw [takeWhile_cons_of_neg hp,filter_cons_of_neg hp]
      symm
      apply filter_eq_nil_iff.mpr
      intro y hy hpy
      exact hp (hx y hy hpy)

section Spans
variable {s : SealedSegment} (h : s.Indexed) (term : Bytes) (fields : List FieldId)
include h

theorem termSpanRange_eq_filter :
    s.termSpanRange term = s.spans.filter fun span => termBytes span = term := by
  have hbelow : s.spans.Pairwise fun a b => decide (byteKey (termBytes b) < byteKey term) = true →
      decide (byteKey (termBytes a) < byteKey term) = true := by
    refine h.ascending.imp fun {a b} hab hb => ?_
    rw [decide_eq_true_eq] at hb ⊢
    exact hab.trans_lt hb
  rw [SealedSegment.termSpanRange,drop_eq_filter hbelow,takeWhile_eq_filter,
    filter_filter]
  · apply filter_congr
    intro span _
    by_cases hterm : termBytes span = term
    · simp [hterm]
    · simp [hterm]
  · refine (h.ascending.filter _).imp_of_mem ?_
    intro a b ha _ hab hb
    have hge:=(mem_filter.mp ha).2
    rw [decide_eq_true_eq] at hb ⊢
    rw [hb] at hab
    rw [Bool.not_eq_true',decide_eq_false_iff_not] at hge
    exact byteKey_inj.mp (le_antisymm hab (not_lt.mp hge))

theorem contains_iff (row : ℕ) : s.Contains term fields row ↔
    ∃ span ∈ s.termSpanRange term,span.field ∈ fields ∧ row ∈ span.rows := by
  rw [termSpanRange_eq_filter h]
  simp only [SealedSegment.Contains,mem_filter,decide_eq_true_eq,and_assoc]

end Spans

theorem flatWeights_weight (fields : List FieldId) (field : FieldId) :
    (flatWeights fields).weight field = if field ∈ fields then 1000 else 0 := by
  induction fields with
  | nil => rfl
  | cons first fields ih =>
    rw [FieldWeights.weight] at ih ⊢
    rw [flatWeights,map_cons,lookup_cons]
    by_cases hfield : field = first
    · rw [hfield,beq_self_eq_true,if_pos (mem_cons_self ..)]
      rfl
    · rw [beq_false_of_ne hfield]
      simp only [mem_cons,hfield,false_or]
      exact ih

theorem mem_openRuns {s : SealedSegment} {term : Bytes} {fields : List FieldId}
    {run : ListCursor} : run ∈ s.openRuns term fields ↔
      ∃ span ∈ s.termSpanRange term,span.field ∈ fields ∧ run = cursorAt span 1000 := by
  rw [SealedSegment.openRuns,mem_map]
  constructor
  · intro ⟨span,hspan,hrun⟩
    obtain ⟨hmem,hweight⟩ := mem_filter.mp hspan
    rw [flatWeights_weight,decide_eq_true_eq] at hweight
    have hfield : span.field ∈ fields := by
      by_contra hnot
      exact hweight (if_neg hnot)
    rw [flatWeights_weight,if_pos hfield] at hrun
    exact ⟨span,hmem,hfield,hrun.symm⟩
  · intro ⟨span,hmem,hfield,hrun⟩
    refine ⟨span,mem_filter.mpr ⟨hmem,?_⟩,?_⟩
    · rw [flatWeights_weight,if_pos hfield]
      rfl
    · rw [flatWeights_weight,if_pos hfield,hrun]

theorem tfOf_ne_zero {postings : List (ℕ × ℕ)} (hpos : ∀ p ∈ postings,0 < p.2) {row : ℕ} :
    tfOf postings row ≠ 0 ↔ row ∈ postings.map Prod.fst := by
  constructor
  · intro hne
    exact mem_map.mpr ⟨_,mem_of_tfOf hne,rfl⟩
  · intro hrow
    induction postings with
    | nil => cases hrow
    | cons p postings ih =>
      rw [tfOf_cons]
      by_cases hp : row = p.1
      · rw [if_pos hp]
        exact (hpos p (mem_cons_self ..)).ne'
      · rw [if_neg hp]
        refine ih (fun q hq => hpos q (mem_cons_of_mem _ hq)) ?_
        rcases mem_cons.mp hrow with hhead | htail
        · exact absurd hhead hp
        · exact htail

variable {lengths : List (FieldId × List ℕ)} {rowCount : ℕ} {span : ListSpan}

theorem ListSpan.Valid.tf_pos (h : span.Valid lengths rowCount) :
    ∀ p ∈ span.blocks.flatMap Block.postings,0 < p.2 := by
  intro p hp
  obtain ⟨b,hb,hmem⟩ := mem_flatMap.mp hp
  exact (h.block b hb).tf_pos p hmem

theorem ListSpan.Valid.row_lt
    (h : span.Valid lengths rowCount) : ∀ row ∈ span.rows,row < rowCount := by
  intro row hrow
  obtain ⟨p,hp,rfl⟩ := mem_map.mp hrow
  obtain ⟨b,hb,hmem⟩ := mem_flatMap.mp hp
  exact (h.block b hb).row p hmem

section Streams
variable {s : SealedSegment} (h : s.Indexed) (term : Bytes) (fields : List FieldId)
include h

theorem span_valid {span : ListSpan} (hspan : span ∈ s.termSpanRange term) :
    span.Valid s.lengths s.rowCount := by
  rw [termSpanRange_eq_filter h] at hspan
  exact h.span span (mem_filter.mp hspan).1

theorem openRuns_wf : ∀ run ∈ s.openRuns term fields,
    RunWf s.lengths s.rowCount (fun _ => u32Max) run := by
  intro run hrun
  obtain ⟨span,hspan,-,rfl⟩ := mem_openRuns.mp hrun
  exact ⟨⟨span_valid h term hspan,.inl rfl⟩,fun row _ => min_le_right _ _⟩

theorem stream_tf_ne_zero (row : ℕ) :
    (TermStream.reset ⟨s.openRuns term fields,none⟩).tf row ≠ 0 ↔
      s.Contains term fields row := by
  obtain ⟨-,htf⟩ := reset_spec (s := ⟨s.openRuns term fields,none⟩) (openRuns_wf h term fields)
  rw [htf,contains_iff h]
  constructor
  · intro hne
    have hsum : ((TermStream.mk (s.openRuns term fields) none).sources.map fun source =>
        tfOf (source.1.blocks.flatMap Block.postings) row*source.2).sum ≠ 0 := by
      intro hzero
      rw [sourceTf,hzero] at hne
      exact hne rfl
    obtain ⟨value,hvalue,hpos⟩ := exists_mem_ne_zero_of_sum_ne_zero hsum
    obtain ⟨source,hsource,rfl⟩ := mem_map.mp hvalue
    obtain ⟨run,hrun,rfl⟩ := mem_map.mp hsource
    obtain ⟨span,hspan,hfield,rfl⟩ := mem_openRuns.mp hrun
    refine ⟨span,hspan,hfield,(tfOf_ne_zero (span_valid h term hspan).tf_pos).mp ?_⟩
    exact left_ne_zero_of_mul hpos
  · intro ⟨span,hspan,hfield,hrow⟩
    have hne:=(tfOf_ne_zero (span_valid h term hspan).tf_pos).mpr hrow
    have hmem : tfOf (span.blocks.flatMap Block.postings) row*1000 ∈
        (TermStream.mk (s.openRuns term fields) none).sources.map fun source =>
          tfOf (source.1.blocks.flatMap Block.postings) row*source.2 := by
      refine mem_map.mpr ⟨(span,1000),mem_map.mpr ⟨cursorAt span 1000,?_,rfl⟩,rfl⟩
      exact mem_openRuns.mpr ⟨span,hspan,hfield,rfl⟩
    have hle:=le_sum_of_mem hmem
    rw [sourceTf]
    simp only [u64Max,u32Max]
    omega

end Streams

section Checks
variable {ε : Type} {check : Callback ε}

/-- An action that only calls back: it fails with an answer of the callback. -/
def Calls (check : Callback ε) {α : Type} (action : Controlled ε α) : Prop :=
  ∀ work e,action work = .error e → ∃ call,check call = .error e

variable {α β : Type}

theorem Calls.pure (a : α) : Calls check (pure a : Controlled ε α) := by
  intro work e h
  cases h

variable {action : Controlled ε α} {next : α → Controlled ε β}

theorem Calls.bind (haction : Calls check action) (hnext : ∀ a,Calls check (next a)) :
    Calls check (action >>= next) := by
  intro work e h
  change (action work >>= fun result => next result.1 result.2) = .error e at h
  cases hresult : action work with
  | error e' =>
    rw [hresult] at h
    cases h
    exact haction work e hresult
  | ok result =>
    rw [hresult] at h
    exact hnext result.1 result.2 e h

theorem Calls.map (f : α → β) (h : Calls check action) : Calls check (f <$> action) := by
  rw [map_eq_pure_bind]
  exact h.bind fun a => .pure (f a)

theorem calls_checkNow : Calls check (checkNow check) := by
  intro work e h
  rw [checkNow] at h
  cases hcheck : check work.calls with
  | error e' =>
    simp only [hcheck] at h
    cases h
    exact ⟨work.calls,hcheck⟩
  | ok u =>
    simp only [hcheck] at h
    cases h

theorem calls_step : Calls check (step check) := by
  intro work e h
  rw [step] at h
  split_ifs at h
  exact calls_checkNow _ e h

theorem Calls.repeated {action : Controlled ε Unit} (h : Calls check action) (count : ℕ) :
    Calls check (repeated action count) := by
  induction count with
  | zero => exact .pure ()
  | succ count ih => exact h.bind fun _ => ih

theorem calls_countRows (live : Finset ℕ) (fuel : ℕ) (stream : TermStream) (count : ℕ) :
    Calls check (countRows check live fuel stream count) := by
  induction fuel generalizing stream count with
  | zero => exact .pure count
  | succ fuel ih =>
    rw [countRows]
    split
    · exact calls_checkNow.bind fun _ => .pure count
    · exact calls_step.bind fun _ => (calls_step.repeated _).bind fun _ => ih _ _

theorem calls_count (s : SealedSegment) (live : Finset ℕ) (term : Bytes)
    (fields : List FieldId) :
    Calls check (s.liveDocumentFrequencyControlled check live term fields) := by
  have hnew : Calls check (newCheck : Controlled ε Unit) := by
    intro work e h
    cases h
  refine hnew.bind fun _ => calls_checkNow.bind fun _ => (calls_step.repeated _).bind fun _ => ?_
  split_ifs
  · exact .pure 0
  · exact (calls_step.repeated _).bind fun _ => calls_countRows live _ _ 0

def Returns {α : Type} (action : Controlled ε α) (a : α) : Prop :=
  ∀ work result,action work = .ok result → result.1 = a

theorem Returns.pure (a : α) : Returns (pure a : Controlled ε α) a := by
  intro work result h
  cases h
  rfl

theorem Returns.bind {b : β} (h : ∀ a,Returns (next a) b) : Returns (action >>= next) b := by
  intro work result hresult
  obtain ⟨first,-,hnext⟩ := bind_eq_ok hresult
  exact h first.1 first.2 result hnext

theorem countRows_returns {fields : List (FieldId × List ℕ)} {rowCount : ℕ} {lengthAt : ℕ → ℕ}
    (live : Finset ℕ) {fuel : ℕ} {stream : TermStream} {count : ℕ}
    (h : StreamWf fields rowCount lengthAt stream) (hfuel : left stream.runs < fuel)
    (hcount : count ≤ u32Max) :
    Returns (countRows check live fuel stream count)
      (min (count+((List.range rowCount).filter fun row => stream.tf row ≠ 0).countP
        fun row => row ∈ live) u32Max) := by
  induction fuel generalizing stream count with
  | zero => omega
  | succ fuel ih =>
    rw [countRows]
    cases hhead : stream.currentRow with
    | none =>
      have hnone : ((List.range rowCount).filter fun row => stream.tf row ≠ 0) = [] := by
        apply filter_eq_nil_iff.mpr
        intro row _
        simpa using h.tf_none hhead row
      have hvalue : min (count+((List.range rowCount).filter fun row => stream.tf row ≠ 0).countP
          fun row => row ∈ live) u32Max = count := by
        rw [hnone]
        exact Nat.min_eq_left hcount
      rw [hvalue]
      exact .bind fun _ => .pure count
    | some row =>
      obtain ⟨hadvance,htf,hless⟩ := h.advance hhead
      have hpos:=h.head_pos row hhead
      -- the head is the first row; the others are the rows after the advance
      have hfirst : ((List.range rowCount).filter fun r => stream.tf r ≠ 0) =
          row::(List.range rowCount).filter fun r => stream.advance.tf r ≠ 0 := by
        apply filter_range_first (h.row_lt hpos.ne')
        · simpa using hpos.ne'
        · intro r hr
          simp [h.tf_below hhead hr]
        · intro r
          by_cases hr : r ≤ row
          · simp [htf,hr]
          · simp [htf,hr,Nat.lt_of_not_le hr]
      have hnext:=@ih stream.advance (if row ∈ live then min (count+1) u32Max else count)
        hadvance (by omega) (by split_ifs; exacts [min_le_right _ _,hcount])
      refine .bind fun _ => .bind fun _ => ?_
      rw [hfirst,countP_cons]
      convert hnext using 1
      by_cases hlive : row ∈ live
      · simp only [hlive,decide_true,if_true]
        omega
      · simp [hlive]

end Checks

section Counts
variable {ε : Type} {check : Callback ε} {s : SealedSegment} (h : s.Indexed) (live : Finset ℕ)
  (term : Bytes) (fields : List FieldId)
include h

theorem contains_row_lt {row : ℕ} (hrow : s.Contains term fields row) : row < s.rowCount := by
  obtain ⟨span,hspan,-,-,hmem⟩ := hrow
  exact (h.span span hspan).row_lt row hmem

theorem liveCount_eq_countP : s.liveCount live term fields =
    ((List.range s.rowCount).filter fun row => s.Contains term fields row).countP
      fun row => row ∈ live := by
  have hset : live.filter (s.Contains term fields) =
      (((List.range s.rowCount).filter fun row => s.Contains term fields row).filter
        fun row => row ∈ live).toFinset := by
    ext row
    simp only [Finset.mem_filter,mem_toFinset,mem_filter,mem_range,
      decide_eq_true_eq]
    constructor
    · intro ⟨hlive,hrow⟩
      exact ⟨⟨contains_row_lt h term fields hrow,hrow⟩,hlive⟩
    · intro ⟨⟨_,hrow⟩,hlive⟩
      exact ⟨hlive,hrow⟩
  rw [SealedSegment.liveCount,hset,toFinset_card_of_nodup,countP_eq_length_filter]
  exact (nodup_range.filter _).filter _

theorem liveCount_le : s.liveCount live term fields ≤ u32Max := by
  rw [liveCount_eq_countP h]
  refine countP_le_length.trans ((length_filter_le ..).trans ?_)
  rw [length_range]
  exact h.rows

theorem liveDocumentFrequency_returns :
    Returns (s.liveDocumentFrequencyControlled check live term fields)
      (s.liveCount live term fields) := by
  refine .bind fun _ => .bind fun _ => .bind fun _ => ?_
  split_ifs with hempty
  · have hzero : s.liveCount live term fields = 0 := by
      rw [SealedSegment.liveCount,Finset.card_eq_zero,Finset.filter_eq_empty_iff]
      intro row _ hrow
      obtain ⟨span,hspan,hfield,-⟩ := (contains_iff h term fields row).mp hrow
      have hrun:=mem_openRuns.mpr ⟨span,hspan,hfield,rfl⟩
      rw [List.isEmpty_iff.mp hempty] at hrun
      cases hrun
    rw [hzero]
    exact .pure 0
  · obtain ⟨hwf,-⟩ := reset_spec (s := ⟨s.openRuns term fields,none⟩)
      (openRuns_wf h term fields)
    have hcount:=@countRows_returns _ check _ _ _ live _ _ 0 hwf (Nat.lt_succ_self _)
      (Nat.zero_le u32Max)
    refine .bind fun _ => ?_
    convert hcount using 1
    simp only [stream_tf_ne_zero h,Nat.zero_add]
    rw [← liveCount_eq_countP h,Nat.min_eq_left (liveCount_le h ..)]

end Counts

section Single
variable {fields : List FieldId} {spans : List ListSpan} {matched result : Option ListSpan}

theorem singleSpan_spec (h : singleSpan fields spans matched = some result) :
    (∀ span ∈ spans,span.field ∈ fields → span.docFreq ≠ 0 → result = some span) ∧
      (∀ span ∈ matched,result = some span) ∧
        ∀ span ∈ result,span ∈ matched ∨
          span ∈ spans ∧ span.field ∈ fields ∧ span.docFreq = 1 := by
  induction spans generalizing matched with
  | nil =>
    cases h
    exact ⟨nofun,fun span hspan => hspan,fun span hspan => .inl hspan⟩
  | cons first spans ih =>
    rw [singleSpan] at h
    split_ifs at h with hskip hmany
    · obtain ⟨hall,hkept,hfrom⟩ := ih h
      refine ⟨?_,hkept,?_⟩
      · intro span hspan hfield hposting
        rcases mem_cons.mp hspan with rfl | hspan
        · exact absurd hskip (not_or.mpr ⟨not_not.mpr hfield,hposting⟩)
        · exact hall span hspan hfield hposting
      · intro span hspan
        rcases hfrom span hspan with hmatched | ⟨hmem,hfield,hone⟩
        · exact .inl hmatched
        · exact .inr ⟨mem_cons_of_mem _ hmem,hfield,hone⟩
    · rw [not_or,not_not] at hskip
      rw [not_or,Bool.not_eq_true,Option.isSome_eq_false_iff,Option.isNone_iff_eq_none] at hmany
      obtain ⟨hall,hkept,hfrom⟩ := ih h
      have hfirst:=hkept first rfl
      have hone : first.docFreq = 1 := by omega
      refine ⟨?_,?_,?_⟩
      · intro span hspan hfield hposting
        rcases mem_cons.mp hspan with rfl | hspan
        · exact hfirst
        · exact hall span hspan hfield hposting
      · rw [hmany.2]
        exact nofun
      · intro span hspan
        rw [hfirst] at hspan
        cases hspan
        exact .inr ⟨mem_cons_self ..,hskip.1,hone⟩

end Single

theorem ListSpan.docFreq_eq (span : ListSpan) : span.docFreq = span.rows.length := by
  rw [ListSpan.docFreq,ListSpan.rows,length_map]

theorem cursorAt_current {lengths : List (FieldId × List ℕ)} {rowCount : ℕ} {span : ListSpan}
    (h : span.Valid lengths rowCount) (weight : ℕ) :
    (cursorAt span weight).reset.current = span.rows.head? := by
  have hwf : (cursorAt span weight).Wf lengths rowCount := ⟨h,.inl rfl⟩
  obtain ⟨hreset,hrest⟩ := hwf.reset
  rw [hreset.current,hrest,ListSpan.rows,head?_map]
  rfl

theorem singlePosting_eq {s : SealedSegment} (h : s.Indexed) {live : Finset ℕ} {term : Bytes}
    {fields : List FieldId} {frequency : ℕ}
    (hsingle : s.singlePostingLiveFrequency live term fields = some frequency) :
    frequency = s.liveCount live term fields := by
  rw [SealedSegment.singlePostingLiveFrequency] at hsingle
  cases hspans : singleSpan fields (s.termSpanRange term) none with
  | none =>
    rw [hspans] at hsingle
    cases hsingle
  | some result =>
    obtain ⟨hall,-,hfrom⟩ := singleSpan_spec hspans
    -- a row of the term is a row of the span that was found
    have hrows : ∀ row,s.Contains term fields row ↔ ∃ span ∈ result,row ∈ span.rows := by
      intro row
      rw [contains_iff h]
      constructor
      · intro ⟨span,hspan,hfield,hrow⟩
        have hposting : span.docFreq ≠ 0 := by
          rw [ListSpan.docFreq_eq]
          exact (length_pos_of_mem hrow).ne'
        exact ⟨span,hall span hspan hfield hposting,hrow⟩
      · intro ⟨span,hspan,hrow⟩
        rcases hfrom span hspan with hnone | ⟨hmem,hfield,-⟩
        · cases hnone
        · exact ⟨span,hmem,hfield,hrow⟩
    rw [hspans] at hsingle
    cases result with
    | none =>
      cases hsingle
      symm
      rw [SealedSegment.liveCount,Finset.card_eq_zero,Finset.filter_eq_empty_iff]
      intro row _ hrow
      obtain ⟨span,hspan,-⟩ := (hrows row).mp hrow
      cases hspan
    | some span =>
      rcases hfrom span rfl with hnone | ⟨hmem,-,hone⟩
      · cases hnone
      · rw [ListSpan.docFreq_eq] at hone
        obtain ⟨row,hrow⟩ := length_eq_one_iff.mp hone
        have hset : live.filter (s.Contains term fields) = if row ∈ live then {row} else ∅ := by
          ext r
          rw [Finset.mem_filter,hrows]
          simp only [Option.mem_def,Option.some.injEq,exists_eq_left',hrow,
            mem_singleton]
          split_ifs with hlive
          · rw [Finset.mem_singleton]
            exact ⟨fun hr => hr.2,fun hr => ⟨hr ▸ hlive,hr⟩⟩
          · simp only [Finset.notMem_empty,iff_false,not_and]
            intro hr heq
            exact hlive (heq ▸ hr)
        dsimp only at hsingle
        rw [cursorAt_current (span_valid h term hmem),hrow] at hsingle
        rw [SealedSegment.liveCount,hset]
        cases hsingle
        dsimp only
        by_cases hlive : row ∈ live
        · rw [if_pos hlive,if_pos hlive,Finset.card_singleton]
        · rw [if_neg hlive,if_neg hlive,Finset.card_empty]

end Zeppelin.Fts
