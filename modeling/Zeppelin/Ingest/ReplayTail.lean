import Zeppelin.Ingest.AtomicBatch

/-! ingest/active.rs, manifest/mod.rs -/

namespace Zeppelin.Ingest
open Wal List

structure GraphManifest where
  graphAbsorbedThrough : U64
  generationAbsorbedThrough : Option U64
  generationBumps : List (U64 × U64)
  deriving DecidableEq

structure Manifest where
  generation : U64
  logSeq : U64
  graph : Option GraphManifest
  deriving DecidableEq

/-- `PublishedSnapshot::from_manifest`: without a graph its watermark is the log's. -/
def Manifest.graphAbsorbedThrough (m : Manifest) : U64 :=
  match m.graph with
  | none => m.logSeq
  | some graph => graph.graphAbsorbedThrough

/-- One more manifest-only increment at `boundary`, which is never below a row. -/
def bumpRows (rows : List (U64 × U64)) (boundary : U64) : Except StoreError (List (U64 × U64)) :=
  match rows.getLast? with
  | none => .ok (rows++[(boundary,1)])
  | some (sequence,count) =>
    if sequence = boundary then
      match checkedAdd count 1 with
      | none => .error (.manifestDecode "generation bump overflow")
      | some count => .ok (rows.dropLast++[(sequence,count)])
    else .ok (rows++[(boundary,1)])

def Manifest.recordGenerationBump (m : Manifest) (boundary : U64) : Except StoreError Manifest :=
  match m.graph with
  | none => .ok m
  | some graph => do
    let watermark:=maxWord m.logSeq graph.graphAbsorbedThrough
    let rows ← bumpRows (graph.generationBumps.filter fun row => watermark ≤ row.1) boundary
    return { m with graph := some { graph with
      generationAbsorbedThrough := some boundary
      generationBumps := rows } }

structure RecoveredGraphCommit where
  seq : LogSeq
  generation : U64
  bytes : Bytes
  deriving DecidableEq

inductive ReplayStep where
  | upsert (document : IngestDocument)
  | delete (docIds : List DocId)
  deriving DecidableEq

structure Tail where
  generation : U64
  bumps : List (U64 × U64)
  graph : List RecoveredGraphCommit
  steps : List (LogSeq × U16 × ReplayStep)
  deriving DecidableEq

def addGeneration (generation count : U64) : Except StoreError U64 :=
  match checkedAdd generation count with
  | none => .error .generationOverflow
  | some generation => .ok generation

def subGeneration (generation count : U64) : Except StoreError U64 :=
  match checkedSub generation count with
  | none => .error .generationOverflow
  | some generation => .ok generation

/-- Restores the increments recorded before the batch that ends at `lastSeq`. -/
def restoreBumps (lastSeq : LogSeq) : U64 → List (U64 × U64) →
    Except StoreError (U64 × List (U64 × U64))
  | generation,[] => .ok (generation,[])
  | generation,(sequence,count)::rows =>
    if sequence < lastSeq then do
      let generation ← addGeneration generation count
      restoreBumps lastSeq generation rows
    else .ok (generation,(sequence,count)::rows)

def restoreAllBumps : U64 → List (U64 × U64) → Except StoreError U64
  | generation,[] => .ok generation
  | generation,(_,count)::rows => do
    let generation ← addGeneration generation count
    restoreAllBumps generation rows

def withoutBumps : U64 → List (U64 × U64) → Except StoreError U64
  | generation,[] => .ok generation
  | generation,(_,count)::rows => do
    let generation ← subGeneration generation count
    withoutBumps generation rows

section Columns
variable (validateColumns : IngestDocument → Except String Unit)

def replayMember (absorbedThrough graphAbsorbedThrough : U64) (graphEnabled : Bool)
    (lastSeq : LogSeq) (tail : Tail) (member : LogSeq × U16 × MutationPayload) :
    Except StoreError Tail :=
  let (seq,op,mutation) := member
  match mutation with
  | .graphCommit bytes =>
    if seq ≠ lastSeq then .error (.walMutation seq op (.graphEnvelope .sequence))
    else if seq ≤ graphAbsorbedThrough then .ok tail
    else if !graphEnabled then .error (.unsupportedWalMutation seq op)
    else .ok { tail with graph := tail.graph++[⟨seq,tail.generation,bytes⟩] }
  | .upsert document =>
    if seq ≤ absorbedThrough then .ok tail
    else match validateColumns document with
      | .error detail => .error (.walMutation seq op (.columns detail))
      | .ok () => .ok { tail with steps := tail.steps++[(seq,op,.upsert document)] }
  | .delete docIds =>
    if seq ≤ absorbedThrough then .ok tail
    else .ok { tail with steps := tail.steps++[(seq,op,.delete docIds)] }
  | .metadataEdit _ | .batchMember .. | .mixedBatchMember .. =>
    if seq ≤ absorbedThrough then .ok tail else .error (.unsupportedWalMutation seq op)

/-- A watermark inside the batch `[first, last]`. -/
def splitsBatch (batch : CommittedBatch) (mark : U64) : Bool :=
  match batch.members.head? with
  | none => false
  | some (first,_,_) => first ≤ mark && mark < batch.lastSeq

def replayBatch (absorbedThrough graphAbsorbedThrough : U64) (graphEnabled : Bool) (tail : Tail)
    (batch : CommittedBatch) : Except StoreError Tail := do
  let (generation,bumps) ← restoreBumps batch.lastSeq tail.generation tail.bumps
  if graphEnabled && (splitsBatch batch absorbedThrough || splitsBatch batch graphAbsorbedThrough)
  then .error (.manifestDecode "watermark splits a committed batch")
  else do
    let generation ←
      if batch.lastSeq > maxWord absorbedThrough graphAbsorbedThrough then addGeneration generation 1
      else .ok generation
    batch.members.foldlM
      (replayMember validateColumns absorbedThrough graphAbsorbedThrough graphEnabled batch.lastSeq)
      { tail with generation,bumps }

def retainedFirstSeq (records : List VisibleRecord) (nextSeq : U64) : U64 :=
  match records.head? with
  | none => nextSeq
  | some record => record.seq

/-- The generation at the first batch that replays, less what the manifest has
counted already. -/
def startGeneration (generation absorbedThrough graphAbsorbedThrough : U64)
    (graphManifest : Option GraphManifest) (records : List VisibleRecord) (nextSeq : U64)
    (batches : List CommittedBatch) : Except StoreError U64 :=
  match graphManifest with
  | none => .ok generation
  | some graph =>
    match graph.generationAbsorbedThrough with
    | none => .ok generation
    | some boundary =>
      let watermark:=maxWord absorbedThrough graphAbsorbedThrough
      let retainedBoundary:=records.any (fun record => record.seq = boundary) &&
        !batches.any (fun batch => splitsBatch batch boundary)
      let retiredBoundary:=!graph.generationBumps.isEmpty &&
        checkedAdd boundary 1 = some (retainedFirstSeq records nextSeq)
      if boundary > watermark ∧ ¬ (retainedBoundary || retiredBoundary) then
        .error (.manifestDecode "generation boundary is not a committed batch boundary")
      else
        subGeneration generation (BitVec.ofNat 64 (batches.countP fun batch =>
          batch.lastSeq > watermark && batch.lastSeq ≤ boundary))

/-- The loop of `ActiveState::replay` over the committed batches, with the
generation bookkeeping around it. -/
def replayCommitted (generation absorbedThrough graphAbsorbedThrough : U64)
    (graphManifest : Option GraphManifest) (graphEnabled : Bool) (records : List VisibleRecord)
    (nextSeq : U64) (batches : List CommittedBatch) : Except StoreError Tail := do
  let generation ← startGeneration generation absorbedThrough graphAbsorbedThrough graphManifest
    records nextSeq batches
  let bumps:=(graphManifest.elim [] GraphManifest.generationBumps).filter fun row =>
    maxWord absorbedThrough graphAbsorbedThrough ≤ row.1
  let generation ← withoutBumps generation bumps
  let tail ← batches.foldlM
    (replayBatch validateColumns absorbedThrough graphAbsorbedThrough graphEnabled)
    ⟨generation,bumps,[],[]⟩
  let generation ← restoreAllBumps tail.generation tail.bumps
  return { tail with generation,bumps := [] }

end Columns

/-- A store without a graph refuses a log that holds graph records. -/
def refuseGraphRecords (graphEnabled : Bool) (records : List VisibleRecord) :
    Except StoreError Unit :=
  match records.find? fun r => !graphEnabled && (r.op = graphCommitV1 || r.op = mixedBatchMemberV1)
  with
  | some record => .error (.unsupportedWalMutation record.seq record.op)
  | none => .ok ()

def decisionIn (decisions : List TransactionBinding) (binding : TransactionBinding) :
    Option TransactionBinding :=
  decisions.find? fun b => b.transaction = binding.transaction

/-- `max_by_key(last_seq)`: the last of the largest. -/
def lastDecision : List TransactionBinding → Option TransactionBinding
  | [] => none
  | b::bs =>
    match lastDecision bs with
    | none => some b
    | some best => if b.lastSeq ≤ best.lastSeq then some best else some b

section Recover
variable (xxh3 : Bytes → U64) (validateEnvelope : Bytes → Except GraphWalError Unit)
  (validateColumns : IngestDocument → Except String Unit)

/-- `ActiveState::replay` up to the rebuilding of the segment. -/
def replayTail (generation absorbedThrough graphAbsorbedThrough : U64)
    (graphManifest : Option GraphManifest) (graphEnabled : Bool) (records : List VisibleRecord)
    (nextSeq : U64) (decisions : List TransactionBinding) : Except StoreError Tail := do
  refuseGraphRecords graphEnabled records
  let batches ← committedBatches xxh3 validateEnvelope (decisionIn decisions) records
    (minWord absorbedThrough graphAbsorbedThrough)
  replayCommitted validateColumns generation absorbedThrough graphAbsorbedThrough graphManifest
    graphEnabled records nextSeq batches

/-- `ActiveState::recover` on the records of a clean log, up to the segment. -/
def recoverTail (manifest : Manifest) (records : List VisibleRecord) (nextSeq : U64)
    (decisions : List TransactionBinding) : Except StoreError Tail := do
  let absorbedThrough:=manifest.logSeq
  let graphAbsorbedThrough:=manifest.graphAbsorbedThrough
  let tail ← replayTail xxh3 validateEnvelope validateColumns manifest.generation absorbedThrough
    graphAbsorbedThrough manifest.graph manifest.graph.isSome records nextSeq decisions
  match lastDecision decisions with
  | none => return tail
  | some binding =>
    if binding.lastSeq > maxWord absorbedThrough graphAbsorbedThrough ∧ manifest.graph.isNone then do
      let later ← committedBatches xxh3 validateEnvelope (decisionIn decisions) records
        binding.lastSeq
      let generation ← addGeneration binding.finalGeneration (BitVec.ofNat 64 later.length)
      return { tail with generation }
    else return tail

end Recover

def bumpTotal (rows : List (U64 × U64)) : ℕ := (rows.map fun row => row.2.toNat).sum

@[simp] theorem bumpTotal_nil : bumpTotal [] = 0 := rfl

@[simp] theorem bumpTotal_cons (row : U64 × U64) (rows : List (U64 × U64)) :
    bumpTotal (row::rows) = row.2.toNat+bumpTotal rows := by
  simp [bumpTotal]

@[simp] theorem bumpTotal_append (rows more : List (U64 × U64)) :
    bumpTotal (rows++more) = bumpTotal rows+bumpTotal more := by
  simp [bumpTotal]

def bumpsBefore (lastSeq : LogSeq) (rows : List (U64 × U64)) : List (U64 × U64) :=
  rows.takeWhile fun row => row.1 < lastSeq

def bumpsFrom (lastSeq : LogSeq) (rows : List (U64 × U64)) : List (U64 × U64) :=
  rows.dropWhile fun row => row.1 < lastSeq

theorem bumpTotal_split (lastSeq : LogSeq) (rows : List (U64 × U64)) :
    bumpTotal (bumpsBefore lastSeq rows)+bumpTotal (bumpsFrom lastSeq rows) = bumpTotal rows := by
  rw [← bumpTotal_append,bumpsBefore,bumpsFrom,takeWhile_append_dropWhile]

def assign : ℕ → List (U64 × U64) → List CommittedBatch → List (CommittedBatch × ℕ)
  | _,_,[] => []
  | generation,rows,batch::batches =>
    let next:=generation+bumpTotal (bumpsBefore batch.lastSeq rows)+1
    (batch,next)::assign next (bumpsFrom batch.lastSeq rows) batches

def graphCommits (batch : CommittedBatch) (generation : U64) : List RecoveredGraphCommit :=
  batch.members.filterMap fun m =>
    match m.2.2 with
    | .graphCommit bytes => some ⟨m.1,generation,bytes⟩
    | _ => none

def replaySteps (batch : CommittedBatch) : List (LogSeq × U16 × ReplayStep) :=
  batch.members.filterMap fun m =>
    match m.2.2 with
    | .upsert document => some (m.1,m.2.1,.upsert document)
    | .delete docIds => some (m.1,m.2.1,.delete docIds)
    | _ => none

variable {lastSeq : LogSeq} {rows : List (U64 × U64)} {row : U64 × U64}

theorem bumpsBefore_of_lt
    (h : ∀ row ∈ rows,row.1 < lastSeq) : bumpsBefore lastSeq rows = rows := by
  induction rows with
  | nil => rfl
  | cons row rows ih =>
    have hrow:=h row (mem_cons_self ..)
    have hrest:=ih fun row hrow => h row (mem_cons_of_mem _ hrow)
    rw [bumpsBefore] at hrest ⊢
    rw [takeWhile_cons_of_pos (by simpa using hrow),hrest]

theorem bumpsBefore_concat (h : ¬ row.1 < lastSeq) (rows : List (U64 × U64)) :
    bumpsBefore lastSeq (rows++[row]) = bumpsBefore lastSeq rows := by
  unfold bumpsBefore
  induction rows with
  | nil => simp [h]
  | cons r rows ih => simp only [cons_append,takeWhile_cons,ih]

theorem bumpsFrom_concat (h : ¬ row.1 < lastSeq) (rows : List (U64 × U64)) :
    bumpsFrom lastSeq (rows++[row]) = bumpsFrom lastSeq rows++[row] := by
  unfold bumpsFrom
  induction rows with
  | nil => simp [h]
  | cons r rows ih =>
    simp only [cons_append,dropWhile_cons]
    split
    · exact ih
    · rfl

variable {generation : ℕ} {batches : List CommittedBatch}

theorem assign_concat {batch : CommittedBatch} (h : ∀ row ∈ rows,row.1 < batch.lastSeq) :
    assign generation rows (batches++[batch]) = assign generation rows batches++
      [(batch,generation+bumpTotal rows+batches.length+1)] := by
  induction batches generalizing generation rows with
  | nil => simp [assign,bumpsBefore_of_lt h]
  | cons b bs ih =>
    have hdrop : ∀ row ∈ bumpsFrom b.lastSeq rows,row.1 < batch.lastSeq := fun row hrow =>
      h row ((dropWhile_sublist _).subset hrow)
    have hsplit:=bumpTotal_split b.lastSeq rows
    rw [cons_append,assign,assign,ih hdrop,cons_append,length_cons]
    congr 4
    omega

theorem assign_concat_row (h : ∀ b ∈ batches,b.lastSeq ≤ row.1) :
    assign generation (rows++[row]) batches = assign generation rows batches := by
  induction batches generalizing generation rows with
  | nil => rfl
  | cons b bs ih =>
    have hnot : ¬ row.1 < b.lastSeq := BitVec.not_lt.mpr (h b (mem_cons_self ..))
    rw [assign,assign,bumpsBefore_concat hnot,bumpsFrom_concat hnot,
      ih fun b hb => h b (mem_cons_of_mem _ hb)]

theorem bumpRows_spec {next : List (U64 × U64)} {boundary : U64}
    (h : bumpRows rows boundary = .ok next) :
    bumpTotal next = bumpTotal rows+1 ∧ (∀ row ∈ next,row ∈ rows ∨ row.1 = boundary) ∧
      ∀ generation batches,(∀ b ∈ batches,b.lastSeq ≤ boundary) →
        assign generation next batches = assign generation rows batches := by
  have hone : (1 : U64).toNat = 1 := rfl
  have hfresh : ∀ row ∈ rows++[(boundary,(1 : U64))],row ∈ rows ∨ row.1 = boundary := by
    intro row hrow
    rcases mem_append.mp hrow with hrow | hrow
    · exact .inl hrow
    · rw [mem_singleton.mp hrow]
      exact .inr rfl
  unfold bumpRows at h
  split at h
  · obtain rfl := Except.ok.inj h
    exact ⟨by simp,hfresh,fun _ _ hb => assign_concat_row hb⟩
  · rename_i sequence count hlast
    split at h
    · rename_i heq
      split at h
      · cases h
      · rename_i more hadd
        obtain rfl := Except.ok.inj h
        obtain ⟨front,rfl⟩ : ∃ front,rows = front++[(sequence,count)] :=
          getLast?_eq_some_iff.mp hlast
        have hmore:=checkedAdd_eq_some hadd
        rw [dropLast_concat]
        refine ⟨?_,?_,?_⟩
        · simp only [bumpTotal_append,bumpTotal_cons,bumpTotal_nil]
          omega
        · intro row hrow
          rcases mem_append.mp hrow with hrow | hrow
          · exact .inl (mem_append_left _ hrow)
          · rw [mem_singleton.mp hrow]
            exact .inr heq
        · intro generation batches hb
          rw [← heq] at hb
          rw [assign_concat_row hb,assign_concat_row hb]
    · obtain rfl := Except.ok.inj h
      exact ⟨by simp,hfresh,fun _ _ hb => assign_concat_row hb⟩

section Columns
variable (validateColumns : IngestDocument → Except String Unit)

/-- What the store writes: documents of its schema, deletes, and in a graph
store a graph commit as the last record of its batch. -/
def Replayable (graphEnabled : Bool) (batch : CommittedBatch) : Prop :=
  ∀ m ∈ batch.members,match m.2.2 with
    | .graphCommit _ => graphEnabled = true ∧ m.1 = batch.lastSeq
    | .upsert document => validateColumns document = .ok ()
    | .delete _ => True
    | _ => False

def Behind (mark : U64) (batch : CommittedBatch) : Prop :=
  mark < batch.lastSeq ∧ ∀ m ∈ batch.members,mark < m.1

/-- A count that leaves 64 bits fails, and only if `total` leaves them. -/
def Counts {α : Type} (total : ℕ) (result : Except StoreError α) (post : α → Prop) : Prop :=
  match result with
  | .ok a => post a
  | .error e => e = .generationOverflow ∧ 2^64 ≤ total

theorem Counts.bind {α β : Type} {total : ℕ} {x : Except StoreError α}
    {f : α → Except StoreError β} {post : α → Prop} {post' : β → Prop} (h : Counts total x post)
    (hf : ∀ a,post a → Counts total (f a) post') : Counts total (x >>= f) post' := by
  cases x with
  | error e => exact h
  | ok a => exact hf a h

theorem Counts.of_lt {α : Type} {total : ℕ} {x : Except StoreError α} {post : α → Prop}
    (h : Counts total x post) (hlt : total < 2^64) : ∃ a,x = .ok a ∧ post a := by
  cases x with
  | error e => exact absurd h.2 (by omega)
  | ok a => exact ⟨a,rfl,h⟩

theorem Counts.imp {α : Type} {total : ℕ} {x : Except StoreError α} {post post' : α → Prop}
    (h : Counts total x post) (hpost : ∀ a,post a → post' a) : Counts total x post' := by
  cases x with
  | error e => exact h
  | ok a => exact hpost a h

theorem addGeneration_counts (generation count : U64) {total : ℕ}
    (h : generation.toNat+count.toNat ≤ total) :
    Counts total (addGeneration generation count) fun next =>
      next.toNat = generation.toNat+count.toNat := by
  unfold addGeneration
  by_cases hlt : generation.toNat+count.toNat < 2^64
  · rw [checkedAdd_of_lt hlt]
    exact (BitVec.toNat_add ..).trans (Nat.mod_eq_of_lt hlt)
  · rw [checkedAdd,if_neg hlt]
    exact ⟨rfl,by omega⟩

theorem subGeneration_of_le (generation count : U64) (h : count.toNat ≤ generation.toNat) :
    ∃ next,subGeneration generation count = .ok next ∧
      next.toNat = generation.toNat-count.toNat := by
  obtain ⟨next,hsub,hnat⟩ := checkedSub_of_le h
  exact ⟨next,by rw [subGeneration,hsub],hnat⟩

theorem restoreBumps_counts (lastSeq : LogSeq) (generation : U64) (rows : List (U64 × U64))
    {total : ℕ} (h : generation.toNat+bumpTotal rows ≤ total) :
    Counts total (restoreBumps lastSeq generation rows) fun next =>
      next.2 = bumpsFrom lastSeq rows ∧
        next.1.toNat = generation.toNat+bumpTotal (bumpsBefore lastSeq rows) := by
  induction rows generalizing generation with
  | nil => exact ⟨rfl,rfl⟩
  | cons row rows ih =>
    obtain ⟨sequence,count⟩ := row
    simp only [bumpTotal_cons] at h
    by_cases hlt : sequence < lastSeq
    · rw [restoreBumps,if_pos hlt,bumpsFrom,bumpsBefore,
        dropWhile_cons_of_pos (by simpa using hlt),takeWhile_cons_of_pos (by simpa using hlt)]
      apply (addGeneration_counts generation count (by omega)).bind
      intro after hafter
      refine (ih after (by omega)).imp fun next hnext => ⟨hnext.1,?_⟩
      rw [hnext.2,hafter,bumpTotal_cons,Nat.add_assoc]
      rfl
    · rw [restoreBumps,if_neg hlt,bumpsFrom,bumpsBefore,
        dropWhile_cons_of_neg (by simpa using hlt),takeWhile_cons_of_neg (by simpa using hlt)]
      exact ⟨rfl,rfl⟩

theorem restoreAllBumps_counts (generation : U64) (rows : List (U64 × U64)) {total : ℕ}
    (h : generation.toNat+bumpTotal rows ≤ total) :
    Counts total (restoreAllBumps generation rows) fun next =>
      next.toNat = generation.toNat+bumpTotal rows := by
  induction rows generalizing generation with
  | nil => exact (Nat.add_zero _).symm
  | cons row rows ih =>
    simp only [bumpTotal_cons] at h
    apply (addGeneration_counts generation row.2 (by omega)).bind
    intro after hafter
    have hrest:=ih after (by omega)
    simpa only [bumpTotal_cons,hafter,Nat.add_assoc] using hrest

theorem withoutBumps_spec (generation : U64) (rows : List (U64 × U64))
    (h : bumpTotal rows ≤ generation.toNat) :
    ∃ next,withoutBumps generation rows = .ok next ∧
      next.toNat = generation.toNat-bumpTotal rows := by
  induction rows generalizing generation with
  | nil => exact ⟨generation,rfl,rfl⟩
  | cons row rows ih =>
    rw [bumpTotal_cons] at h ⊢
    obtain ⟨after,hsub,hafter⟩ := subGeneration_of_le generation row.2 (by omega)
    obtain ⟨next,hnext,hnat⟩ := ih after (by omega)
    refine ⟨next,?_,by omega⟩
    rw [withoutBumps,hsub,ok_bind,hnext]

theorem maxWord_lt {w : ℕ} {a b c : BitVec w} (ha : a < c) (hb : b < c) : maxWord a b < c := by
  unfold maxWord
  split
  · exact hb
  · exact ha

theorem le_maxWord {w : ℕ} (a b : BitVec w) : a ≤ maxWord a b ∧ b ≤ maxWord a b := by
  unfold maxWord
  split
  · rename_i hle
    exact ⟨hle,BitVec.le_refl _⟩
  · rename_i hle
    exact ⟨BitVec.le_refl _,BitVec.le_of_lt (BitVec.not_le.mp hle)⟩

section Marks
variable (absorbedThrough graphAbsorbedThrough : U64) (graphEnabled : Bool)

/-- A batch below the larger mark that holds no graph commit behind the graph's own. -/
structure Early (batch : CommittedBatch) : Prop where
  lastSeq_le : batch.lastSeq ≤ maxWord absorbedThrough graphAbsorbedThrough
  whole : splitsBatch batch absorbedThrough = false
  graph_whole : splitsBatch batch graphAbsorbedThrough = false
  commits : ∀ m ∈ batch.members,∀ bytes,m.2.2 = .graphCommit bytes → m.1 ≤ graphAbsorbedThrough

variable {lastSeq : LogSeq} {members : List (LogSeq × U16 × MutationPayload)}

theorem replayMember_spec (tail : Tail) {m : LogSeq × U16 × MutationPayload}
    (hbehind : absorbedThrough < m.1 ∧ graphAbsorbedThrough < m.1)
    (hok : match m.2.2 with
      | .graphCommit _ => graphEnabled = true ∧ m.1 = lastSeq
      | .upsert document => validateColumns document = .ok ()
      | .delete _ => True
      | _ => False) :
    replayMember validateColumns absorbedThrough graphAbsorbedThrough graphEnabled lastSeq tail m =
      .ok { tail with
        graph := tail.graph++graphCommits ⟨lastSeq,[m]⟩ tail.generation
        steps := tail.steps++replaySteps ⟨lastSeq,[m]⟩ } := by
  obtain ⟨seq,op,mutation⟩ := m
  have hdoc : ¬ seq ≤ absorbedThrough := BitVec.not_le.mpr hbehind.1
  have hgraph : ¬ seq ≤ graphAbsorbedThrough := BitVec.not_le.mpr hbehind.2
  cases mutation with
  | graphCommit bytes =>
    obtain ⟨rfl,rfl⟩ := hok
    simp [replayMember,hgraph,graphCommits,replaySteps]
  | upsert document =>
    have hcolumns : validateColumns document = .ok () := hok
    simp [replayMember,hdoc,hcolumns,graphCommits,replaySteps]
  | delete docIds => simp [replayMember,hdoc,graphCommits,replaySteps]
  | metadataEdit edit => exact hok.elim
  | batchMember index count document => exact hok.elim
  | mixedBatchMember index count innerOp inner => exact hok.elim

theorem replayMembers_spec (tail : Tail)
    (hbehind : ∀ m ∈ members,absorbedThrough < m.1 ∧ graphAbsorbedThrough < m.1)
    (hok : Replayable validateColumns graphEnabled ⟨lastSeq,members⟩) :
    members.foldlM
        (replayMember validateColumns absorbedThrough graphAbsorbedThrough graphEnabled lastSeq) tail =
      .ok { tail with
        graph := tail.graph++graphCommits ⟨lastSeq,members⟩ tail.generation
        steps := tail.steps++replaySteps ⟨lastSeq,members⟩ } := by
  induction members generalizing tail with
  | nil => simp [graphCommits,replaySteps,pure,Except.pure]
  | cons m ms ih =>
    rw [foldlM_cons,replayMember_spec validateColumns absorbedThrough graphAbsorbedThrough
      graphEnabled tail (hbehind m (mem_cons_self ..)) (hok m (mem_cons_self ..)),ok_bind,
      ih _ (fun m hm => hbehind m (mem_cons_of_mem _ hm))
        fun m hm => hok m (mem_cons_of_mem _ hm)]
    simp only [graphCommits,replaySteps,append_assoc,← filterMap_append,
      singleton_append]

theorem replayMembers_early (tail : Tail)
    (hcommits : ∀ m ∈ members,∀ bytes,m.2.2 = .graphCommit bytes → m.1 ≤ graphAbsorbedThrough)
    (hok : Replayable validateColumns graphEnabled ⟨lastSeq,members⟩) :
    ∃ steps,members.foldlM
        (replayMember validateColumns absorbedThrough graphAbsorbedThrough graphEnabled lastSeq) tail =
      .ok { tail with steps } := by
  induction members generalizing tail with
  | nil => exact ⟨tail.steps,rfl⟩
  | cons m ms ih =>
    obtain ⟨seq,op,mutation⟩ := m
    have hm:=hok _ (mem_cons_self ..)
    obtain ⟨steps,hstep⟩ : ∃ steps,replayMember validateColumns absorbedThrough
        graphAbsorbedThrough graphEnabled lastSeq tail (seq,op,mutation) =
        .ok { tail with steps } := by
      cases mutation with
      | graphCommit bytes =>
        have hle : seq ≤ graphAbsorbedThrough := hcommits _ (mem_cons_self ..) bytes rfl
        obtain rfl : seq = lastSeq := hm.2
        refine ⟨tail.steps,?_⟩
        simp [replayMember,hle]
      | upsert document =>
        have hcolumns : validateColumns document = .ok () := hm
        simp only [replayMember,hcolumns]
        split
        · exact ⟨tail.steps,rfl⟩
        · exact ⟨_,rfl⟩
      | delete docIds =>
        simp only [replayMember]
        split
        · exact ⟨tail.steps,rfl⟩
        · exact ⟨_,rfl⟩
      | metadataEdit edit => exact hm.elim
      | batchMember index count document => exact hm.elim
      | mixedBatchMember index count innerOp inner => exact hm.elim
    rw [foldlM_cons,hstep,ok_bind]
    exact ih _ (fun m hm => hcommits m (mem_cons_of_mem _ hm))
      fun m hm => hok m (mem_cons_of_mem _ hm)

variable {batch : CommittedBatch} {batches ear all : List CommittedBatch}

theorem splitsBatch_behind {mark : U64} (h : Behind mark batch) :
    splitsBatch batch mark = false := by
  unfold splitsBatch
  cases hhead : batch.members.head? with
  | none => rfl
  | some m =>
    have hm : mark < m.1 := h.2 m (mem_of_head? hhead)
    have hnot : ¬ m.1 ≤ mark := BitVec.not_le.mpr hm
    simp [hnot]

theorem Behind.mono {mark mark' : U64} (h : Behind mark batch) (hle : mark' ≤ mark) :
    Behind mark' batch := by
  have hle:=BitVec.le_def.mp hle
  refine ⟨BitVec.lt_def.mpr (hle.trans_lt (BitVec.lt_def.mp h.1)),fun m hm => ?_⟩
  exact BitVec.lt_def.mpr (hle.trans_lt (BitVec.lt_def.mp (h.2 m hm)))

theorem replayBatch_counts (tail : Tail) {total : ℕ}
    (hbehind : Behind (maxWord absorbedThrough graphAbsorbedThrough) batch)
    (hok : Replayable validateColumns graphEnabled batch)
    (hle : tail.generation.toNat+bumpTotal tail.bumps+1 ≤ total) :
    Counts total (replayBatch validateColumns absorbedThrough graphAbsorbedThrough graphEnabled
        tail batch) fun next =>
      next = ⟨next.generation,bumpsFrom batch.lastSeq tail.bumps,
          tail.graph++graphCommits batch next.generation,tail.steps++replaySteps batch⟩ ∧
      next.generation.toNat =
        tail.generation.toNat+bumpTotal (bumpsBefore batch.lastSeq tail.bumps)+1 := by
  have hdoc:=hbehind.mono (le_maxWord absorbedThrough graphAbsorbedThrough).1
  have hgraph:=hbehind.mono (le_maxWord absorbedThrough graphAbsorbedThrough).2
  have htotal:=bumpTotal_split batch.lastSeq tail.bumps
  have hone : (1 : U64).toNat = 1 := rfl
  unfold replayBatch
  apply (restoreBumps_counts batch.lastSeq tail.generation tail.bumps (by omega)).bind
  rintro ⟨after,bumps⟩ ⟨rfl,hafter⟩
  simp only [splitsBatch_behind hdoc,splitsBatch_behind hgraph,Bool.or_self,Bool.and_false,
    Bool.false_eq_true,if_false,gt_iff_lt,if_pos hbehind.1]
  apply (addGeneration_counts after 1 (by simp only at hafter; omega)).bind
  intro generation hgeneration
  rw [show batch = ⟨batch.lastSeq,batch.members⟩ from rfl,replayMembers_spec validateColumns
    absorbedThrough graphAbsorbedThrough graphEnabled _
    (fun m hm => ⟨hdoc.2 m hm,hgraph.2 m hm⟩) hok]
  exact ⟨rfl,by simp only at hafter ⊢; omega⟩

theorem replayBatches_counts (tail : Tail) {total : ℕ}
    (hbehind : ∀ b ∈ batches,Behind (maxWord absorbedThrough graphAbsorbedThrough) b)
    (hok : ∀ b ∈ batches,Replayable validateColumns graphEnabled b)
    (hle : tail.generation.toNat+bumpTotal tail.bumps+batches.length ≤ total) :
    Counts total (batches.foldlM (replayBatch validateColumns absorbedThrough graphAbsorbedThrough
        graphEnabled) tail) fun next =>
      next.generation.toNat+bumpTotal next.bumps =
        tail.generation.toNat+bumpTotal tail.bumps+batches.length ∧
      next.graph = tail.graph++(assign tail.generation.toNat tail.bumps batches).flatMap
        (fun a => graphCommits a.1 (BitVec.ofNat 64 a.2)) ∧
      next.steps = tail.steps++batches.flatMap replaySteps := by
  induction batches generalizing tail with
  | nil => exact ⟨rfl,by simp [assign],by simp⟩
  | cons b bs ih =>
    rw [length_cons] at hle ⊢
    have hsplit:=bumpTotal_split b.lastSeq tail.bumps
    rw [foldlM_cons]
    apply (replayBatch_counts validateColumns absorbedThrough graphAbsorbedThrough graphEnabled tail
      (hbehind b (mem_cons_self ..)) (hok b (mem_cons_self ..)) (by omega)).bind
    intro next hnext
    obtain ⟨hsame,hnat⟩ := hnext
    rw [hsame]
    have hrest:=ih ⟨next.generation,bumpsFrom b.lastSeq tail.bumps,
      tail.graph++graphCommits b next.generation,tail.steps++replaySteps b⟩
      (fun b hb => hbehind b (mem_cons_of_mem _ hb)) (fun b hb => hok b (mem_cons_of_mem _ hb))
      (by simp only; omega)
    refine hrest.imp fun last hlast => ?_
    obtain ⟨htotal,hcommits,hsteps⟩ := hlast
    refine ⟨?_,?_,?_⟩
    · simp only at htotal
      omega
    · have hword : BitVec.ofNat 64 next.generation.toNat = next.generation := by simp
      rw [hcommits,assign,flatMap_cons,← hnat,hword,append_assoc]
    · rw [hsteps,flatMap_cons,append_assoc]

theorem replayBatches_early (tail : Tail)
    (hear : ∀ b ∈ ear,Early absorbedThrough graphAbsorbedThrough b)
    (hok : ∀ b ∈ ear,Replayable validateColumns graphEnabled b)
    (hrows : ∀ row ∈ tail.bumps,maxWord absorbedThrough graphAbsorbedThrough ≤ row.1) :
    ∃ steps,ear.foldlM (replayBatch validateColumns absorbedThrough graphAbsorbedThrough
        graphEnabled) tail = .ok { tail with steps } := by
  induction ear generalizing tail with
  | nil => exact ⟨tail.steps,rfl⟩
  | cons b bs ih =>
    have hb:=hear b (mem_cons_self ..)
    obtain ⟨steps,hmembers⟩ := replayMembers_early validateColumns absorbedThrough
      graphAbsorbedThrough graphEnabled tail hb.commits (hok b (mem_cons_self ..))
    have hrestore : restoreBumps b.lastSeq tail.generation tail.bumps =
        .ok (tail.generation,tail.bumps) := by
      cases hbumps : tail.bumps with
      | nil => rfl
      | cons row rows =>
        have hrow:=hrows row (by rw [hbumps]; exact mem_cons_self ..)
        rw [restoreBumps,if_neg (BitVec.not_lt.mpr (BitVec.le_trans hb.lastSeq_le hrow))]
    have hstep : replayBatch validateColumns absorbedThrough graphAbsorbedThrough graphEnabled tail
        b = .ok { tail with steps } := by
      simp only [replayBatch,hrestore,ok_bind,hb.whole,hb.graph_whole,Bool.or_self,
        Bool.and_false,Bool.false_eq_true,if_false,gt_iff_lt,
        if_neg (BitVec.not_lt.mpr hb.lastSeq_le)]
      exact hmembers
    rw [foldlM_cons,hstep,ok_bind]
    exact ih _ (fun b hb => hear b (mem_cons_of_mem _ hb)) (fun b hb => hok b (mem_cons_of_mem _ hb))
      hrows

def manifestBumps (graphManifest : Option GraphManifest) : List (U64 × U64) :=
  (graphManifest.elim [] GraphManifest.generationBumps).filter fun row =>
    maxWord absorbedThrough graphAbsorbedThrough ≤ row.1

/-- The replay of `ear ++ batches` counts the batches behind both marks only. -/
theorem replayCommitted_counts {generation start nextSeq : U64}
    {graphManifest : Option GraphManifest} {records : List VisibleRecord}
    (hall : all = ear++batches)
    (hstart : startGeneration generation absorbedThrough graphAbsorbedThrough graphManifest records
      nextSeq all = .ok start)
    (hear : ∀ b ∈ ear,Early absorbedThrough graphAbsorbedThrough b)
    (hbehind : ∀ b ∈ batches,Behind (maxWord absorbedThrough graphAbsorbedThrough) b)
    (hok : ∀ b ∈ all,Replayable validateColumns graphEnabled b)
    (hbumps : bumpTotal (manifestBumps absorbedThrough graphAbsorbedThrough graphManifest) ≤
      start.toNat) :
    Counts (start.toNat+batches.length) (replayCommitted validateColumns generation absorbedThrough
        graphAbsorbedThrough graphManifest graphEnabled records nextSeq all) fun tail =>
      tail.generation.toNat = start.toNat+batches.length ∧
      tail.graph = (assign (start.toNat-bumpTotal (manifestBumps absorbedThrough
        graphAbsorbedThrough graphManifest)) (manifestBumps absorbedThrough graphAbsorbedThrough
        graphManifest) batches).flatMap (fun a => graphCommits a.1 (BitVec.ofNat 64 a.2)) ∧
      (ear = [] → tail.steps = batches.flatMap replaySteps) := by
  obtain ⟨base,hbase,hbaseNat⟩ := withoutBumps_spec start _ hbumps
  subst hall
  obtain ⟨steps,hearly⟩ := replayBatches_early validateColumns absorbedThrough
    graphAbsorbedThrough graphEnabled
    ⟨base,manifestBumps absorbedThrough graphAbsorbedThrough graphManifest,[],[]⟩ hear
    (fun b hb => hok b (mem_append_left _ hb)) (by simp [manifestBumps])
  have hsteps : ear = [] → steps = [] := by
    rintro rfl
    exact (congrArg Tail.steps (Except.ok.inj hearly)).symm
  rw [manifestBumps] at hbase
  simp only [replayCommitted,hstart,ok_bind,hbase,foldlM_append]
  rw [manifestBumps] at hearly
  rw [hearly,ok_bind]
  apply (replayBatches_counts validateColumns absorbedThrough graphAbsorbedThrough graphEnabled _
    hbehind (fun b hb => hok b (mem_append_right _ hb)) (by rw [manifestBumps] at *; simp only; omega)).bind
  intro next hnext
  obtain ⟨htotal,hcommits,hnextSteps⟩ := hnext
  rw [manifestBumps] at *
  simp only at htotal
  apply (restoreAllBumps_counts next.generation next.bumps (by omega)).bind
  intro final hfinal
  refine ⟨by simp only; omega,by simp only [hcommits,nil_append,hbaseNat],?_⟩
  intro hnil
  simp only [hnextSteps,hsteps hnil,nil_append]

end Marks

end Columns

theorem refuseGraphRecords_ok {graphEnabled : Bool} {records : List VisibleRecord}
    (h : graphEnabled = true ∨ ∀ r ∈ records,r.op ≠ graphCommitV1 ∧ r.op ≠ mixedBatchMemberV1) :
    refuseGraphRecords graphEnabled records = .ok () := by
  have hfind : records.find? (fun r => !graphEnabled &&
      (r.op = graphCommitV1 || r.op = mixedBatchMemberV1)) = none := by
    rw [find?_eq_none]
    intro r hr
    rcases h with rfl | hops
    · simp
    · simp [hops r hr]
  rw [refuseGraphRecords,hfind]

end Zeppelin.Ingest
