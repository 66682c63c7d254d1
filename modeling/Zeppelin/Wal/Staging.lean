import Zeppelin.Wal.Writer

namespace Zeppelin.Wal
open List

variable {front : List Group} {g : Group}

theorem getLast?_of_concat {st : WriterState}
    (h : st.pendingGroups = front++[g]) : st.pendingGroups.getLast? = some g := by
  rw [h,getLast?_concat]

theorem modifyBack_concat {st : WriterState} (f : Group → Group)
    (h : st.pendingGroups = front++[g]) :
    modifyBack f st = { st with pendingGroups := front++[f g] } := by
  simp only [modifyBack,h,getLast?_concat,dropLast_concat]

theorem exists_concat_of_ne_nil {l : List Group} (h : l ≠ []) : ∃ front g,l = front++[g] :=
  ⟨l.dropLast,l.getLast h,(dropLast_append_getLast h).symm⟩

theorem concat_eq_singleton {a : Group} (h : front++[g] = [a]) : front = [] ∧ g = a := by
  obtain ⟨hf,hg⟩ := append_inj' (h.trans (nil_append [a]).symm) rfl
  exact ⟨hf,singleton_inj.mp hg⟩

theorem ensurePendingGroup_of_ne_nil {st : WriterState} (h : st.pendingGroups ≠ []) :
    ensurePendingGroup st = st := if_neg h

theorem ensurePendingGroup_of_nil {st : WriterState} (h : st.pendingGroups = []) :
    ensurePendingGroup st =
      { st with pendingGroups := [⟨st.spareChunks,0,0,none⟩],spareChunks := [] } := by
  rw [ensurePendingGroup,if_pos h]
  simp only [pushEmptyPendingGroup,h,nil_append]

theorem ensurePendingGroup_ne_nil (st : WriterState) :
    (ensurePendingGroup st).pendingGroups ≠ [] := by
  unfold ensurePendingGroup
  split
  · simp [pushEmptyPendingGroup]
  · assumption

section Bound
variable (bound : GroupBound)

/-- The chunk that covers the bytes placed since `cur.chunkStart`, if any. -/
def openChunk (encoded : Bytes) (chunkStart offset : ℕ) : List EncodedChunk :=
  if chunkStart < offset then [⟨encoded,chunkStart,offset⟩] else []

theorem closeBackGroup_concat {st : WriterState} {front : List Group} {g : Group} (encoded : Bytes)
    (cur : SplitCursor) (h : st.pendingGroups = front++[g]) :
    closeBackGroup encoded cur st = { st with
      pendingGroups := front++[{ g with
        chunks := g.chunks++openChunk encoded cur.chunkStart cur.offset }]++
          [⟨st.spareChunks,0,0,none⟩]
      spareChunks := [] } := by
  by_cases hc : cur.chunkStart < cur.offset
  · simp only [closeBackGroup,if_pos hc,modifyBack_concat _ h,pushEmptyPendingGroup,openChunk]
  · simp only [closeBackGroup,if_neg hc,pushEmptyPendingGroup,openChunk,h,append_nil]

theorem placeRecord_done (encoded : Bytes) (recordEnd : ℕ) (cur : SplitCursor) (st : WriterState)
    (h : cur.offset = recordEnd) : placeRecord bound encoded recordEnd cur st = (.ok cur,st) := by
  rw [placeRecord,dif_neg (by omega)]

theorem placeRecord_fits (encoded : Bytes) (recordEnd : ℕ) (cur : SplitCursor) (st : WriterState)
    (front : List Group) (g : Group) (hst : st.pendingGroups = front++[g])
    (hlt : cur.offset < recordEnd) (hfit : g.encodedBytes+(recordEnd-cur.offset) ≤ bound.bytes) :
    placeRecord bound encoded recordEnd cur st = (.ok ⟨recordEnd,cur.chunkStart⟩,
      { st with pendingGroups := front++
        [{ g with encodedBytes := g.encodedBytes+(recordEnd-cur.offset) }] }) := by
  have hlast:=getLast?_of_concat hst
  have hwritten : min (bound.bytes-g.encodedBytes) (recordEnd-cur.offset) =
      recordEnd-cur.offset := by omega
  rw [placeRecord,dif_pos hlt]
  split
  · rename_i hnone
    rw [hlast] at hnone
    cases hnone
  · rename_i group hsome
    rw [hlast] at hsome
    obtain rfl := Option.some.inj hsome
    dsimp only
    rw [dif_neg (by omega),hwritten,modifyBack_concat _ hst,placeRecord_done]
    · simp only [Prod.mk.injEq,Except.ok.injEq,SplitCursor.mk.injEq,and_true]
      omega
    · dsimp only
      omega

theorem placeRecord_full (encoded : Bytes) (recordEnd : ℕ) (cur : SplitCursor) (st : WriterState)
    (front : List Group) (g : Group) (hst : st.pendingGroups = front++[g])
    (hlt : cur.offset < recordEnd) (hfull : g.encodedBytes = bound.bytes)
    (hlen : recordEnd-cur.offset ≤ bound.bytes) :
    placeRecord bound encoded recordEnd cur st = (.ok ⟨recordEnd,cur.offset⟩,
      { st with
        pendingGroups := front++[{ g with
          chunks := g.chunks++openChunk encoded cur.chunkStart cur.offset }]++
            [⟨st.spareChunks,recordEnd-cur.offset,0,none⟩]
        spareChunks := [] }) := by
  have hlast:=getLast?_of_concat hst
  rw [placeRecord,dif_pos hlt]
  split
  · rename_i hnone
    rw [hlast] at hnone
    cases hnone
  · rename_i group hsome
    rw [hlast] at hsome
    obtain rfl := Option.some.inj hsome
    dsimp only
    rw [dif_pos (by omega),closeBackGroup_concat encoded cur hst]
    rw [placeRecord_fits bound encoded recordEnd ⟨cur.offset,cur.offset⟩ _ _
      ⟨st.spareChunks,0,0,none⟩ rfl hlt (by dsimp only; omega)]
    simp only [Nat.zero_add]

theorem placeRecord_splits (encoded : Bytes) (recordEnd : ℕ) (cur : SplitCursor) (st : WriterState)
    (front : List Group) (g : Group) (hst : st.pendingGroups = front++[g])
    (hle : g.encodedBytes ≤ bound.bytes)
    (hsplit : bound.bytes < g.encodedBytes+(recordEnd-cur.offset))
    (hlen : recordEnd-cur.offset ≤ bound.bytes) :
    placeRecord bound encoded recordEnd cur st =
      (.ok ⟨recordEnd,cur.offset+(bound.bytes-g.encodedBytes)⟩,{ st with
        pendingGroups := front++[{ g with
          encodedBytes := bound.bytes
          chunks := g.chunks++openChunk encoded cur.chunkStart
            (cur.offset+(bound.bytes-g.encodedBytes)) }]++
            [⟨st.spareChunks,recordEnd-cur.offset-(bound.bytes-g.encodedBytes),0,none⟩]
        spareChunks := [] }) := by
  have hpos : cur.offset < recordEnd := by omega
  by_cases hfull : g.encodedBytes = bound.bytes
  · rw [placeRecord_full bound encoded recordEnd cur st front g hst hpos hfull hlen]
    simp only [hfull,Nat.sub_self,Nat.add_zero,Nat.sub_zero]
  · have hlast:=getLast?_of_concat hst
    have hwritten : min (bound.bytes-g.encodedBytes) (recordEnd-cur.offset) =
        bound.bytes-g.encodedBytes := by omega
    have hsum : g.encodedBytes+(bound.bytes-g.encodedBytes) = bound.bytes := by omega
    rw [placeRecord,dif_pos hpos]
    split
    · rename_i hnone
      rw [hlast] at hnone
      cases hnone
    · rename_i group hsome
      rw [hlast] at hsome
      obtain rfl := Option.some.inj hsome
      dsimp only
      rw [dif_neg (by omega),hwritten,modifyBack_concat _ hst]
      rw [placeRecord_full bound encoded recordEnd _ _ front
        { g with encodedBytes := g.encodedBytes+(bound.bytes-g.encodedBytes) } rfl
        (by dsimp only; omega) hsum (by dsimp only; omega)]
      simp only [hsum,Prod.mk.injEq,true_and]
      simp only [Nat.sub_sub]

/-- The state behind a record that was placed: the queue, and the record itself
among the visible ones. -/
def placedState (encoded : Bytes) (seq : LogSeq) (op : U16) (len offset : ℕ) (queue : List Group)
    (spare : List EncodedChunk) (st : WriterState) : WriterState :=
  { st with
    pendingGroups := queue
    spareChunks := spare
    retainedBytes := st.retainedBytes+len
    visible := st.visible++[⟨seq,op,encoded,offset,offset+len⟩] }

theorem splitBatch_cons_fits (encoded : Bytes) (seq : LogSeq) (op : U16) (len : ℕ)
    (rs : List (U16 × ℕ)) (cur : SplitCursor) (st : WriterState) (front : List Group) (g : Group)
    (hst : st.pendingGroups = front++[g]) (hpos : 0 < len)
    (hfit : g.encodedBytes+len ≤ bound.bytes) :
    splitBatch bound encoded seq ((op,len)::rs) cur st =
      splitBatch bound encoded (saturatingAdd seq 1) rs ⟨cur.offset+len,cur.chunkStart⟩
        (placedState encoded seq op len cur.offset
          (front++[⟨g.chunks,g.encodedBytes+len,g.records+1,some seq⟩])
          st.spareChunks st) := by
  have hend : cur.offset+len-cur.offset = len := by omega
  have hplace:=placeRecord_fits bound encoded (cur.offset+len) cur st front g hst (by omega)
    (by rw [hend]; exact hfit)
  rw [hend] at hplace
  have hqueue : ({ st with pendingGroups := front++
      [{ g with encodedBytes := g.encodedBytes+len }] } : WriterState).pendingGroups =
      front++[{ g with encodedBytes := g.encodedBytes+len }] := rfl
  simp only [splitBatch,hplace,modifyBack_concat _ hqueue]
  rfl

theorem splitBatch_cons_splits (encoded : Bytes) (seq : LogSeq) (op : U16) (len : ℕ)
    (rs : List (U16 × ℕ)) (cur : SplitCursor) (st : WriterState) (front : List Group) (g : Group)
    (hst : st.pendingGroups = front++[g]) (hle : g.encodedBytes ≤ bound.bytes)
    (hsplit : bound.bytes < g.encodedBytes+len) (hlen : len ≤ bound.bytes) :
    splitBatch bound encoded seq ((op,len)::rs) cur st =
      splitBatch bound encoded (saturatingAdd seq 1) rs
        ⟨cur.offset+len,cur.offset+(bound.bytes-g.encodedBytes)⟩
        (placedState encoded seq op len cur.offset
          (front++[⟨g.chunks++openChunk encoded cur.chunkStart
              (cur.offset+(bound.bytes-g.encodedBytes)),bound.bytes,g.records,g.lastSeq⟩]++
            [⟨st.spareChunks,len-(bound.bytes-g.encodedBytes),1,some seq⟩]) [] st) := by
  have hend : cur.offset+len-cur.offset = len := by omega
  have hplace:=placeRecord_splits bound encoded (cur.offset+len) cur st front g hst hle
    (by rw [hend]; exact hsplit) (by rw [hend]; exact hlen)
  rw [hend] at hplace
  simp only [splitBatch,hplace,modifyBack,getLast?_concat,dropLast_concat]
  rfl

end Bound

theorem claimBarrier_eq (st : WriterState) :
    claimBarrier st = (!st.barrierInFlight,{ st with barrierInFlight := true }) := by
  cases hb : st.barrierInFlight with
  | false => simp only [claimBarrier,hb,Bool.not_false,ite_true]
  | true =>
    simp only [claimBarrier,hb,Bool.not_true,Bool.false_eq_true,ite_false,Prod.mk.injEq,
      true_and]
    rw [← hb]

section Checksum
variable (xxh3 : Bytes → U64) (bound : GroupBound)

/-- A `stage` call that fails only after it has looked at the queue: the record
alone exceeds the group bound, or the sequence space is exhausted. -/
def StageRefusesLate (payload : Bytes) (st : WriterState) : Prop :=
  payload.length < 2^32 ∧ st.failure = none ∧
    (bound.bytes < minRecordLen+payload.length ∨ 2^64 ≤ st.nextSeq.toNat+1)

/-- A `stage_many` call that fails only after it has looked at the queue: the
sequence space is exhausted, or the encoder fails. -/
def StageManyRefusesLate (encode : Encoder) (records : List (U16 × Bytes)) (st : WriterState) :
    Prop :=
  records ≠ [] ∧
    (∀ r ∈ records,r.2.length < 2^32 ∧ minRecordLen+r.2.length ≤ bound.bytes) ∧
    st.failure = none ∧
    (2^64 ≤ st.nextSeq.toNat+records.length ∨
      ∃ e,encodeBatch encode 0 st.nextSeq records [] = .error e)

def stagedGroup (g : Group) (encoded : Bytes) (encodedLen : ℕ) (seq : LogSeq) : Group :=
  ⟨g.chunks++[⟨encoded,0,encodedLen⟩],g.encodedBytes+encodedLen,g.records+1,some seq⟩

/-- A successful `stage` call, from the queue with its back group in place. -/
structure StageSuccess (op : U16) (payload : Bytes) (st st' : WriterState) (front : List Group)
    (g : Group) : Prop where
  queue : (ensurePendingGroup st).pendingGroups = front++[g]
  alive : st.failure = none
  framable : payload.length < 2^32
  fits : g.encodedBytes+(minRecordLen+payload.length) ≤ bound.bytes
  room : st.nextSeq.toNat+1 < 2^64
  result : st' = { ensurePendingGroup st with
    pendingGroups := front++[stagedGroup g (recordBytes xxh3 ⟨st.nextSeq,op,payload⟩)
      (minRecordLen+payload.length) st.nextSeq]
    nextSeq := st.nextSeq+1
    encodedBufferAllocations := st.encodedBufferAllocations+1
    retainedBytes := st.retainedBytes+(minRecordLen+payload.length)
    visible := st.visible++[⟨st.nextSeq,op,recordBytes xxh3 ⟨st.nextSeq,op,payload⟩,0,
      minRecordLen+payload.length⟩]
    barrierInFlight := true }

theorem ensurePendingGroup_fields (st : WriterState) :
    (ensurePendingGroup st).nextSeq = st.nextSeq ∧
      (ensurePendingGroup st).failure = st.failure ∧
      (ensurePendingGroup st).barrierInFlight = st.barrierInFlight ∧
      (ensurePendingGroup st).durableEnd = st.durableEnd ∧
      (ensurePendingGroup st).visible = st.visible ∧
      (ensurePendingGroup st).retainedBytes = st.retainedBytes ∧
      (ensurePendingGroup st).encodedBufferAllocations = st.encodedBufferAllocations := by
  unfold ensurePendingGroup
  split <;> exact ⟨rfl,rfl,rfl,rfl,rfl,rfl,rfl⟩

theorem stage_cases {op : U16} {payload : Bytes} {st st' : WriterState} {out : StageOutcome}
    (h : stage xxh3 bound op payload st = (out,st')) :
    (∃ e,out = .refused e ∧ st' = st) ∨
    (∃ e,out = .refused e ∧ st.pendingGroups = [] ∧ st' = ensurePendingGroup st ∧
      StageRefusesLate bound payload st) ∨
    (out = .waiting ∧ st' = st) ∨
    (out = .staged st.nextSeq (!st.barrierInFlight) ∧
      ∃ front g,StageSuccess xxh3 bound op payload st st' front g) := by
  obtain ⟨hseq,hfail,hbar,-,hvis,hret,halloc⟩ := ensurePendingGroup_fields st
  obtain ⟨front,g,hq⟩ := exists_concat_of_ne_nil (ensurePendingGroup_ne_nil st)
  have hlast:=getLast?_of_concat hq
  by_cases hp : payload.length < 2^32
  swap
  · simp only [stage,encodedRecordLen,if_neg hp,Prod.mk.injEq] at h
    exact Or.inl ⟨_,h.1.symm,h.2.symm⟩
  cases hf : st.failure with
  | some f =>
    simp only [stage,encodedRecordLen,if_pos hp,hf,Prod.mk.injEq] at h
    exact Or.inl ⟨_,h.1.symm,h.2.symm⟩
  | none =>
    simp only [stage,encodedRecordLen,if_pos hp,hf,hlast,hseq] at h
    by_cases hfit : g.encodedBytes+(minRecordLen+payload.length) ≤ bound.bytes
    · simp only [if_pos hfit] at h
      by_cases hroom : st.nextSeq.toNat+1 < 2^64
      · have hadd : checkedAdd st.nextSeq 1 = some (st.nextSeq+1) :=
          checkedAdd_of_lt (by rw [toNat_one_64]; exact hroom)
        have henc:=encodeRecordInto_of_lt xxh3 ⟨st.nextSeq,op,payload⟩ hp
        simp only [hadd,henc,modifyBack_concat _ hq,claimBarrier_eq,Prod.mk.injEq] at h
        refine Or.inr (Or.inr (Or.inr ⟨by rw [← h.1,hbar],front,g,?_⟩))
        refine ⟨hq,hf,hp,hfit,hroom,?_⟩
        rw [← h.2]
        simp only [stagedGroup,hvis,hret,halloc]
      · have hadd : checkedAdd st.nextSeq 1 = none := by
          unfold checkedAdd
          rw [if_neg (by rw [toNat_one_64]; exact hroom)]
        simp only [hadd,Prod.mk.injEq] at h
        by_cases hnil : st.pendingGroups = []
        · exact Or.inr (Or.inl ⟨_,h.1.symm,hnil,h.2.symm,hp,hf,Or.inr (by omega)⟩)
        · rw [ensurePendingGroup_of_ne_nil hnil] at h
          exact Or.inl ⟨_,h.1.symm,h.2.symm⟩
    · simp only [if_neg hfit] at h
      by_cases hnil : st.pendingGroups = []
      · rw [ensurePendingGroup_of_nil hnil] at hq
        obtain ⟨-,rfl⟩ := concat_eq_singleton hq.symm
        simp only [ite_true,Prod.mk.injEq] at h
        simp only [Nat.zero_add] at hfit
        exact Or.inr (Or.inl ⟨_,h.1.symm,hnil,h.2.symm,hp,hf,Or.inl (by omega)⟩)
      · rw [ensurePendingGroup_of_ne_nil hnil] at h
        by_cases hr : g.records = 0
        · simp only [if_pos hr,Prod.mk.injEq] at h
          exact Or.inl ⟨_,h.1.symm,h.2.symm⟩
        · simp only [if_neg hr,Prod.mk.injEq] at h
          exact Or.inr (Or.inr (Or.inl ⟨h.1.symm,h.2.symm⟩))

def batchLengths (records : List (U16 × Bytes)) : List (U16 × ℕ) :=
  records.map fun r => (r.1,minRecordLen+r.2.length)

theorem encodedLengths_eq_ok {records : List (U16 × Bytes)} {lengths : List (U16 × ℕ)}
    (h : encodedLengths records = .ok lengths) :
    lengths = batchLengths records ∧ ∀ r ∈ records,r.2.length < 2^32 := by
  induction records generalizing lengths with
  | nil =>
    simp only [encodedLengths,Except.ok.injEq] at h
    exact ⟨h.symm,by simp⟩
  | cons r rs ih =>
    obtain ⟨op,payload⟩ := r
    simp only [encodedLengths,encodedRecordLen] at h
    by_cases hp : payload.length < 2^32
    · simp only [if_pos hp] at h
      cases hl : encodedLengths rs with
      | error e => simp [hl] at h
      | ok ls =>
        simp only [hl,Except.ok.injEq] at h
        obtain ⟨hls,hrs⟩ := ih hl
        refine ⟨by rw [← h,hls]; rfl,?_⟩
        intro q hq
        rcases mem_cons.mp hq with rfl | hq
        · exact hp
        · exact hrs q hq
    · simp only [if_neg hp] at h
      cases h

/-- A nonempty batch that passed every check of `stage_many`. -/
structure StageManyChecked (encode : Encoder) (records : List (U16 × Bytes))
    (st : WriterState) (encoded : Bytes) : Prop where
  nonempty : records ≠ []
  alive : st.failure = none
  framable : ∀ r ∈ records,r.2.length < 2^32
  bounded : ∀ r ∈ records,minRecordLen+r.2.length ≤ bound.bytes
  first_fits : ∀ g,(ensurePendingGroup st).pendingGroups.getLast? = some g → g.records = 0 →
    ∀ r,records.head? = some r → g.encodedBytes+(minRecordLen+r.2.length) ≤ bound.bytes
  room : st.nextSeq.toNat+records.length < 2^64
  encoded_eq : encodeBatch encode 0 st.nextSeq records [] = .ok encoded

section Checked
variable {bound} {encode : Encoder} {records : List (U16 × Bytes)} {st : WriterState}
  {encoded : Bytes}

theorem StageManyChecked.lengths (h : StageManyChecked bound encode records st encoded) :
    ∀ r ∈ batchLengths records,0 < r.2 ∧ r.2 ≤ bound.bytes := by
  intro r hr
  obtain ⟨q,hmem,rfl⟩ := mem_map.mp hr
  have hle:=h.bounded q hmem
  simp only [minRecordLen,recordHeaderLen,recordChecksumLen] at hle ⊢
  omega

theorem StageManyChecked.lengths_ne_nil (h : StageManyChecked bound encode records st encoded) :
    batchLengths records ≠ [] := by
  simpa [batchLengths] using h.nonempty

theorem StageManyChecked.next (h : StageManyChecked bound encode records st encoded)
    {front : List Group} {g : Group} (hq : (ensurePendingGroup st).pendingGroups = front++[g])
    (hback : g.lastSeq ≠ none ∨ g.records = 0) :
    g.lastSeq ≠ none ∨ ∀ r,(batchLengths records).head? = some r →
      g.encodedBytes+r.2 ≤ bound.bytes := by
  rcases hback with hl | hr
  · exact Or.inl hl
  · refine Or.inr fun r hhead => ?_
    simp only [batchLengths,head?_map,Option.map_eq_some_iff] at hhead
    obtain ⟨q,hq',rfl⟩ := hhead
    exact h.first_fits g (getLast?_of_concat hq) hr q hq'

end Checked

/-- A successful `stage_many` call on a nonempty batch. -/
structure StageManySuccess (encode : Encoder) (records : List (U16 × Bytes))
    (st st' : WriterState) (encoded : Bytes) (cur : SplitCursor) (mid : WriterState) : Prop
    extends StageManyChecked bound encode records st encoded where
  split : splitBatch bound encoded st.nextSeq (batchLengths records) ⟨0,0⟩
    (ensurePendingGroup st) = (.ok cur,mid)
  result : st' = { modifyBack (fun g => { g with
      chunks := g.chunks++[⟨encoded,cur.chunkStart,cur.offset⟩] }) mid with
    nextSeq := st.nextSeq+BitVec.ofNat 64 records.length
    encodedBufferAllocations := mid.encodedBufferAllocations+1
    barrierInFlight := true }

/-- Everything `stage_many_with_encoder` can do. The splitting loop has an error
exit of its own; it is never taken on a queue with a back group. -/
theorem stageMany_cases {encode : Encoder} {records : List (U16 × Bytes)} {st st' : WriterState}
    {out : StageManyOutcome} (h : stageManyWithEncoder bound encode records st = (out,st')) :
    (∃ e,out = .refused e ∧ st' = st) ∨
    (∃ e,out = .refused e ∧ st.pendingGroups = [] ∧ st' = ensurePendingGroup st ∧
      StageManyRefusesLate bound encode records st) ∨
    (records = [] ∧ out = .staged st.nextSeq st.nextSeq false ∧ st' = st ∧ st.failure = none) ∨
    (∃ e encoded,out = .refused e ∧ StageManyChecked bound encode records st encoded ∧
      splitBatch bound encoded st.nextSeq (batchLengths records) ⟨0,0⟩ (ensurePendingGroup st) =
        (.error e,st')) ∨
    (∃ encoded cur mid leader,out = .staged st.nextSeq
        (st.nextSeq+BitVec.ofNat 64 records.length) leader ∧
      leader = (!mid.barrierInFlight) ∧
      StageManySuccess bound encode records st st' encoded cur mid) := by
  obtain ⟨hseq,hfail,hbar,-⟩ := ensurePendingGroup_fields st
  obtain ⟨front,g,hq⟩ := exists_concat_of_ne_nil (ensurePendingGroup_ne_nil st)
  have hlast:=getLast?_of_concat hq
  cases records with
  | nil =>
    simp only [stageManyWithEncoder] at h
    cases hf : st.failure with
    | some f =>
      simp only [hf,Prod.mk.injEq] at h
      exact Or.inl ⟨_,h.1.symm,h.2.symm⟩
    | none =>
      simp only [hf,Prod.mk.injEq] at h
      exact Or.inr (Or.inr (Or.inl ⟨rfl,h.1.symm,h.2.symm,rfl⟩))
  | cons r rs =>
    obtain ⟨op,payload⟩ := r
    simp only [stageManyWithEncoder] at h
    cases hl : encodedLengths ((op,payload)::rs) with
    | error e =>
      simp only [hl,Prod.mk.injEq] at h
      exact Or.inl ⟨_,h.1.symm,h.2.symm⟩
    | ok lengths =>
      obtain ⟨hlen,hp⟩ := encodedLengths_eq_ok hl
      simp only [hl] at h
      cases hbig : lengths.find? (fun r => decide (bound.bytes < r.2)) with
      | some big =>
        obtain ⟨bop,bbytes⟩ := big
        simp only [hbig,Prod.mk.injEq] at h
        exact Or.inl ⟨_,h.1.symm,h.2.symm⟩
      | none =>
        simp only [hbig] at h
        have hfits : ∀ r ∈ (op,payload)::rs,minRecordLen+r.2.length ≤ bound.bytes := by
          intro r hr
          have hmem : (r.1,minRecordLen+r.2.length) ∈ lengths := by
            rw [hlen]
            exact mem_map.mpr ⟨r,hr,rfl⟩
          have hno:=find?_eq_none.mp hbig _ hmem
          simpa using hno
        cases hf : st.failure with
        | some f =>
          simp only [hf,Prod.mk.injEq] at h
          exact Or.inl ⟨_,h.1.symm,h.2.symm⟩
        | none =>
          simp only [hf,hlast,hseq] at h
          -- after this point a refusal leaves the queue as `ensure_pending_group` made it
          have late : ∀ e,(StageManyOutcome.refused e,ensurePendingGroup st) = (out,st') →
              (st.pendingGroups = [] → StageManyRefusesLate bound encode ((op,payload)::rs) st) →
              (∃ e,out = .refused e ∧ st' = st) ∨
              (∃ e,out = .refused e ∧ st.pendingGroups = [] ∧ st' = ensurePendingGroup st ∧
                StageManyRefusesLate bound encode ((op,payload)::rs) st) := by
            intro e he hlate
            simp only [Prod.mk.injEq] at he
            by_cases hnil : st.pendingGroups = []
            · exact Or.inr ⟨e,he.1.symm,hnil,he.2.symm,hlate hnil⟩
            · rw [ensurePendingGroup_of_ne_nil hnil] at he
              exact Or.inl ⟨e,he.1.symm,he.2.symm⟩
          have close : ∀ {P Q R : Prop},(P ∨ Q) → (P ∨ Q ∨ R) := fun hpq =>
            hpq.elim Or.inl fun hq => Or.inr (Or.inl hq)
          by_cases hfirst : g.records = 0 ∧
              bound.bytes < g.encodedBytes+(minRecordLen+payload.length)
          · simp only [if_pos hfirst] at h
            refine close (late _ h fun hnil => ?_)
            exfalso
            rw [ensurePendingGroup_of_nil hnil] at hq
            obtain ⟨-,hg⟩ := concat_eq_singleton hq.symm
            have hle:=hfits (op,payload) (mem_cons_self ..)
            have hgt:=hfirst.2
            rw [hg] at hgt
            simp only at hle hgt
            omega
          · simp only [if_neg hfirst] at h
            by_cases hcount : 2^64 ≤ ((op,payload)::rs).length
            · simp only [if_pos hcount] at h
              exact close (late _ h fun _ => ⟨by simp,fun r hr => ⟨hp r hr,hfits r hr⟩,hf,
                Or.inl (by omega)⟩)
            · simp only [if_neg hcount] at h
              have hofNat : (BitVec.ofNat 64 ((op,payload)::rs).length).toNat =
                  ((op,payload)::rs).length := by
                simp only [BitVec.toNat_ofNat]
                exact Nat.mod_eq_of_lt (by omega)
              by_cases hroom : st.nextSeq.toNat+((op,payload)::rs).length < 2^64
              · have hadd : checkedAdd st.nextSeq (BitVec.ofNat 64 ((op,payload)::rs).length) =
                    some (st.nextSeq+BitVec.ofNat 64 ((op,payload)::rs).length) :=
                  checkedAdd_of_lt (by rw [hofNat]; exact hroom)
                simp only [hadd] at h
                cases henc : encodeBatch encode 0 st.nextSeq ((op,payload)::rs) [] with
                | error e =>
                  simp only [henc] at h
                  exact close (late _ h fun _ => ⟨by simp,fun r hr => ⟨hp r hr,hfits r hr⟩,hf,
                    Or.inr ⟨e,henc⟩⟩)
                | ok encoded =>
                  simp only [henc] at h
                  rw [hlen] at h
                  have hchecked : StageManyChecked bound encode ((op,payload)::rs) st
                      encoded := by
                    refine ⟨by simp,hf,hp,hfits,?_,hroom,henc⟩
                    intro g' hg' hrec r hr
                    rw [hlast] at hg'
                    obtain rfl := Option.some.inj hg'
                    have hr' : (op,payload) = r := by simpa using hr
                    rw [← hr']
                    by_contra hcon
                    exact hfirst ⟨hrec,by simp only at hcon; omega⟩
                  cases hs : splitBatch bound encoded st.nextSeq
                      (batchLengths ((op,payload)::rs)) ⟨0,0⟩ (ensurePendingGroup st) with
                  | mk res mid =>
                    cases res with
                    | error e =>
                      simp only [hs,Prod.mk.injEq] at h
                      exact Or.inr (Or.inr (Or.inr (Or.inl ⟨e,encoded,h.1.symm,hchecked,by
                        rw [← h.2]; exact hs⟩)))
                    | ok cur =>
                      simp only [hs,claimBarrier_eq,Prod.mk.injEq] at h
                      refine Or.inr (Or.inr (Or.inr (Or.inr ⟨encoded,cur,mid,_,h.1.symm,?_,
                        hchecked,hs,?_⟩)))
                      · unfold modifyBack
                        split <;> rfl
                      · rw [← h.2]
                        have halloc : (modifyBack (fun g => { g with chunks := g.chunks++
                            [⟨encoded,cur.chunkStart,cur.offset⟩] })
                            mid).encodedBufferAllocations = mid.encodedBufferAllocations := by
                          unfold modifyBack
                          split <;> rfl
                        rw [halloc]
              · have hadd : checkedAdd st.nextSeq (BitVec.ofNat 64 ((op,payload)::rs).length) =
                    none := by
                  unfold checkedAdd
                  rw [if_neg (by rw [hofNat]; exact hroom)]
                simp only [hadd] at h
                exact close (late _ h fun _ => ⟨by simp,fun r hr => ⟨hp r hr,hfits r hr⟩,hf,
                  Or.inl (by omega)⟩)

end Checksum

theorem flush_cases {st st' : WriterState} {out : FlushOutcome} (h : flush st = (out,st')) :
    (st' = st ∧ ∀ target,out ≠ .waitFor target true) ∨
    (∃ target,out = .waitFor target true ∧ st.barrierInFlight = false ∧
      (∃ g ∈ st.pendingGroups,g.records ≠ 0) ∧ st' = { st with barrierInFlight := true } ∧
      st.failure = none) := by
  unfold flush at h
  cases hf : st.failure with
  | some f =>
    simp only [hf,Prod.mk.injEq] at h
    exact Or.inl ⟨h.2.symm,fun target hout => by rw [← h.1] at hout; cases hout⟩
  | none =>
    cases hv : st.visible.getLast? with
    | none =>
      simp only [hf,hv,Prod.mk.injEq] at h
      exact Or.inl ⟨h.2.symm,fun target hout => by rw [← h.1] at hout; cases hout⟩
    | some record =>
      simp only [hf,hv] at h
      split at h
      · simp only [Prod.mk.injEq] at h
        exact Or.inl ⟨h.2.symm,fun target hout => by rw [← h.1] at hout; cases hout⟩
      · split at h
        · simp only [Prod.mk.injEq] at h
          exact Or.inl ⟨h.2.symm,fun target hout => by rw [← h.1] at hout; cases hout⟩
        · rename_i hbar
          split at h
          · rename_i hany
            simp only [Prod.mk.injEq] at h
            refine Or.inr ⟨record.seq,h.1.symm,by simpa using hbar,?_,h.2.symm,rfl⟩
            simpa using hany
          · simp only [Prod.mk.injEq] at h
            exact Or.inl ⟨h.2.symm,fun target hout => by rw [← h.1] at hout; cases hout⟩

end Zeppelin.Wal
