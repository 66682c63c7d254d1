import Zeppelin.GraphWal.ReplayRuns

/-! property_graph/wal/replay.rs -/

namespace Zeppelin.GraphWal
open PropertyGraph List

section Resume
variable (xxh3 : Bytes → U64)

def seedState (checkpoint : CommitState) (generation : GraphGeneration) (previous : U64) :
    CommitState :=
  { checkpoint with
    generation := generation
    sequence := previous
    highWaters := ⟨0,0,List.replicate 4 0,0,zero_symbols⟩
    graph := ⟨List.replicate 8 none,no_roots⟩
    vector := none
    text := none
    reclaim := none
    preparedInventories := [] }

def Replay.scanTo (watermark : ℕ) : ℕ → Replay → Except WalError Replay
  | 0,_ => .error .malformed
  | fuel+1,replay =>
    if watermark ≤ replay.offset then .ok replay
    else do
      let ((step,next),_) ← replay.nextInner xxh3 (none : Option (ReplayValidator Unit)) ()
      match step with
      | .envelope _ => next.scanTo watermark fuel
      | .finished _ => .error .malformed

def sameCommitState (left right : CommitState) : Bool := decide (left = right)

def Replay.scanFrom (bytes : Bytes) (checkpoint : CommitState) (watermark : ℕ) (first : U64)
    (opened : Record) : Except WalError Replay := do
  let (_,rest) ← take 24 opened.payload
  let (generation,_) ← u64 rest
  match checkedSub first 1 with
  | none => .error .sequence
  | some previous =>
    let replay ← Replay.scanTo xxh3 watermark (watermark+1)
      ⟨bytes,seedState checkpoint generation previous,headerBytes,false,none⟩
    if replay.offset ≠ watermark ∨ sameCommitState replay.state checkpoint = false then
      .error .participant
    else return { replay with state := checkpoint }

def Replay.atWatermark (bytes : Bytes) (checkpoint : CommitState) (watermark : ℕ) :
    Except WalError Replay :=
  if watermark = headerBytes then Replay.new xxh3 bytes checkpoint
  else if watermark < headerBytes ∨ bytes.length < watermark then .error .malformed
  else do
    let first ← readHeader xxh3 bytes checkpoint.store
    if checkpoint.sequence < first then .error .sequence
    else
      let written ← stateWrite checkpoint
      if maxEnvelopeBytes < written.length then .error .capacity
      else
        let found ← readRecord xxh3 ((bytes.take watermark).drop headerBytes) 0 none first (some 1)
        match found with
        | none => .error .malformed
        | some opened => Replay.scanFrom xxh3 bytes checkpoint watermark first opened

/-- The state that the first `k` envelopes end with. -/
def stateAfter : CommitState → List Envelope → ℕ → CommitState
  | base,_,0 => base
  | base,[],_+1 => base
  | _,v::rest,k+1 => stateAfter v.state rest k

def Replay.skip (replay : Replay) (base : CommitState) (envs : List Envelope) (encs : List Bytes)
    (k : ℕ) : Replay :=
  replay.behind (stateAfter base envs k) ((encs.take k).flatten).length

inductive AcceptedRun : CommitState → List Envelope → List Bytes → Prop where
  | nil (base : CommitState) : AcceptedRun base [] []
  | cons {base : CommitState} {v : Envelope} {bytes : Bytes} {rest : List Envelope}
      {others : List Bytes} : Accepted xxh3 base v bytes → AcceptedRun v.state rest others →
      AcceptedRun base (v::rest) (bytes::others)

structure Admissible (base : CommitState) (checkpoint : CommitState) : Prop where
  store : checkpoint.store = base.store
  sequence : checkpoint.sequence = base.sequence
  written : ∃ written,stateWrite checkpoint = .ok written ∧ written.length ≤ maxEnvelopeBytes

end Resume

variable {xxh3 : Bytes → U64} {base checkpoint : CommitState} {v : Envelope} {envs : List Envelope}
  {encs : List Bytes} {bytes : Bytes} {n k fuel watermark : ℕ} {replay next : Replay}

theorem encodeRun_accepted (h : encodeRun xxh3 base envs = .ok encs) :
    AcceptedRun xxh3 base envs encs := by
  induction envs generalizing base encs with
  | nil =>
    obtain rfl := Except.ok.inj h
    exact .nil base
  | cons v rest ih =>
    obtain ⟨bytes,others,hbytes,hothers,rfl⟩ := encodeRun_cons h
    exact .cons (encodeEnvelope_accepted hbytes) (ih hothers)

theorem Accepted.pos (h : Accepted xxh3 base v bytes) : 128 < bytes.length := by
  obtain ⟨first,changes,state,last,hparts⟩ := h.parts
  have hlen:=hparts.length.2.2
  omega

theorem skip_zero (h : replay.state = base) : replay.skip base envs encs 0 = replay := by
  subst h
  cases envs <;> rfl

variable {others : List Bytes} {base' : CommitState}

theorem skip_succ {rest : List Envelope} :
    (replay.behind v.state bytes.length).skip v.state rest others k =
      replay.skip base (v::rest) (bytes::others) (k+1) := by
  simp only [Replay.skip,Replay.behind,stateAfter,take_succ_cons,flatten_cons,
    length_append,Nat.add_assoc]

theorem wholeCount_cons_of_le (h : bytes.length ≤ n) :
    wholeCount (bytes::others) n = wholeCount others (n-bytes.length)+1 := by
  rw [wholeCount,if_neg (not_lt.mpr h)]

theorem Standing.split
    (h : Standing replay base ((bytes::others).flatten.take n)) (hle : bytes.length ≤ n) :
    Standing replay base (bytes++others.flatten.take (n-bytes.length)) := by
  rw [flatten_cons,List.take_append,take_of_length_le hle] at h
  exact h

theorem scanTo_ok (h : AcceptedRun xxh3 base envs encs) (hn : n ≤ encs.flatten.length)
    (hstanding : Standing replay base (encs.flatten.take n))
    (hscan : replay.scanTo xxh3 watermark fuel = .ok next) :
    ∃ k ≤ wholeCount encs n,next = replay.skip base envs encs k := by
  induction h generalizing n fuel replay with
  | nil base =>
    cases fuel with
    | zero => cases hscan
    | succ fuel =>
      rw [Replay.scanTo] at hscan
      split at hscan
      · exact ⟨0,Nat.zero_le _,(Except.ok.inj hscan).symm.trans (skip_zero hstanding.state).symm⟩
      · have hleft:=hstanding.left
        rw [flatten_nil,take_nil] at hleft
        rw [Replay.nextInner,if_neg (not_lt.mpr hstanding.offset),hleft] at hscan
        cases hscan
  | @cons base v bytes rest others haccepted _ ih =>
    cases fuel with
    | zero => cases hscan
    | succ fuel =>
      rw [Replay.scanTo] at hscan
      split at hscan
      · exact ⟨0,Nat.zero_le _,(Except.ok.inj hscan).symm.trans (skip_zero hstanding.state).symm⟩
      rw [← hstanding.state] at haccepted
      rcases Nat.lt_or_ge n bytes.length with hcut | hle
      · have hleft:=hstanding.left
        rw [flatten_cons,take_append_of_le_length hcut.le] at hleft
        rw [nextInner_cut haccepted hstanding.offset hcut hleft none ()] at hscan
        cases hscan
      · have hwhole:=hstanding.split hle
        obtain ⟨out,hnext,-⟩ := nextInner_whole haccepted _ hwhole.left none
          (show admitted none replay.state v () = .ok () from rfl)
        rw [hnext] at hscan
        rw [flatten_cons,length_append] at hn
        obtain ⟨k,hk,rfl⟩ := ih (by omega) (hwhole.behind v.state) hscan
        refine ⟨k+1,?_,skip_succ⟩
        rw [wholeCount_cons_of_le hle]
        exact Nat.succ_le_succ hk

theorem scanTo_skip (h : AcceptedRun xxh3 base envs encs)
    (hstanding : Standing replay base (encs.flatten.take n)) (hk : k ≤ wholeCount encs n)
    (hfuel : k < fuel) : replay.scanTo xxh3 (replay.skip base envs encs k).offset fuel =
      .ok (replay.skip base envs encs k) := by
  induction h generalizing n k fuel replay with
  | nil base =>
    obtain rfl : k = 0 := Nat.le_zero.mp hk
    obtain ⟨fuel,rfl⟩ : ∃ m,fuel = m+1 := ⟨fuel-1,by omega⟩
    rw [skip_zero hstanding.state,Replay.scanTo,if_pos le_rfl]
  | @cons base v bytes rest others haccepted _ ih =>
    obtain ⟨fuel,rfl⟩ : ∃ m,fuel = m+1 := ⟨fuel-1,by omega⟩
    cases k with
    | zero => rw [skip_zero hstanding.state,Replay.scanTo,if_pos le_rfl]
    | succ k =>
      rcases Nat.lt_or_ge n bytes.length with hcut | hle
      · rw [wholeCount,if_pos hcut] at hk
        cases hk
      · have hwhole:=hstanding.split hle
        have hpos:=haccepted.pos
        have hbehind : replay.offset <
            (replay.skip base (v::rest) (bytes::others) (k+1)).offset := by
          rw [← skip_succ]
          change replay.offset < replay.offset+bytes.length+_
          omega
        rw [← hstanding.state] at haccepted
        obtain ⟨out,hnext,-⟩ := nextInner_whole haccepted _ hwhole.left none
          (show admitted none replay.state v () = .ok () from rfl)
        rw [wholeCount_cons_of_le hle] at hk
        rw [Replay.scanTo,if_neg (not_le.mpr hbehind),hnext,ok_bind,← skip_succ]
        exact ih (hwhole.behind v.state) (Nat.le_of_succ_le_succ hk) (Nat.lt_of_succ_lt_succ hfuel)

theorem AcceptedRun.rebase (h : AcceptedRun xxh3 base envs encs)
    (hstore : base'.store = base.store) (hgeneration : base'.generation = base.generation)
    (hsequence : base'.sequence = base.sequence)
    (hmarks : base'.highWaters = ⟨0,0,List.replicate 4 0,0,zero_symbols⟩) :
    AcceptedRun xxh3 base' envs encs := by
  cases h with
  | nil => exact .nil base'
  | cons haccepted hrest =>
    exact .cons (haccepted.rebase hstore hgeneration hsequence hmarks) hrest

theorem AcceptedRun.stateAfter_store (h : AcceptedRun xxh3 base envs encs) (k : ℕ) :
    (stateAfter base envs k).store = base.store := by
  induction h generalizing k with
  | nil base => cases k <;> rfl
  | cons haccepted _ ih =>
    cases k with
    | zero => rfl
    | succ k => exact (ih k).trans (validateTransition_spec haccepted.transition).1

theorem AcceptedRun.le_sequence (h : AcceptedRun xxh3 base envs encs) (k : ℕ) :
    base.sequence ≤ (stateAfter base envs k).sequence := by
  induction h generalizing k with
  | nil base => cases k <;> exact BitVec.le_refl _
  | cons haccepted _ ih =>
    cases k with
    | zero => exact BitVec.le_refl _
    | succ k =>
      have hnext:=checkedAdd_eq_some (validateTransition_spec haccepted.transition).2.2
      apply BitVec.le_trans _ (ih k)
      rw [BitVec.le_def]
      omega

theorem AcceptedRun.written (h : AcceptedRun xxh3 base envs encs) (hk : k < encs.length) :
    ∃ written,stateWrite (stateAfter base envs (k+1)) = .ok written ∧
      written.length ≤ maxEnvelopeBytes := by
  induction h generalizing k with
  | nil base => cases hk
  | cons haccepted _ ih =>
    cases k with
    | zero =>
      obtain ⟨first,changes,state,last,hparts⟩ := haccepted.parts
      have hlen:=hparts.length.2.2
      have hsize:=haccepted.size
      refine ⟨state,?_,by omega⟩
      rw [← hparts.written]
      rename_i rest _ _
      cases rest <;> rfl
    | succ k => exact ih (Nat.lt_of_succ_lt_succ hk)

theorem AcceptedRun.skipped (h : AcceptedRun xxh3 base envs encs) (hk : k ≤ wholeCount encs n) :
    k ≤ encs.length ∧ k ≤ ((encs.take k).flatten).length ∧ ((encs.take k).flatten).length ≤ n := by
  induction h generalizing n k with
  | nil base =>
    obtain rfl : k = 0 := Nat.le_zero.mp hk
    exact ⟨le_rfl,le_rfl,Nat.zero_le n⟩
  | @cons base v bytes rest others haccepted _ ih =>
    cases k with
    | zero => exact ⟨Nat.zero_le _,le_rfl,Nat.zero_le n⟩
    | succ k =>
      rcases Nat.lt_or_ge n bytes.length with hcut | hle
      · rw [wholeCount,if_pos hcut] at hk
        cases hk
      · rw [wholeCount_cons_of_le hle] at hk
        have hpos:=haccepted.pos
        obtain ⟨hlength,hshort,hlong⟩ := ih (Nat.le_of_succ_le_succ hk)
        rw [take_succ_cons,flatten_cons,length_append,length_cons]
        omega

theorem stateAfter_seed (h : envs ≠ []) :
    stateAfter base' envs (k+1) = stateAfter base envs (k+1) := by
  cases envs with
  | nil => exact absurd rfl h
  | cons v rest => rfl

section Log
variable {first : U64} {header : Bytes}

theorem new_iff {left : Bytes} (hfirst : checkedAdd base.sequence 1 = some first)
    (hheader : encodeHeader xxh3 base.store first = .ok header) :
    Replay.new xxh3 (header++left) checkpoint = .ok replay ↔
      Admissible base checkpoint ∧
        replay = ⟨header++left,checkpoint,headerBytes,false,none⟩ := by
  rw [Replay.new,readHeader_other hheader]
  constructor
  · intro h
    obtain ⟨_,hstore,h⟩ := bind_eq_ok h
    split at hstore
    · rename_i hsame
      obtain rfl := Except.ok.inj hstore
      obtain ⟨hposition,h⟩ := of_ite_ne_error h
      obtain ⟨written,hwritten,h⟩ := bind_eq_ok h
      obtain ⟨hsize,h⟩ := of_ite_error h
      have hsequence:=Option.some.inj
        ((checkedSub_of_checkedAdd hposition).symm.trans (checkedSub_of_checkedAdd hfirst))
      exact ⟨⟨NonzeroId.ext hsame.symm,hsequence,written,hwritten,not_lt.mp hsize⟩,
        (Except.ok.inj h).symm⟩
    · cases hstore
  · rintro ⟨⟨hstore,hsequence,written,hwritten,hsize⟩,rfl⟩
    rw [hstore,if_pos rfl,ok_bind,hsequence,hfirst,if_neg (not_not.mpr rfl),hwritten,ok_bind,
      if_neg (not_lt.mpr hsize)]
    rfl

theorem beginPayload_generation (base : CommitState) (v : Envelope) (size : ℕ) :
    ∃ skipped rest,take 24 (beginPayload base v size) = .ok (skipped,rest) ∧
      ∃ more,u64 rest = .ok (base.generation,more) := by
  rw [beginPayload,← append_assoc,← append_assoc]
  exact ⟨_,_,take_append _ _ 24 (by simp),_,u64_append _ _⟩

theorem scanFrom_iff {log : Bytes} {batch : BatchId} {size : ℕ}
    (hfirst : checkedAdd base.sequence 1 = some first) (hrun : AcceptedRun xxh3 base envs encs)
    (hne : envs ≠ []) (hn : n ≤ encs.flatten.length) (hstore : checkpoint.store = base.store)
    (hleft : log.drop headerBytes = encs.flatten.take n) (hlog : headerBytes ≤ log.length)
    (hwatermark : watermark ≠ headerBytes) :
    Replay.scanFrom xxh3 log checkpoint watermark first ⟨1,batch,beginPayload base v size,128⟩ =
        .ok replay ↔
      replay = ⟨log,checkpoint,watermark,false,none⟩ ∧ ∃ k,0 < k ∧ k ≤ wholeCount encs n ∧
        checkpoint = stateAfter base envs k ∧
        watermark = headerBytes+((encs.take k).flatten).length := by
  obtain ⟨skipped,rest,htake,more,hgeneration⟩ := beginPayload_generation base v size
  have hseed : AcceptedRun xxh3 (seedState checkpoint base.generation base.sequence) envs encs :=
    hrun.rebase hstore rfl rfl rfl
  have hstanding : Standing
      ⟨log,seedState checkpoint base.generation base.sequence,headerBytes,false,none⟩
      (seedState checkpoint base.generation base.sequence) (encs.flatten.take n) :=
    ⟨rfl,rfl,rfl,hlog,hleft⟩
  have hafter (k : ℕ) (hk : 0 < k) : stateAfter (seedState checkpoint base.generation
      base.sequence) envs k = stateAfter base envs k := by
    obtain ⟨k,rfl⟩ : ∃ m,k = m+1 := ⟨k-1,by omega⟩
    exact stateAfter_seed hne
  rw [Replay.scanFrom,htake,ok_bind]
  simp only [hgeneration,ok_bind,checkedSub_of_checkedAdd hfirst]
  constructor
  · intro h
    obtain ⟨next,hscan,h⟩ := bind_eq_ok h
    obtain ⟨hchecked,h⟩ := of_ite_error h
    obtain rfl := Except.ok.inj h
    obtain ⟨k,hk,rfl⟩ := scanTo_ok hseed hn hstanding hscan
    rw [not_or,not_not,Bool.not_eq_false] at hchecked
    obtain ⟨hoffset,hstate⟩ := hchecked
    have hpos : 0 < k := by
      apply Nat.pos_of_ne_zero
      rintro rfl
      exact hwatermark hoffset.symm
    refine ⟨?_,k,hpos,hk,?_,hoffset.symm⟩
    · rw [← hoffset]
      rfl
    · rw [← hafter k hpos]
      exact (of_decide_eq_true hstate).symm
  · rintro ⟨rfl,k,hpos,hk,hstate,rfl⟩
    have hshort:=(hrun.skipped hk).2.1
    have hscan:=scanTo_skip hseed hstanding hk
      (show k < headerBytes+((encs.take k).flatten).length+1 by omega)
    change Replay.scanTo xxh3 (headerBytes+((encs.take k).flatten).length) _ _ = _ at hscan
    rw [hscan,ok_bind,if_neg]
    · rfl
    · rw [not_or,not_not,Bool.not_eq_false]
      exact ⟨rfl,decide_eq_true ((hafter k hpos).trans hstate.symm)⟩

theorem AcceptedRun.first_record (hfirst : checkedAdd base.sequence 1 = some first)
    (hrun : AcceptedRun xxh3 base envs encs) (hne : envs ≠ []) : ∃ v batch size,
      (∀ m,readRecord xxh3 (encs.flatten.take m) 0 none first (some 1) =
        .ok (if m < 128 then none else some ⟨1,batch,beginPayload base v size,128⟩)) ∧
      ∀ k,0 < k → 128 ≤ ((encs.take k).flatten).length ∧
        first ≤ (stateAfter base envs k).sequence := by
  cases hrun with
  | nil => exact absurd rfl hne
  | @cons _ v bytes rest others haccepted hrest =>
    obtain ⟨_,_,_,_,hparts⟩ := haccepted.parts
    have hsequence:=(validateTransition_spec haccepted.transition).2.2
    obtain rfl := Option.some.inj (hfirst.symm.trans hsequence)
    refine ⟨v,v.batch,bytes.length,fun m => hparts.readFirst others.flatten m,fun k hk => ?_⟩
    obtain ⟨k,rfl⟩ : ∃ m,k = m+1 := ⟨k-1,by omega⟩
    have hpos:=haccepted.pos
    refine ⟨?_,hrest.le_sequence k⟩
    rw [take_succ_cons,flatten_cons,length_append]
    omega

/-- A watermark is admitted at the end of an envelope whose state the checkpoint has. Right behind
the header the log knows no state but the store and the position, and any such checkpoint is. -/
theorem atWatermark_iff (hfirst : checkedAdd base.sequence 1 = some first)
    (hheader : encodeHeader xxh3 base.store first = .ok header)
    (hencs : encodeRun xxh3 base envs = .ok encs) (hn : n ≤ encs.flatten.length) :
    Replay.atWatermark xxh3 (header++encs.flatten.take n) checkpoint watermark = .ok replay ↔
      replay = ⟨header++encs.flatten.take n,checkpoint,watermark,false,none⟩ ∧
      (watermark = headerBytes ∧ Admissible base checkpoint ∨
        ∃ k,0 < k ∧ k ≤ wholeCount encs n ∧ checkpoint = stateAfter base envs k ∧
          watermark = headerBytes+((encs.take k).flatten).length) := by
  have hlen:=encodeHeader_length hheader
  have hrun:=encodeRun_accepted hencs
  have hlog : (header++encs.flatten.take n).length = headerBytes+n := by
    rw [length_append,hlen,length_take,Nat.min_eq_left hn]
  have hleft : (header++encs.flatten.take n).drop headerBytes = encs.flatten.take n := by
    rw [← hlen,drop_left]
  have hcut (hle : watermark ≤ headerBytes+n) :
      ((header++encs.flatten.take n).take watermark).drop headerBytes =
        encs.flatten.take (watermark-headerBytes) := by
    rw [drop_take,hleft,take_take,Nat.min_eq_left (by omega)]
  rw [Replay.atWatermark,hlog]
  by_cases hat : watermark = headerBytes
  · subst hat
    rw [if_pos rfl,new_iff hfirst hheader,and_comm]
    have hnone : ¬ ∃ k,0 < k ∧ k ≤ wholeCount encs n ∧ checkpoint = stateAfter base envs k ∧
        headerBytes = headerBytes+((encs.take k).flatten).length := by
      rintro ⟨k,hpos,hk,-,hlast⟩
      have hshort:=(hrun.skipped hk).2.1
      omega
    simp only [hnone,or_false,true_and]
  have hmiss : ¬ (watermark = headerBytes ∧ Admissible base checkpoint) := fun h => hat h.1
  simp only [if_neg hat,hmiss,false_or]
  by_cases hne : envs = []
  · -- a log without an envelope ends with its header
    subst hne
    cases hrun
    obtain rfl : n = 0 := Nat.le_zero.mp hn
    constructor
    · intro h
      obtain ⟨hbounds,-⟩ := of_ite_error h
      omega
    · rintro ⟨-,k,hpos,hk,-⟩
      exact absurd hpos (Nat.not_lt.mpr hk)
  obtain ⟨v,batch,size,hrecord,hlong⟩ := hrun.first_record hfirst hne
  have hscan (hstore : checkpoint.store = base.store) :
      Replay.scanFrom xxh3 (header++encs.flatten.take n) checkpoint watermark first
        ⟨1,batch,beginPayload base v size,128⟩ = .ok replay ↔ _ :=
    scanFrom_iff hfirst hrun hne hn hstore hleft (by omega) hat
  constructor
  · intro h
    obtain ⟨hbounds,h⟩ := of_ite_error h
    obtain ⟨_,hstore,h⟩ := bind_eq_ok h
    rw [readHeader_other hheader] at hstore
    split at hstore
    · rename_i hsame
      obtain rfl := Except.ok.inj hstore
      obtain ⟨-,h⟩ := of_ite_error h
      obtain ⟨_,-,h⟩ := bind_eq_ok h
      obtain ⟨-,h⟩ := of_ite_error h
      rw [hcut (by omega),hrecord,ok_bind] at h
      by_cases hshort : watermark-headerBytes < 128
      · rw [if_pos hshort] at h
        cases h
      · rw [if_neg hshort] at h
        exact (hscan (NonzeroId.ext hsame.symm)).mp h
    · cases hstore
  · rintro ⟨rfl,k,hpos,hk,hstate,hw⟩
    obtain ⟨hcount,-,hfits⟩ := hrun.skipped hk
    obtain ⟨hbegin,hsequence⟩ := hlong k hpos
    have hstore : checkpoint.store = base.store := hstate ▸ hrun.stateAfter_store k
    obtain ⟨written,hwritten,hsize⟩ : ∃ written,stateWrite checkpoint = .ok written ∧
        written.length ≤ maxEnvelopeBytes := by
      obtain ⟨k,rfl⟩ : ∃ m,k = m+1 := ⟨k-1,by omega⟩
      exact hstate ▸ hrun.written hcount
    have hposition : ¬ checkpoint.sequence < first := BitVec.not_lt.mpr (hstate ▸ hsequence)
    rw [if_neg (by omega),readHeader_other hheader,hstore,if_pos rfl,ok_bind,if_neg hposition,
      hwritten,ok_bind,if_neg (not_lt.mpr hsize),hcut (by omega),hrecord,ok_bind,
      if_neg (by omega)]
    exact (hscan hstore).mpr ⟨rfl,k,hpos,hk,hstate,hw⟩

end Log

/-- The answer of a run that has handed out `outs` before. -/
def handed (outs : List ValidatedEnvelope)
    (answer : Option (Except WalError (List ValidatedEnvelope × ReplayEnd))) :
    Option (Except WalError (List ValidatedEnvelope × ReplayEnd)) :=
  answer.map fun r => r.map fun r => (outs++r.1,r.2)

theorem handed_nil (answer : Option (Except WalError (List ValidatedEnvelope × ReplayEnd))) :
    handed [] answer = answer := by
  rcases answer with _ | _ | _ <;> rfl

theorem handed_cons (out : ValidatedEnvelope) (outs : List ValidatedEnvelope)
    (answer : Option (Except WalError (List ValidatedEnvelope × ReplayEnd))) :
    (handed outs answer).map (fun r => r.map fun r => (out::r.1,r.2)) =
      handed (out::outs) answer := by
  rcases answer with _ | _ | _ <;> rfl

theorem run_skip {σ : Type} {validator : ReplayValidator σ} {s s' : σ}
    (h : AcceptedRun xxh3 base envs encs)
    (hstanding : Standing replay base (encs.flatten.take n)) (hk : k ≤ wholeCount encs n)
    (hvalid : validator.run base (envs.take k) s = .ok s') :
    ∃ outs,List.Forall₂ (Yields xxh3) outs (envs.take k) ∧
      ∀ fuel,replay.run xxh3 validator (k+fuel) s =
        handed outs ((replay.skip base envs encs k).run xxh3 validator fuel s') := by
  have hzero {base : CommitState} {envs : List Envelope} {encs : List Bytes} {replay : Replay}
      {s : σ} (hstate : replay.state = base) (hvalid : validator.run base [] s = .ok s') :
      ∃ outs,List.Forall₂ (Yields xxh3) outs [] ∧
        ∀ fuel,replay.run xxh3 validator (0+fuel) s =
          handed outs ((replay.skip base envs encs 0).run xxh3 validator fuel s') := by
    obtain rfl := Except.ok.inj hvalid
    refine ⟨[],.nil,fun fuel => ?_⟩
    rw [skip_zero hstate,Nat.zero_add,handed_nil]
  induction h generalizing n k replay s with
  | nil base =>
    obtain rfl : k = 0 := Nat.le_zero.mp hk
    exact hzero hstanding.state hvalid
  | @cons base v bytes rest others haccepted _ ih =>
    cases k with
    | zero => exact hzero hstanding.state hvalid
    | succ k =>
      rcases Nat.lt_or_ge n bytes.length with hcut | hle
      · rw [wholeCount,if_pos hcut] at hk
        cases hk
      have hwhole:=hstanding.split hle
      obtain ⟨s₁,hfirst,hrest⟩ := bind_eq_ok hvalid
      obtain ⟨out,hnext,hyields⟩ := nextEnvelope_whole hwhole haccepted hfirst
      rw [wholeCount_cons_of_le hle] at hk
      obtain ⟨outs,houts,hrun⟩ := ih (hwhole.behind v.state) (Nat.le_of_succ_le_succ hk) hrest
      refine ⟨out::outs,.cons hyields houts,fun fuel => ?_⟩
      rw [Nat.succ_add,Replay.run,hnext]
      simp only
      rw [hrun fuel,handed_cons,skip_succ]

/-- What a watermark of a log admits, and what replay from the start does in front of it. -/
theorem watermark_resumes {first : U64} {header : Bytes}
    (hfirst : checkedAdd base.sequence 1 = some first)
    (hheader : encodeHeader xxh3 base.store first = .ok header)
    (hencs : encodeRun xxh3 base envs = .ok encs) (hn : n ≤ encs.flatten.length) :
    (∀ checkpoint watermark replay,
      Replay.atWatermark xxh3 (header++encs.flatten.take n) checkpoint watermark = .ok replay ↔
        replay = ⟨header++encs.flatten.take n,checkpoint,watermark,false,none⟩ ∧
        (watermark = headerBytes ∧ Admissible base checkpoint ∨
          ∃ k,0 < k ∧ k ≤ wholeCount encs n ∧ checkpoint = stateAfter base envs k ∧
            watermark = headerBytes+((encs.take k).flatten).length)) ∧
    ∀ k ≤ wholeCount encs n,∀ (σ : Type) (validator : ReplayValidator σ) (s s' : σ),
      validator.run base (envs.take k) s = .ok s' →
      ∃ outs,List.Forall₂ (Yields xxh3) outs (envs.take k) ∧ ∀ fuel,
        Replay.run xxh3 validator (k+fuel)
            ⟨header++encs.flatten.take n,base,headerBytes,false,none⟩ s =
          handed outs (Replay.run xxh3 validator fuel ⟨header++encs.flatten.take n,
            stateAfter base envs k,headerBytes+((encs.take k).flatten).length,false,none⟩
            s') := by
  have hlen:=encodeHeader_length hheader
  refine ⟨fun _ _ _ => atWatermark_iff hfirst hheader hencs hn,
    fun k hk σ validator s s' hvalid => ?_⟩
  have hstanding : Standing ⟨header++encs.flatten.take n,base,headerBytes,false,none⟩ base
      (encs.flatten.take n) := by
    refine ⟨rfl,rfl,rfl,?_,?_⟩
    · rw [length_append,hlen]
      exact Nat.le_add_right _ _
    · rw [← hlen,drop_left]
  exact run_skip (encodeRun_accepted hencs) hstanding hk hvalid

/-- The sample log, resumed behind its envelope. -/
theorem watermark_resumes_sample : ∃ header encs,
    encodeHeader (fun bytes => BitVec.ofNat 64 bytes.length) ⟨1,by decide⟩ 1 = .ok header ∧
    encodeRun (fun bytes => BitVec.ofNat 64 bytes.length) (sampleState 1 0 0) [sampleEnvelope] =
      .ok encs ∧
    Replay.atWatermark (fun bytes => BitVec.ofNat 64 bytes.length) (header++encs.flatten)
        (sampleState 2 1 1) (headerBytes+encs.flatten.length) =
      .ok ⟨header++encs.flatten,sampleState 2 1 1,headerBytes+encs.flatten.length,false,
        none⟩ := by
  obtain ⟨header,hheader,-⟩ := exists_ok (p := fun _ => true) (show (encodeHeader
    (fun bytes => BitVec.ofNat 64 bytes.length) ⟨1,by decide⟩ 1).toOption.any _ = true by
      decide +kernel)
  obtain ⟨encs,hencs,-⟩ := exists_ok (p := fun _ => true) (show (encodeRun
    (fun bytes => BitVec.ofNat 64 bytes.length) (sampleState 1 0 0) [sampleEnvelope]).toOption.any
      _ = true by decide +kernel)
  have hcount:=encodeRun_length hencs
  have hlog:=(watermark_resumes (show checkedAdd (sampleState 1 0 0).sequence 1 = some 1 by decide)
    hheader hencs le_rfl).1
  rw [take_length,wholeCount_flatten,hcount] at hlog
  refine ⟨header,encs,hheader,hencs,(hlog _ _ _).mpr ⟨rfl,.inr ⟨1,one_pos,le_rfl,rfl,?_⟩⟩⟩
  rw [take_of_length_le (show encs.length ≤ 1 from hcount.le)]

/-- A log without envelopes does not have the generation it starts with. -/
theorem header_admits_any_generation : ¬ ∀ (base checkpoint : CommitState) (header : Bytes)
    (envs : List Envelope) (encs : List Bytes) (watermark : ℕ),
    encodeHeader (fun bytes => BitVec.ofNat 64 bytes.length) base.store (base.sequence+1) =
      .ok header →
    encodeRun (fun bytes => BitVec.ofNat 64 bytes.length) base envs = .ok encs →
    ((∃ replay,Replay.atWatermark (fun bytes => BitVec.ofNat 64 bytes.length)
        (header++encs.flatten) checkpoint watermark = .ok replay) ↔
      ∃ k ≤ envs.length,checkpoint = stateAfter base envs k ∧
        watermark = headerBytes+((encs.take k).flatten).length) := by
  intro h
  obtain ⟨header,hheader,-⟩ := exists_ok (p := fun _ => true) (show (encodeHeader
    (fun bytes => BitVec.ofNat 64 bytes.length) (sampleState 1 0 0).store
      ((sampleState 1 0 0).sequence+1)).toOption.any _ = true by decide +kernel)
  obtain ⟨written,hwritten,hsize⟩ := exists_ok
    (p := fun w => decide (w.length ≤ maxEnvelopeBytes))
    (show (stateWrite (sampleState 5 0 0)).toOption.any _ = true by decide +kernel)
  have hadmissible : Admissible (sampleState 1 0 0) (sampleState 5 0 0) :=
    ⟨rfl,rfl,written,hwritten,of_decide_eq_true hsize⟩
  have hadmits:=(atWatermark_iff (show checkedAdd (sampleState 1 0 0).sequence 1 =
    some ((sampleState 1 0 0).sequence+1) by decide) hheader
    (show encodeRun _ (sampleState 1 0 0) [] = .ok [] from rfl) (Nat.zero_le _)).mpr
    ⟨rfl,.inl ⟨rfl,hadmissible⟩⟩
  obtain ⟨k,hk,hstate,-⟩ := (h (sampleState 1 0 0) (sampleState 5 0 0) header [] [] headerBytes
    hheader rfl).mp ⟨_,hadmits⟩
  obtain rfl : k = 0 := Nat.le_zero.mp hk
  exact absurd (congrArg CommitState.generation hstate) (by decide)

end Zeppelin.GraphWal
