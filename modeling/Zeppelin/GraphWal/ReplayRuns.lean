import Zeppelin.GraphWal.ReplayExact

namespace Zeppelin.GraphWal
open PropertyGraph List

def encodeRun (xxh3 : Bytes → U64) : CommitState → List Envelope → Except WalError (List Bytes)
  | _,[] => .ok []
  | base,v::rest => do
    let bytes ← encodeEnvelope xxh3 base v
    let others ← encodeRun xxh3 v.state rest
    return bytes::others

def ReplayValidator.run {σ : Type} (validator : ReplayValidator σ) :
    CommitState → List Envelope → σ → Except WalError σ
  | _,[],s => .ok s
  | base,v::rest,s => do
    let s ← validator.envelope base v s
    validator.run v.state rest s

/-- Asks for envelopes until the end; none when the fuel is not enough. -/
def Replay.run {σ : Type} (xxh3 : Bytes → U64) (validator : ReplayValidator σ) :
    ℕ → Replay → σ → Option (Except WalError (List ValidatedEnvelope × ReplayEnd))
  | 0,_,_ => none
  | fuel+1,replay,s =>
    match replay.nextEnvelope xxh3 validator s with
    | (.error error,_) => some (.error error)
    | (.ok (.finished ending,_),_) => some (.ok ([],ending))
    | (.ok (.envelope out,s),next) =>
      (next.run xxh3 validator fuel s).map fun r => r.map fun r => (out::r.1,r.2)

/-- How many of the encodings are in the first `n` bytes in whole. -/
def wholeCount : List Bytes → ℕ → ℕ
  | [],_ => 0
  | e::rest,n => if n < e.length then 0 else wholeCount rest (n-e.length)+1

def boundary (encs : List Bytes) (n : ℕ) : ℕ := ((encs.take (wholeCount encs n)).flatten).length

variable {e : Bytes} {rest : List Bytes} {n : ℕ}

theorem boundary_cons_of_lt (h : n < e.length) : boundary (e::rest) n = 0 := by
  simp [boundary,wholeCount,h]

theorem boundary_cons_of_le (h : e.length ≤ n) :
    boundary (e::rest) n = e.length+boundary rest (n-e.length) := by
  rw [boundary,wholeCount,if_neg (not_lt.mpr h),take_succ_cons,flatten_cons,
    length_append,boundary]

section Header
variable {xxh3 : Bytes → U64} {store : StoreInstanceId} {first : U64} {header : Bytes}

theorem headerFields_length (store : StoreInstanceId) (first : U64) :
    (headerFields store first).length = 56 := by
  simp [headerFields,fileMagic]

theorem encodeHeader_length (h : encodeHeader xxh3 store first = .ok header) :
    header.length = headerBytes := by
  unfold encodeHeader at h
  split_ifs at h
  obtain rfl := Except.ok.inj h
  rw [length_append,headerFields_length,toLe_length]
  rfl

theorem readHeader_other (h : encodeHeader xxh3 store first = .ok header) (rest : Bytes)
    (other : StoreInstanceId) : readHeader xxh3 (header++rest) other =
      if store.get = other.get then .ok first else .error .store := by
  have hlen:=encodeHeader_length h
  unfold encodeHeader at h
  split_ifs at h with hzero
  obtain rfl := Except.ok.inj h
  have hsum : ∀ sum : U64,((headerFields store first++toLe 8 sum).take 56) =
      headerFields store first := fun _ => take_left' (headerFields_length store first)
  rw [readHeader,take_append _ _ _ hlen,ok_bind]
  simp only [hsum]
  simp only [headerFields,append_assoc]
  rw [take_append fileMagic _ 8 rfl,ok_bind]
  have hend : ∀ sum : U64,toLe 8 sum = toLe 8 sum++[] := fun _ => (append_nil _).symm
  have hpad : toLe 4 (0 : U32) = zeros 4 := by decide
  simp only [u16_append,ok_bind,hpad,zero_append,u64_append,u128_append]
  rw [if_neg (by simp),if_neg (by simp),ite_not]
  simp only [if_neg hzero]
  rw [hend,u64_append,ok_bind]
  simp only [ne_eq,not_true_eq_false,if_false]
  rfl

theorem readHeader_encode (h : encodeHeader xxh3 store first = .ok header) (rest : Bytes) :
    readHeader xxh3 (header++rest) store = .ok first := by
  rw [readHeader_other h,if_pos rfl]

end Header

section Runs
variable {xxh3 : Bytes → U64} {σ : Type} {validator : ReplayValidator σ}

theorem encodeRun_cons {base : CommitState} {v : Envelope} {rest : List Envelope}
    {encs : List Bytes} (h : encodeRun xxh3 base (v::rest) = .ok encs) :
    ∃ bytes others,encodeEnvelope xxh3 base v = .ok bytes ∧
      encodeRun xxh3 v.state rest = .ok others ∧ encs = bytes::others := by
  obtain ⟨bytes,hbytes,h⟩ := bind_eq_ok h
  obtain ⟨others,hothers,h⟩ := bind_eq_ok h
  exact ⟨bytes,others,hbytes,hothers,(Except.ok.inj h).symm⟩

structure Standing (replay : Replay) (base : CommitState) (left : Bytes) : Prop where
  failed : replay.failed = false
  ending : replay.ending = none
  state : replay.state = base
  offset : replay.offset ≤ replay.bytes.length
  left : replay.bytes.drop replay.offset = left

variable {replay : Replay} {base : CommitState} {v : Envelope} {bytes more : Bytes}

def Replay.behind (replay : Replay) (state : CommitState) (length : ℕ) : Replay :=
  { replay with state := state,offset := replay.offset+length }

theorem Standing.behind (h : Standing replay base (bytes++more)) (state : CommitState) :
    Standing (replay.behind state bytes.length) state more := by
  obtain ⟨hfailed,hending,rfl,hoffset,hleft⟩ := h
  refine ⟨hfailed,hending,rfl,?_,?_⟩
  · have hlength:=congrArg List.length hleft
    rw [length_drop,length_append] at hlength
    change replay.offset+bytes.length ≤ replay.bytes.length
    omega
  · change replay.bytes.drop (replay.offset+bytes.length) = more
    rw [← drop_drop,hleft,drop_left]

theorem nextEnvelope_whole (h : Standing replay base (bytes++more))
    (haccepted : Accepted xxh3 base v bytes) {s s' : σ}
    (hvalid : validator.envelope base v s = .ok s') :
    ∃ out,replay.nextEnvelope xxh3 validator s =
        (.ok (.envelope out,s'),replay.behind v.state bytes.length) ∧ Yields xxh3 out v := by
  obtain ⟨hfailed,hending,rfl,hoffset,hleft⟩ := h
  obtain ⟨out,hnext,hyields⟩ := nextInner_whole haccepted more hleft (some validator) hvalid
  refine ⟨out,?_,hyields⟩
  rw [Replay.nextEnvelope,hfailed,hending,hnext]
  rfl

theorem nextEnvelope_cut {n : ℕ} (h : Standing replay base (bytes.take n))
    (haccepted : Accepted xxh3 base v bytes) (hn : n < bytes.length) (s : σ) :
    (replay.nextEnvelope xxh3 validator s).1 =
      .ok (.finished ⟨replay.offset,decide (n ≠ 0)⟩,s) := by
  obtain ⟨hfailed,hending,rfl,hoffset,hleft⟩ := h
  rw [Replay.nextEnvelope,hfailed,hending,
    nextInner_cut haccepted hoffset hn hleft (some validator) s]
  rfl

theorem nextEnvelope_end (h : Standing replay base []) (s : σ) :
    (replay.nextEnvelope xxh3 validator s).1 = .ok (.finished ⟨replay.offset,false⟩,s) := by
  obtain ⟨hfailed,hending,rfl,hoffset,hleft⟩ := h
  rw [Replay.nextEnvelope,hfailed,hending,Replay.nextInner,if_neg (not_lt.mpr hoffset),hleft]
  rfl

theorem run_finished {fuel : ℕ} {s : σ} {ending : ReplayEnd}
    (h : (replay.nextEnvelope xxh3 validator s).1 = .ok (.finished ending,s)) :
    replay.run xxh3 validator (fuel+1) s = some (.ok ([],ending)) := by
  rw [Replay.run]
  cases hnext : replay.nextEnvelope xxh3 validator s with
  | mk result next =>
    rw [hnext] at h
    simp only at h
    subst h
    rfl

theorem run_standing (envs : List Envelope) {encs : List Bytes} {n : ℕ} {s s' : σ}
    (hencs : encodeRun xxh3 base envs = .ok encs) (hvalid : validator.run base envs s = .ok s')
    (hn : n ≤ encs.flatten.length) (h : Standing replay base (encs.flatten.take n)) :
    ∃ outs,(∀ fuel,(envs.take (wholeCount encs n)).length < fuel →
        replay.run xxh3 validator fuel s = some (.ok (outs,
          ⟨replay.offset+boundary encs n,decide (boundary encs n ≠ n)⟩))) ∧
      List.Forall₂ (Yields xxh3) outs (envs.take (wholeCount encs n)) := by
  induction envs generalizing replay base encs n s with
  | nil =>
    obtain rfl := Except.ok.inj hencs
    obtain rfl : n = 0 := Nat.le_zero.mp hn
    refine ⟨[],fun fuel hfuel => ?_,.nil⟩
    obtain ⟨fuel,rfl⟩ : ∃ k,fuel = k+1 := ⟨fuel-1,by omega⟩
    exact run_finished (nextEnvelope_end h s)
  | cons v rest ih =>
    obtain ⟨bytes,others,hbytes,hothers,rfl⟩ := encodeRun_cons hencs
    obtain ⟨s₁,hfirst,hrest⟩ := bind_eq_ok hvalid
    have haccepted:=encodeEnvelope_accepted hbytes
    rw [flatten_cons,length_append] at hn
    rw [flatten_cons] at h
    by_cases hcut : n < bytes.length
    · -- the log ends inside this envelope
      rw [take_append_of_le_length hcut.le] at h
      refine ⟨[],fun fuel hfuel => ?_,?_⟩
      · obtain ⟨fuel,rfl⟩ : ∃ k,fuel = k+1 := ⟨fuel-1,by omega⟩
        rw [run_finished (nextEnvelope_cut h haccepted hcut s),boundary_cons_of_lt hcut]
        simp only [Nat.add_zero,ne_comm]
      · rw [wholeCount,if_pos hcut]
        exact .nil
    · rw [List.take_append,take_of_length_le (not_lt.mp hcut)] at h
      obtain ⟨out,hnext,hyields⟩ := nextEnvelope_whole h haccepted hfirst
      obtain ⟨outs,hrun,houts⟩ := ih hothers hrest (by omega) (h.behind v.state)
      refine ⟨out::outs,fun fuel hfuel => ?_,?_⟩
      · obtain ⟨fuel,rfl⟩ : ∃ k,fuel = k+1 := ⟨fuel-1,by omega⟩
        rw [wholeCount,if_neg hcut,take_succ_cons,length_cons] at hfuel
        rw [Replay.run,hnext]
        simp only
        rw [hrun fuel (by omega),boundary_cons_of_le (not_lt.mp hcut)]
        simp only [Option.map_some,Except.map,Replay.behind]
        have hmoved : (boundary others (n-bytes.length) ≠ n-bytes.length) =
            (bytes.length+boundary others (n-bytes.length) ≠ n) := by
          rw [eq_iff_iff]
          omega
        simp only [hmoved,Nat.add_assoc]
      · rw [wholeCount,if_neg hcut,take_succ_cons]
        exact .cons hyields houts

theorem new_encode {first : U64} {header written : Bytes}
    (hheader : encodeHeader xxh3 base.store first = .ok header)
    (hfirst : checkedAdd base.sequence 1 = some first) (hwritten : stateWrite base = .ok written)
    (hsize : written.length ≤ maxEnvelopeBytes) (left : Bytes) :
    ∃ replay,Replay.new xxh3 (header++left) base = .ok replay ∧
      replay.offset = headerBytes ∧ Standing replay base left := by
  have hlen:=encodeHeader_length hheader
  refine ⟨⟨header++left,base,headerBytes,false,none⟩,?_,rfl,rfl,rfl,rfl,?_,?_⟩
  · rw [Replay.new,readHeader_encode hheader,ok_bind,hfirst,if_neg (by simp),hwritten,ok_bind,
      if_neg (not_lt.mpr hsize)]
    rfl
  · rw [length_append,hlen]
    exact Nat.le_add_right _ _
  · change (header++left).drop headerBytes = left
    rw [← hlen,drop_left]

end Runs

section Framing
variable {xxh3 : Bytes → U64} {base : CommitState} {v : Envelope} {bytes : Bytes}

theorem checkedSub_of_checkedAdd {a b : U64} (h : checkedAdd a 1 = some b) :
    checkedSub b 1 = some a := by
  have hsum:=checkedAdd_eq_some h
  obtain ⟨c,hc,hcNat⟩ := checkedSub_of_le (show (1 : U64).toNat ≤ b.toNat by omega)
  rw [hc,BitVec.eq_of_toNat_eq (show c.toNat = a.toNat by omega)]

def framingBase (store : StoreInstanceId) (generation : GraphGeneration) (previous : U64)
    (state : CommitState) : CommitState :=
  { state with
    store := store
    generation := generation
    sequence := previous
    highWaters := ⟨0,0,List.replicate 4 0,0,zero_symbols⟩ }

/-- Of its base an envelope needs only the position and marks that are not above its own. -/
theorem validateTransition_bare {base next : CommitState} (hstore : base.store = next.store)
    (hgeneration : base.generation < next.generation)
    (hsequence : checkedAdd base.sequence 1 = some next.sequence)
    (hmarks : base.highWaters = ⟨0,0,List.replicate 4 0,0,by simp⟩) :
    validateTransition base next = .ok () := by
  have hsymbols : (((List.replicate 4 (0 : U64)).zip next.highWaters.symbols).any fun marks =>
      decide (marks.2 < marks.1)) = false := by
    rw [any_eq_false]
    intro marks hmarks
    have hzero:=eq_of_mem_replicate (of_mem_zip hmarks).1
    rw [decide_eq_true_eq,hzero]
    exact BitVec.not_lt_zero
  rw [validateTransition,if_neg (not_not.mpr hstore),if_neg,hmarks,if_neg]
  · rintro (h | h | h | h)
    · exact BitVec.not_lt_zero h
    · exact BitVec.not_lt_zero h
    · exact BitVec.not_lt_zero h
    · rw [hsymbols] at h
      exact Bool.false_ne_true h
  · rintro (h | h)
    · exact absurd h (BitVec.not_le.mpr hgeneration)
    · exact h hsequence

theorem Accepted.rebase (h : Accepted xxh3 base v bytes) {base' : CommitState}
    (hstore : base'.store = base.store) (hgeneration : base'.generation = base.generation)
    (hsequence : base'.sequence = base.sequence)
    (hmarks : base'.highWaters = ⟨0,0,List.replicate 4 0,0,by simp⟩) :
    Accepted xxh3 base' v bytes := by
  obtain ⟨hsame,hnext,hposition⟩ := validateTransition_spec h.transition
  obtain ⟨first,changes,state,last,hparts⟩ := h.parts
  have hopened:=hparts.opened
  rw [beginPayload,← hgeneration] at hopened
  refine ⟨validateTransition_bare (hstore.trans hsame.symm) (hgeneration ▸ hnext)
    (hsequence ▸ hposition) hmarks,h.kinds,h.mutations,h.count,h.size,first,changes,state,
    last,hopened,hparts.changed,hparts.written,hparts.closed,hparts.joined⟩

theorem Accepted.framing (h : Accepted xxh3 base v bytes) :
    Accepted xxh3 (framingBase v.state.store base.generation base.sequence v.state) v bytes :=
  h.rebase (validateTransition_spec h.transition).1 rfl rfl rfl

theorem frameCount_payload (hcount : v.changes.length ≤ maxEnvelopeBytes / 72) {size : ℕ}
    (hsize : size ≤ maxEnvelopeBytes) (hchanges : v.changes.length*72 ≤ size) :
    frameCount (beginPayload base v size) size =
      .ok (v.state.store,base.generation,BitVec.ofNat 32 v.changes.length) := by
  have hend : toLe 8 (BitVec.ofNat 64 size) = toLe 8 (BitVec.ofNat 64 size)++[] :=
    (append_nil _).symm
  have hkind : ∀ rest : Bytes,take 8 (toLe 1 (kindByte v.kind)++(zeros 7++rest)) =
      .ok (toLe 1 (kindByte v.kind)++zeros 7,rest) := by
    intro rest
    rw [← append_assoc]
    exact take_append _ _ _ (by simp)
  simp only [frameCount,beginPayload]
  rw [hend,u128_append,ok_bind]
  simp only [NonzeroId.new_get]
  simp only [Except.mapError,ok_bind,hkind,u64_append,u32_append,zero_append,
    size_word hsize,count_word hcount]
  rw [if_neg (by omega),finish_nil]
  rfl

theorem EnvelopeParts.sequenceAt {size : ℕ} {first changes state last : Bytes}
    (h : EnvelopeParts xxh3 base v size first changes state last bytes) :
    fieldAt 64 bytes 16 8 = v.state.sequence := by
  have hlen:=h.length
  have hopened:=h.opened
  unfold record at hopened
  split_ifs at hopened
  have hfirst:=(Except.ok.inj hopened).symm
  have hlayout : Layout 1 0 v.batch v.state.sequence (beginPayload base v size).length bytes := by
    rw [h.joined,hfirst,recordHeader]
    simp only [append_assoc]
    exact recordFields_layout _ _
  have hfield:=hlayout.seqAt.fieldAt (n := bytes.length) rfl (by omega)
  rw [take_length] at hfield
  exact hfield

theorem validateEnvelopeFraming_accepted (h : Accepted xxh3 base v bytes) :
    validateEnvelopeFraming xxh3 bytes = .ok () := by
  obtain ⟨first,changes,state,last,hparts⟩ := h.parts
  obtain ⟨hfirstLen,hlastLen,hlen⟩ := hparts.length
  obtain ⟨-,hgeneration,hsequence⟩ := validateTransition_spec h.transition
  have hsize:=h.size
  have hchunk:=putChanges_ge hparts.changed
  have hbegin:=hparts.readFirst [] bytes.length
  rw [append_nil,take_length,if_neg (by omega)] at hbegin
  have hskip:=skipChanges_chunk hparts.changed (by omega) first last
  rw [← hparts.joined,hfirstLen] at hskip
  have hlast:=h.readLast hparts (n := bytes.length) (by omega)
  rw [take_length,if_neg (lt_irrefl _)] at hlast
  have hindex:=h.lastIndex
  rw [show (beginOf v bytes.length).count = BitVec.ofNat 32 v.changes.length from rfl] at hindex
  have hstate:=stateRead_write v.state state hparts.written []
  rw [append_nil] at hstate
  have hcommit : take 16 (commitPayload v (xxh3 (first++changes)) state) =
      .ok (toLe 4 (BitVec.ofNat 32 v.changes.length)++(zeros 4++
        toLe 8 (xxh3 (first++changes))),state) := by
    rw [show commitPayload v (xxh3 (first++changes)) state =
      (toLe 4 (BitVec.ofNat 32 v.changes.length)++(zeros 4++
        toLe 8 (xxh3 (first++changes))))++state by
          simp only [commitPayload,append_assoc]]
    exact take_append _ _ _ (by simp)
  have hprevious:=checkedSub_of_checkedAdd hsequence
  have haccepted : Accepted xxh3 (Replay.mk bytes (framingBase v.state.store base.generation
      base.sequence v.state) 0 false none).state v bytes := h.framing
  obtain ⟨out,hnext,-⟩ := nextInner_whole haccepted [] (by rw [append_nil]; rfl)
    (none : Option (ReplayValidator Unit)) (s := ()) rfl
  rw [validateEnvelopeFraming,if_neg (by omega),if_neg (by omega),hparts.sequenceAt,hbegin,
    ok_bind]
  simp only
  rw [frameCount_payload h.count h.size (by omega),ok_bind]
  simp only [count_word h.count,hskip,ok_bind]
  rw [if_neg (by omega),hindex]
  simp only
  rw [hlast,ok_bind]
  simp only [hcommit,ok_bind,hstate,finish_nil,hprevious]
  rw [show Replay.nextInner xxh3 (none : Option (ReplayValidator Unit))
    ⟨bytes,{ v.state with
      store := v.state.store
      generation := base.generation
      sequence := base.sequence
      highWaters := ⟨0,0,List.replicate 4 0,0,by simp⟩ },0,false,none⟩ () = _ from hnext,
    ok_bind]
  simp only [Nat.zero_add,if_true]
  rfl

theorem encodeRun_framing {envs : List Envelope} {encs : List Bytes}
    (h : encodeRun xxh3 base envs = .ok encs) :
    ∀ e ∈ encs,validateEnvelopeFraming xxh3 e = .ok () := by
  induction envs generalizing base encs with
  | nil =>
    obtain rfl := Except.ok.inj h
    intro e he
    cases he
  | cons v rest ih =>
    obtain ⟨bytes,others,hbytes,hothers,rfl⟩ := encodeRun_cons h
    intro e he
    rcases mem_cons.mp he with rfl | he
    · exact validateEnvelopeFraming_accepted (encodeEnvelope_accepted hbytes)
    · exact ih hothers e he

end Framing

theorem wholeCount_flatten (encs : List Bytes) :
    wholeCount encs encs.flatten.length = encs.length := by
  induction encs with
  | nil => rfl
  | cons e rest ih =>
    rw [wholeCount,flatten_cons,length_append,if_neg (by omega),
      Nat.add_sub_cancel_left,ih,length_cons]

theorem boundary_flatten (encs : List Bytes) :
    boundary encs encs.flatten.length = encs.flatten.length := by
  rw [boundary,wholeCount_flatten,take_length]

theorem encodeRun_length {xxh3 : Bytes → U64} {base : CommitState} {envs : List Envelope}
    {encs : List Bytes} (h : encodeRun xxh3 base envs = .ok encs) : encs.length = envs.length := by
  induction envs generalizing base encs with
  | nil =>
    obtain rfl := Except.ok.inj h
    rfl
  | cons v rest ih =>
    obtain ⟨bytes,others,hbytes,hothers,rfl⟩ := encodeRun_cons h
    rw [length_cons,length_cons,ih hothers]

def Replays {σ : Type} (xxh3 : Bytes → U64) (validator : ReplayValidator σ) (base : CommitState)
    (s : σ) (log : Bytes) (envs : List Envelope) (ending : ReplayEnd) : Prop :=
  ∃ replay outs,Replay.new xxh3 log base = .ok replay ∧
    (∀ fuel,envs.length < fuel → replay.run xxh3 validator fuel s = some (.ok (outs,ending))) ∧
    List.Forall₂ (Yields xxh3) outs envs

/-- A log that was written envelope by envelope: each envelope is well framed, the log
is replayed whole, and cut anywhere behind its header it is replayed up to the last
boundary before the cut. -/
theorem replay_cut_log {σ : Type} {xxh3 : Bytes → U64} {validator : ReplayValidator σ}
    {base : CommitState} {first : U64} {header written : Bytes} {envs : List Envelope}
    {encs : List Bytes} {s s' : σ} (hfirst : checkedAdd base.sequence 1 = some first)
    (hheader : encodeHeader xxh3 base.store first = .ok header)
    (hwritten : stateWrite base = .ok written) (hsize : written.length ≤ maxEnvelopeBytes)
    (hencs : encodeRun xxh3 base envs = .ok encs)
    (hvalid : validator.run base envs s = .ok s') :
    Replays xxh3 validator base s (header++encs.flatten) envs
        ⟨(header++encs.flatten).length,false⟩ ∧
      (∀ e ∈ encs,validateEnvelopeFraming xxh3 e = .ok ()) ∧
      ∀ n < encs.flatten.length,
        Replays xxh3 validator base s ((header++encs.flatten).take (header.length+n))
          (envs.take (wholeCount encs n))
          ⟨header.length+boundary encs n,decide (boundary encs n ≠ n)⟩ := by
  have hlen:=encodeHeader_length hheader
  have hcut : ∀ n ≤ encs.flatten.length,
      Replays xxh3 validator base s (header++encs.flatten.take n)
        (envs.take (wholeCount encs n))
        ⟨header.length+boundary encs n,decide (boundary encs n ≠ n)⟩ := by
    intro n hn
    obtain ⟨replay,hnew,hoffset,hstanding⟩ :=
      new_encode hheader hfirst hwritten hsize (encs.flatten.take n)
    obtain ⟨outs,hrun,houts⟩ := run_standing envs hencs hvalid hn hstanding
    rw [hoffset,← hlen] at hrun
    exact ⟨replay,outs,hnew,hrun,houts⟩
  refine ⟨?_,encodeRun_framing hencs,fun n hn => ?_⟩
  · have hwhole:=hcut encs.flatten.length le_rfl
    rw [take_length,wholeCount_flatten,boundary_flatten,encodeRun_length hencs,
      take_length,← length_append,decide_eq_false (not_not.mpr rfl)] at hwhole
    exact hwhole
  · rw [take_length_add_append]
    exact hcut n hn.le

def sampleRef (kind : BlockKind) : RequiredRef :=
  ⟨⟨⟨1,one_nonzero⟩,⟨2,two_nonzero⟩,1,1,200,17,1,0⟩,⟨⟨2,two_nonzero⟩,96,24,kind,1⟩⟩

def sampleState (generation sequence : U64) (node : U128) : CommitState where
  store := ⟨1,one_nonzero⟩
  generation := generation
  sequence := sequence
  graph := ⟨List.replicate 8 none,no_roots⟩
  catalog := sampleRef .commitParticipant
  vector := none
  text := none
  reclaim := none
  highWaters := ⟨node,0,List.replicate 4 0,1,zero_symbols⟩
  preparedInventories := []

def sampleEnvelope : Envelope where
  batch := ⟨7,seven_nonzero⟩
  kind := .mutation
  changes := [.mutation
    { provenanceVersion := 1
      provenance :=
        { operation := .structuredCreate
          key := some ⟨.node,"s","k"⟩
          requestedRevision := ⟨1,one_revision⟩
          installedRevision := ⟨1,one_revision⟩
          expected := .absent
          incarnation := .node 1
          deleteMode := none
          originalGeneration := 2 }
      live := true
      canonical := some (sampleRef .canonicalImage)
      membership := ⟨false,false,false,false⟩ }]
  state := sampleState 2 1 1

def acceptAll : ReplayValidator Unit :=
  ⟨fun _ _ s => .ok s,fun _ s => .ok s,fun _ s => .ok s,fun _ s => .ok s,fun _ s => .ok s,
    fun _ _ _ _ s => .ok s⟩

theorem replay_cut_log_sample : ∃ header encs,
    encodeHeader (fun bytes => BitVec.ofNat 64 bytes.length) ⟨1,by decide⟩ 1 = .ok header ∧
    encodeRun (fun bytes => BitVec.ofNat 64 bytes.length) (sampleState 1 0 0) [sampleEnvelope] =
      .ok encs ∧
    Replays (fun bytes => BitVec.ofNat 64 bytes.length) acceptAll (sampleState 1 0 0) ()
      (header++encs.flatten) [sampleEnvelope] ⟨(header++encs.flatten).length,false⟩ := by
  have hvalid : acceptAll.run (sampleState 1 0 0) [sampleEnvelope] () = .ok () := by
    decide +kernel
  obtain ⟨header,hheader,-⟩ := exists_ok (p := fun _ => true) (show (encodeHeader
    (fun bytes => BitVec.ofNat 64 bytes.length) ⟨1,by decide⟩ 1).toOption.any _ = true by
      decide +kernel)
  obtain ⟨written,hwritten,hsize⟩ := exists_ok
    (p := fun w => decide (w.length ≤ maxEnvelopeBytes))
    (show (stateWrite (sampleState 1 0 0)).toOption.any _ = true by decide +kernel)
  obtain ⟨encs,hencs,-⟩ := exists_ok (p := fun _ => true) (show (encodeRun
    (fun bytes => BitVec.ofNat 64 bytes.length) (sampleState 1 0 0) [sampleEnvelope]).toOption.any
      _ = true by decide +kernel)
  have hlog:=replay_cut_log (show checkedAdd (sampleState 1 0 0).sequence 1 = some 1 by decide)
    hheader hwritten (of_decide_eq_true hsize) hencs hvalid
  exact ⟨header,encs,hheader,hencs,hlog.1⟩

end Zeppelin.GraphWal
