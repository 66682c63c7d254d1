import Zeppelin.GraphWal.Replay

namespace Zeppelin.GraphWal
open PropertyGraph List

section Blocks
variable {xxh3 : Bytes → U64} {base : CommitState} {v : Envelope}

variable {f g : Bytes → U64} {a b : Bytes} {size : ℕ}

theorem putChanges_length {index : ℕ} {changes : List Change}
    (ha : putChanges f v index changes = .ok a) (hb : putChanges g v index changes = .ok b) :
    a.length = b.length := by
  induction changes generalizing index a b with
  | nil =>
    obtain rfl := Except.ok.inj ha
    obtain rfl := Except.ok.inj hb
    rfl
  | cons change changes ih =>
    obtain ⟨payload,hpayload,ha⟩ := bind_eq_ok ha
    obtain ⟨first,hfirst,ha⟩ := bind_eq_ok ha
    obtain ⟨others,hothers,ha⟩ := bind_eq_ok ha
    obtain ⟨payload',hpayload',hb⟩ := bind_eq_ok hb
    obtain ⟨first',hfirst',hb⟩ := bind_eq_ok hb
    obtain ⟨others',hothers',hb⟩ := bind_eq_ok hb
    obtain rfl := Except.ok.inj ha
    obtain rfl := Except.ok.inj hb
    obtain rfl := Except.ok.inj (hpayload.symm.trans hpayload')
    rw [length_append,length_append,record_length hfirst,record_length hfirst',
      ih hothers hothers']

theorem putChanges_ge {index : ℕ} {changes : List Change} {bytes : Bytes}
    (h : putChanges xxh3 v index changes = .ok bytes) : changes.length*72 ≤ bytes.length := by
  induction changes generalizing index bytes with
  | nil => simp
  | cons change changes ih =>
    obtain ⟨payload,hpayload,h⟩ := bind_eq_ok h
    obtain ⟨first,hfirst,h⟩ := bind_eq_ok h
    obtain ⟨others,hothers,rfl⟩ := bind_pure_eq_ok h
    have hrest:=ih hothers
    rw [length_append,record_length hfirst,length_cons]
    omega

theorem beginPayload_length (base : CommitState) (v : Envelope) (size : ℕ) :
    (beginPayload base v size).length = 56 := by
  simp [beginPayload]

structure EnvelopeParts (xxh3 : Bytes → U64) (base : CommitState) (v : Envelope) (size : ℕ)
    (first changes state last bytes : Bytes) : Prop where
  opened : record xxh3 1 0 v.batch v.state.sequence (beginPayload base v size) = .ok first
  changed : putChanges xxh3 v 1 v.changes = .ok changes
  written : stateWrite v.state = .ok state
  closed : record xxh3 6 (BitVec.ofNat 32 (v.changes.length+1)) v.batch v.state.sequence
    (commitPayload v (xxh3 (first++changes)) state) = .ok last
  joined : bytes = first++(changes++last)

theorem envelopeWrite_parts {bytes : Bytes} (h : envelopeWrite xxh3 base v size = .ok bytes) :
    ∃ first changes state last,EnvelopeParts xxh3 base v size first changes state last bytes := by
  obtain ⟨first,hfirst,h⟩ := bind_eq_ok h
  obtain ⟨changes,hchanges,h⟩ := bind_eq_ok h
  obtain ⟨state,hstate,h⟩ := bind_eq_ok h
  obtain ⟨last,hlast,h⟩ := bind_eq_ok h
  exact ⟨first,changes,state,last,hfirst,hchanges,hstate,hlast,(Except.ok.inj h).symm⟩

theorem EnvelopeParts.length {first changes state last bytes : Bytes}
    (h : EnvelopeParts xxh3 base v size first changes state last bytes) :
    first.length = 128 ∧ last.length = state.length+88 ∧
      bytes.length = 216+changes.length+state.length := by
  have hfirst:=record_length h.opened
  have hlast:=record_length h.closed
  rw [beginPayload_length] at hfirst
  rw [commitPayload] at hlast
  simp only [length_append,toLe_length,zeros_length] at hlast
  refine ⟨hfirst,by omega,?_⟩
  rw [h.joined,length_append,length_append]
  omega

theorem envelopeWrite_length {size' : ℕ}
    (ha : envelopeWrite f base v size = .ok a) (hb : envelopeWrite g base v size' = .ok b) :
    a.length = b.length := by
  obtain ⟨first,changes,state,last,ha⟩ := envelopeWrite_parts ha
  obtain ⟨first',changes',state',last',hb⟩ := envelopeWrite_parts hb
  have hstate:=Except.ok.inj (ha.written.symm.trans hb.written)
  have hchanges:=putChanges_length ha.changed hb.changed
  rw [ha.length.2.2,hb.length.2.2,hchanges,hstate]

structure Accepted (xxh3 : Bytes → U64) (base : CommitState) (v : Envelope) (bytes : Bytes) :
    Prop where
  transition : validateTransition base v.state = .ok ()
  kinds : ∀ c ∈ v.changes,admitsChange v.kind c = true
  mutations : v.changes.countP Change.isMutation ≤ maxGraphChanges
  count : v.changes.length ≤ maxEnvelopeBytes / 72
  size : bytes.length ≤ maxEnvelopeBytes
  parts : ∃ first changes state last,
    EnvelopeParts xxh3 base v bytes.length first changes state last bytes

theorem encodeEnvelope_accepted {bytes : Bytes} (h : encodeEnvelope xxh3 base v = .ok bytes) :
    Accepted xxh3 base v bytes := by
  obtain ⟨size,hsize,h⟩ := bind_eq_ok h
  obtain ⟨⟨⟩,htransition,hsize⟩ := bind_eq_ok hsize
  split_ifs at hsize with hcount hkinds hmutations
  obtain ⟨measured,hmeasured,hsize⟩ := bind_eq_ok hsize
  split_ifs at hsize with hlarge
  obtain rfl := Except.ok.inj hsize
  have hlength:=envelopeWrite_length h hmeasured
  refine ⟨htransition,?_,not_lt.mp hmutations,not_lt.mp hcount,by omega,?_⟩
  · rw [Bool.not_eq_false] at hkinds
    exact all_eq_true.mp hkinds
  · rw [hlength]
    exact envelopeWrite_parts h

theorem Change.tag_mem (c : Change) : c.tag ∈ [2,3,4,5] := by
  cases c <;> simp [Change.tag]

theorem misplaced_tag (kind : EnvelopeKind) (c : Change) :
    misplaced kind c.tag = !admitsChange kind c := by
  cases kind <;> cases c <;> rfl

theorem tag_eq_two (c : Change) : c.tag = 2 ↔ c.isMutation = true := by
  cases c <;> simp [Change.tag,Change.isMutation]

theorem expects_change {c : Change} {length : ℕ} {batch : BatchId}
    (hsize : length+72 ≤ maxEnvelopeBytes) : Expects batch c.tag length (some batch) none := by
  refine ⟨fun b hb => (Option.some.inj hb).symm,.inr ⟨rfl,c.tag_mem⟩,fun h => ?_,?_,hsize⟩
  · cases h
  · cases c <;> (simp only [Change.tag]; decide)

section Records
variable {index : ℕ} {change : Change} {changes : List Change} {chunk : Bytes}

theorem putChanges_cons (h : putChanges xxh3 v index (change::changes) = .ok chunk) :
    ∃ payload first others,change.write v.state = .ok payload ∧
      record xxh3 change.tag (BitVec.ofNat 32 index) v.batch v.state.sequence payload = .ok first ∧
      putChanges xxh3 v (index+1) changes = .ok others ∧ chunk = first++others := by
  obtain ⟨payload,hpayload,h⟩ := bind_eq_ok h
  obtain ⟨first,hfirst,h⟩ := bind_eq_ok h
  obtain ⟨others,hothers,h⟩ := bind_eq_ok h
  exact ⟨payload,first,others,hpayload,hfirst,hothers,(Except.ok.inj h).symm⟩

theorem drop_take_behind {a b : Bytes} {cursor n : ℕ} (ha : a.length = cursor) :
    ((a++b).take n).drop cursor = b.take (n-cursor) := by
  subst ha
  rw [drop_take,drop_left]

theorem scanChanges_take {looser : CommitState} (hlooser : v.state.Within looser)
    (hchunk : putChanges xxh3 v index changes = .ok chunk) (hsize : chunk.length ≤ maxEnvelopeBytes)
    (hkinds : ∀ c ∈ changes,admitsChange v.kind c = true) (mutations : ℕ)
    (hmutations : mutations+changes.countP Change.isMutation ≤ maxGraphChanges)
    (front tail : Bytes) (cursor : ℕ) {n : ℕ} (hfront : front.length = cursor)
    (hn : cursor ≤ n) :
    scanChanges xxh3 ((front++(chunk++tail)).take n) v.batch v.state.sequence v.kind looser
        changes.length index cursor mutations =
      .ok (if n < cursor+chunk.length then none else some (cursor+chunk.length)) := by
  induction changes generalizing index chunk front cursor mutations with
  | nil =>
    obtain rfl := Except.ok.inj hchunk
    rw [length_nil,scanChanges,length_nil,Nat.add_zero,if_neg (by omega)]
  | cons change changes ih =>
    obtain ⟨payload,first,others,hpayload,hfirst,hothers,rfl⟩ := putChanges_cons hchunk
    rw [length_append] at hsize
    have hlen:=record_length hfirst
    have hadmits:=hkinds change mem_cons_self
    rw [length_cons,scanChanges,if_neg]
    · rw [drop_take_behind hfront,append_assoc,
        readRecord_take hfirst (expects_change (by omega)),ok_bind]
      by_cases hcut : n-cursor < first.length
      · rw [if_pos hcut,if_pos (by rw [length_append]; omega)]
        rfl
      · rw [if_neg hcut]
        simp only
        rw [if_neg,if_neg,if_neg,Change.read_write hlooser hpayload,ok_bind]
        · have hcount : (if change.tag = 2 then mutations+1 else mutations)+
              changes.countP Change.isMutation ≤ maxGraphChanges := by
            rw [countP_cons] at hmutations
            by_cases hmutation : change.tag = 2
            · rw [if_pos hmutation]
              rw [if_pos ((tag_eq_two change).mp hmutation)] at hmutations
              omega
            · rw [if_neg hmutation]
              omega
          have hrest:=ih hothers (by omega) (fun c hc => hkinds c (mem_cons_of_mem _ hc)) _
            hcount (front++first) (cursor+first.length) (by rw [length_append,hfront])
            (by omega)
          rw [append_assoc] at hrest
          rw [hrest,length_append]
          simp only [← Nat.add_assoc]
        · rintro ⟨htag,hmany⟩
          rw [countP_cons,if_pos ((tag_eq_two change).mp htag)] at hmutations
          omega
        · rw [misplaced_tag,hadmits]
          exact Bool.false_ne_true
        · cases change <;> simp [Change.tag]
    · rw [length_take,length_append,hfront]
      omega

theorem readRecord_whole {kind : U16} {index : U32} {batch : BatchId} {seq : U64}
    {payload bytes : Bytes} {knownBatch : Option BatchId} {knownKind : Option U16}
    (h : record xxh3 kind index batch seq payload = .ok bytes)
    (hexpects : Expects batch kind payload.length knownBatch knownKind) (rest : Bytes) :
    readRecord xxh3 (bytes++rest) index knownBatch seq knownKind =
      .ok (some ⟨kind,batch,payload,bytes.length⟩) := by
  have htake:=readRecord_take h hexpects rest (bytes++rest).length
  rw [take_length,if_neg (by rw [length_append]; omega)] at htake
  exact htake

theorem drain_chunk (hchunk : putChanges xxh3 v index changes = .ok chunk)
    (hsize : chunk.length ≤ maxEnvelopeBytes) (front : Bytes) {fuel : ℕ}
    (hfuel : changes.length < fuel) :
    ChangeReader.drain xxh3 fuel
      ⟨front++chunk,v.state,v.batch,front.length,index,changes.length⟩ = .ok changes := by
  induction changes generalizing index chunk front fuel with
  | nil =>
    obtain rfl := Except.ok.inj hchunk
    obtain ⟨fuel,rfl⟩ : ∃ n,fuel = n+1 := ⟨fuel-1,by omega⟩
    simp [ChangeReader.drain,ChangeReader.next]
    rfl
  | cons change changes ih =>
    obtain ⟨payload,first,others,hpayload,hfirst,hothers,rfl⟩ := putChanges_cons hchunk
    obtain ⟨fuel,rfl⟩ : ∃ n,fuel = n+1 := ⟨fuel-1,by omega⟩
    rw [length_append] at hsize
    rw [length_cons] at hfuel
    have hlen:=record_length hfirst
    have hread : readRecord xxh3 ((front++(first++others)).drop front.length)
        (BitVec.ofNat 32 index) (some v.batch) v.state.sequence none =
        .ok (some ⟨change.tag,v.batch,payload,first.length⟩) := by
      rw [drop_left]
      exact readRecord_whole hfirst (expects_change (by omega)) others
    have hrest:=ih hothers (by omega) (front++first) (show changes.length < fuel by omega)
    rw [append_assoc,length_append] at hrest
    simp only [ChangeReader.drain,ChangeReader.next,length_cons,hread,ok_bind,
      Nat.add_one_ne_zero,if_false,Change.read_write (.refl v.state) hpayload]
    simp only [Nat.add_sub_cancel]
    change (ChangeReader.drain xxh3 fuel _ >>= _) = _
    rw [hrest]
    rfl

theorem toList_chunk (hchunk : putChanges xxh3 v 1 changes = .ok chunk)
    (hsize : chunk.length ≤ maxEnvelopeBytes) :
    ChangeReader.toList xxh3 ⟨chunk,v.state,v.batch,0,1,changes.length⟩ = .ok changes :=
  drain_chunk hchunk hsize [] (Nat.lt_succ_self _)

theorem admitChanges_chunk {σ : Type} (validator : ReplayValidator σ)
    (hchunk : putChanges xxh3 v index changes = .ok chunk) (hsize : chunk.length ≤ maxEnvelopeBytes)
    (front : Bytes) (s : σ) :
    admitChanges xxh3 validator (front++chunk) v.batch v.state.sequence v.state changes.length
      index front.length s = changes.foldlM (fun s c => validator.change c s) s := by
  induction changes generalizing index chunk front s with
  | nil => rfl
  | cons change changes ih =>
    obtain ⟨payload,first,others,hpayload,hfirst,hothers,rfl⟩ := putChanges_cons hchunk
    rw [length_append] at hsize
    have hlen:=record_length hfirst
    rw [length_cons,admitChanges,drop_left,
      readRecord_whole hfirst (expects_change (by omega)) others,ok_bind]
    simp only
    rw [Change.read_write (.refl v.state) hpayload,ok_bind,foldlM_cons]
    cases hchange : validator.change change s with
    | error error => rfl
    | ok next =>
      have hrest:=ih hothers (by omega) (front++first) next
      rw [append_assoc,length_append] at hrest
      rw [ok_bind,ok_bind,hrest]

theorem skipChanges_chunk (hchunk : putChanges xxh3 v index changes = .ok chunk)
    (hsize : chunk.length ≤ maxEnvelopeBytes) (front tail : Bytes) :
    skipChanges xxh3 (front++(chunk++tail)) v.batch v.state.sequence changes.length index
      front.length = .ok (front.length+chunk.length) := by
  induction changes generalizing index chunk front with
  | nil =>
    obtain rfl := Except.ok.inj hchunk
    rfl
  | cons change changes ih =>
    obtain ⟨payload,first,others,hpayload,hfirst,hothers,rfl⟩ := putChanges_cons hchunk
    rw [length_append] at hsize
    have hlen:=record_length hfirst
    rw [length_cons,skipChanges,if_neg (by rw [length_append]; omega),drop_left,
      append_assoc,readRecord_whole hfirst (expects_change (by omega)),ok_bind]
    simp only
    have hrest:=ih hothers (by omega) (front++first)
    rw [append_assoc,length_append] at hrest
    rw [hrest,length_append,Nat.add_assoc]

end Records

theorem validateTransition_spec {next : CommitState} (h : validateTransition base next = .ok ()) :
    next.store = base.store ∧ base.generation < next.generation ∧
      checkedAdd base.sequence 1 = some next.sequence := by
  unfold validateTransition at h
  split_ifs at h with hstore hposition hmarks
  rw [not_or,not_not,BitVec.not_le] at hposition
  exact ⟨(not_not.mp hstore).symm,hposition.1,hposition.2⟩

theorem within_provisional (h : validateTransition base v.state = .ok ()) :
    v.state.Within (provisional base v.state.generation v.state.sequence) := by
  obtain ⟨hstore,-,-⟩ := validateTransition_spec h
  refine ⟨hstore.symm,rfl,rfl,?_,?_,?_⟩ <;>
  · rw [BitVec.le_def]
    simp only [provisional,BitVec.toNat_allOnes]
    exact Nat.le_sub_one_of_lt (BitVec.isLt _)

@[simp] theorem readEnvelopeKind_byte (kind : EnvelopeKind) :
    readEnvelopeKind (kindByte kind) = .ok kind := by
  cases kind <;> rfl

theorem count_word {n : ℕ} (h : n ≤ maxEnvelopeBytes / 72) : (BitVec.ofNat 32 n).toNat = n := by
  rw [BitVec.toNat_ofNat,Nat.mod_eq_of_lt]
  simp only [maxEnvelopeBytes] at h
  omega

theorem size_word {n : ℕ} (h : n ≤ maxEnvelopeBytes) : (BitVec.ofNat 64 n).toNat = n := by
  rw [BitVec.toNat_ofNat,Nat.mod_eq_of_lt]
  simp only [maxEnvelopeBytes] at h
  omega

def beginOf (v : Envelope) (size : ℕ) : Begin :=
  ⟨v.kind,v.state.generation,BitVec.ofNat 32 v.changes.length,size⟩

theorem readBegin_payload (htransition : validateTransition base v.state = .ok ())
    (hcount : v.changes.length ≤ maxEnvelopeBytes / 72) {size : ℕ} (hsize : size ≤ maxEnvelopeBytes)
    (hlarge : 200 ≤ size) (hchanges : v.changes.length*72 ≤ size) :
    readBegin base ⟨1,v.batch,beginPayload base v size,128⟩ = .ok (beginOf v size) := by
  obtain ⟨hstore,hgeneration,-⟩ := validateTransition_spec htransition
  have hend : toLe 8 (BitVec.ofNat 64 size) = toLe 8 (BitVec.ofNat 64 size)++[] :=
    (append_nil _).symm
  simp only [readBegin,beginPayload]
  rw [hend,u128_append,ok_bind]
  simp only [hstore,ne_eq,not_true_eq_false,if_false,u8_append,ok_bind,readEnvelopeKind_byte,
    zero_append,u64_append]
  rw [if_neg (BitVec.not_le.mpr hgeneration)]
  simp only [u32_append,ok_bind,zero_append,u64_append,finish_nil,size_word hsize,
    count_word hcount]
  rw [if_neg (by omega)]
  rfl

theorem readCommit_payload (htransition : validateTransition base v.state = .ok ())
    {state : Bytes} (hstate : stateWrite v.state = .ok state) (size : ℕ) (before : Bytes) :
    readCommit xxh3 base (beginOf v size) v.state.sequence before
      (commitPayload v (xxh3 before) state) = .ok v.state := by
  have hread:=stateRead_write v.state state hstate []
  rw [append_nil] at hread
  simp only [readCommit,commitPayload,u32_append,ok_bind,beginOf,ne_eq,not_true_eq_false,
    if_false,zero_append,u64_append,hread,finish_nil,htransition]
  simp
  rfl

section Cuts
variable {bytes first changes state last : Bytes} (h : Accepted xxh3 base v bytes)
  (hparts : EnvelopeParts xxh3 base v bytes.length first changes state last bytes)
include h

theorem Accepted.count_toNat : (beginOf v bytes.length).count.toNat = v.changes.length :=
  count_word h.count

theorem Accepted.lastIndex : checkedAdd (beginOf v bytes.length).count 1 =
    some (BitVec.ofNat 32 (v.changes.length+1)) := by
  have hcount:=h.count
  have hlt : (beginOf v bytes.length).count.toNat+(1 : U32).toNat < 2^32 := by
    rw [h.count_toNat]
    simp only [maxEnvelopeBytes] at hcount
    simp
    omega
  rw [checkedAdd_of_lt hlt,beginOf,BitVec.ofNat_add]
  rfl

include hparts

theorem Accepted.readBegin : GraphWal.readBegin base
    ⟨1,v.batch,beginPayload base v bytes.length,128⟩ = .ok (beginOf v bytes.length) := by
  have hlen:=hparts.length.2.2
  have hge:=putChanges_ge hparts.changed
  exact readBegin_payload h.transition h.count h.size (by omega) (by omega)

omit h in
theorem EnvelopeParts.readFirst (more : Bytes) (n : ℕ) :
    readRecord xxh3 ((bytes++more).take n) 0 none v.state.sequence (some 1) =
      .ok (if n < 128 then none
        else some ⟨1,v.batch,beginPayload base v bytes.length,128⟩) := by
  have hexpects : Expects v.batch 1 (beginPayload base v bytes.length).length none (some 1) := by
    refine ⟨fun b hb => (nomatch hb),.inl rfl,fun _ => beginPayload_length ..,by decide,?_⟩
    rw [beginPayload_length]
    decide
  have hread:=readRecord_take hparts.opened hexpects (changes++(last++more)) n
  have hstream : bytes++more = first++(changes++(last++more)) := by
    rw [hparts.joined]
    simp only [append_assoc]
  rw [hparts.length.1] at hread
  rw [hstream]
  exact hread

theorem Accepted.scanChanges {n : ℕ} (hn : 128 ≤ n) :
    GraphWal.scanChanges xxh3 (bytes.take n) v.batch v.state.sequence v.kind
        (provisional base v.state.generation v.state.sequence) v.changes.length 1 128 0 =
      .ok (if n < 128+changes.length then none else some (128+changes.length)) := by
  have hsize:=h.size
  have hlen:=hparts.length
  have hscan:=scanChanges_take (within_provisional h.transition) hparts.changed (by omega)
    h.kinds 0 (by rw [Nat.zero_add]; exact h.mutations) first last 128 hlen.1 hn
  rw [← hparts.joined] at hscan
  exact hscan

theorem Accepted.readLast {n : ℕ} (hn : 128+changes.length ≤ n) :
    readRecord xxh3 ((bytes.take n).drop (128+changes.length))
        (BitVec.ofNat 32 (v.changes.length+1)) (some v.batch) v.state.sequence (some 6) =
      .ok (if n < bytes.length then none
        else some ⟨6,v.batch,commitPayload v (xxh3 (first++changes)) state,last.length⟩) := by
  have hsize:=h.size
  obtain ⟨hfirst,hlast,hlen⟩ := hparts.length
  have hrecord:=record_length hparts.closed
  have hexpects : Expects v.batch 6 (commitPayload v (xxh3 (first++changes)) state).length
      (some v.batch) (some 6) := by
    refine ⟨fun b hb => (Option.some.inj hb).symm,.inl rfl,fun heq => ?_,by decide,by omega⟩
    exact absurd (Option.some.inj heq) (by decide)
  have hread:=readRecord_take hparts.closed hexpects [] (n-(128+changes.length))
  have hfront : (first++changes).length = 128+changes.length := by
    rw [length_append,hfirst]
  have hdrop : (bytes.take n).drop (128+changes.length) =
      (last++[]).take (n-(128+changes.length)) := by
    rw [append_nil,hparts.joined,← append_assoc]
    exact drop_take_behind hfront
  rw [hdrop,hread]
  congr 1
  by_cases hcut : n < bytes.length
  · rw [if_pos hcut,if_pos (by omega)]
  · rw [if_neg hcut,if_neg (by omega)]

end Cuts

end Blocks

variable {xxh3 : Bytes → U64} {base : CommitState} {v : Envelope} {σ : Type}

def ReplayValidator.envelope (validator : ReplayValidator σ) (base : CommitState) (v : Envelope)
    (s : σ) : Except WalError σ := do
  let s ← v.changes.foldlM (fun s c => validator.change c s) s
  validator.commit v.kind base v.state v.changes s

def admitted (validator : Option (ReplayValidator σ)) (base : CommitState) (v : Envelope) (s : σ) :
    Except WalError σ :=
  validator.elim (.ok s) fun validator => validator.envelope base v s

theorem admit_chunk {chunk : Bytes} (hchunk : putChanges xxh3 v 1 v.changes = .ok chunk)
    (hsize : chunk.length ≤ maxEnvelopeBytes) (hcount : v.changes.length ≤ maxEnvelopeBytes / 72)
    (validator : Option (ReplayValidator σ)) (size : ℕ) (s : σ) :
    admitBatch xxh3 validator (beginOf v size) v.batch v.state.sequence base v.state chunk s =
      admitted validator base v s := by
  have hword : (beginOf v size).count.toNat = v.changes.length := count_word hcount
  cases validator with
  | none =>
    simp only [admitBatch,hword,toList_chunk hchunk hsize,ok_bind]
    rfl
  | some validator =>
    have hchanges:=admitChanges_chunk validator hchunk hsize [] s
    rw [nil_append] at hchanges
    simp only [admitBatch,hword,toList_chunk hchunk hsize,ok_bind]
    change (admitChanges xxh3 validator chunk v.batch v.state.sequence v.state v.changes.length 1 0
      s >>= _) = _
    rw [show admitChanges xxh3 validator chunk v.batch v.state.sequence v.state v.changes.length 1 0
      s = _ from hchanges]
    rfl

structure Yields (xxh3 : Bytes → U64) (out : ValidatedEnvelope) (v : Envelope) : Prop where
  batch : out.batch = v.batch
  kind : out.kind = v.kind
  state : out.state = v.state
  changes : out.changes.toList xxh3 = .ok v.changes

section Step
variable {replay : Replay} {bytes : Bytes}

theorem nextInner_whole (h : Accepted xxh3 replay.state v bytes) (more : Bytes)
    (hreplay : replay.bytes.drop replay.offset = bytes++more)
    (validator : Option (ReplayValidator σ)) {s s' : σ}
    (hadmitted : admitted validator replay.state v s = .ok s') :
    ∃ out,replay.nextInner xxh3 validator s = .ok ((.envelope out,
      { replay with state := v.state,offset := replay.offset+bytes.length }),s') ∧
      Yields xxh3 out v := by
  obtain ⟨first,changes,state,last,hparts⟩ := h.parts
  obtain ⟨hfirstLen,hlastLen,hlen⟩ := hparts.length
  obtain ⟨hstore,hgeneration,hsequence⟩ := validateTransition_spec h.transition
  have hsize:=h.size
  have hchunk : changes.length ≤ maxEnvelopeBytes := by omega
  have hnonempty : ¬ (bytes++more).isEmpty = true := by
    rw [isEmpty_iff_length_eq_zero,length_append]
    omega
  have hoffset : ¬ replay.bytes.length < replay.offset := by
    intro hlt
    rw [drop_eq_nil_of_le hlt.le] at hreplay
    rw [← hreplay] at hnonempty
    exact hnonempty rfl
  have hbegin:=hparts.readFirst more (bytes++more).length
  rw [take_length,if_neg (by rw [length_append]; omega)] at hbegin
  have hscan:=h.scanChanges hparts (n := bytes.length) (by omega)
  rw [take_length,if_neg (by omega)] at hscan
  have hcommit:=h.readLast hparts (n := bytes.length) (by omega)
  rw [take_length,if_neg (lt_irrefl _)] at hcommit
  have hjoined : bytes++more = first++(changes++(last++more)) := by
    rw [hparts.joined]
    simp only [append_assoc]
  have hbefore : (bytes++more).take (128+changes.length) = first++changes := by
    rw [hjoined,← append_assoc,← hfirstLen,← length_append]
    exact take_left
  have hmiddle : ((bytes++more).drop 128).take (128+changes.length-128) = changes := by
    rw [hjoined,← hfirstLen,drop_left,Nat.add_sub_cancel_left,take_left]
  refine ⟨⟨changes,v.changes.length,v.batch,v.kind,v.state⟩,?_,
    ⟨rfl,rfl,rfl,toList_chunk hparts.changed hchunk⟩⟩
  rw [Replay.nextInner,if_neg hoffset,hreplay,if_neg hnonempty,hsequence]
  simp only
  rw [hbegin,ok_bind]
  simp only
  rw [h.readBegin hparts,ok_bind,readRest]
  simp only [h.count_toNat,show (beginOf v bytes.length).declared = bytes.length from rfl,
    take_left,show (beginOf v bytes.length).kind = v.kind from rfl,
    show (beginOf v bytes.length).target = v.state.generation from rfl,hscan,ok_bind]
  rw [if_neg (by omega),h.lastIndex]
  simp only
  rw [hcommit,ok_bind]
  simp only [readLast,show (beginOf v bytes.length).declared = bytes.length from rfl]
  rw [if_neg (by omega),hbefore,readCommit_payload h.transition hparts.written,ok_bind,hmiddle,
    admit_chunk hparts.changed hchunk h.count,hadmitted,ok_bind,h.count_toNat]
  rfl

theorem nextInner_cut (h : Accepted xxh3 replay.state v bytes)
    (hoffset : replay.offset ≤ replay.bytes.length) {n : ℕ} (hn : n < bytes.length)
    (hreplay : replay.bytes.drop replay.offset = bytes.take n)
    (validator : Option (ReplayValidator σ)) (s : σ) :
    replay.nextInner xxh3 validator s = .ok (replay.finish (decide (n ≠ 0)),s) := by
  obtain ⟨first,changes,state,last,hparts⟩ := h.parts
  obtain ⟨-,-,hsequence⟩ := validateTransition_spec h.transition
  rw [Replay.nextInner,if_neg (by omega),hreplay]
  by_cases hzero : n = 0
  · subst hzero
    rfl
  · have hnonempty : ¬ (bytes.take n).isEmpty = true := by
      rw [isEmpty_iff_length_eq_zero,length_take]
      omega
    have hcut : cutOff replay (bytes.take n) (beginOf v bytes.length) s =
        .ok (replay.finish true,s) := by
      rw [cutOff,if_neg]
      rw [length_take,show (beginOf v bytes.length).declared = bytes.length from rfl]
      omega
    have htake : (bytes.take n).take bytes.length = bytes.take n := by
      rw [take_take,min_eq_right (by omega)]
    have hbegin:=hparts.readFirst [] n
    rw [append_nil] at hbegin
    rw [if_neg hnonempty,hsequence]
    simp only
    rw [hbegin,ok_bind,decide_eq_true hzero]
    by_cases hfirst : n < 128
    · rw [if_pos hfirst]
      rfl
    · rw [if_neg hfirst]
      simp only
      rw [h.readBegin hparts,ok_bind,readRest]
      simp only [h.count_toNat,show (beginOf v bytes.length).declared = bytes.length from rfl,
        htake,show (beginOf v bytes.length).kind = v.kind from rfl,
        show (beginOf v bytes.length).target = v.state.generation from rfl,
        h.scanChanges hparts (not_lt.mp hfirst),ok_bind]
      by_cases hchanges : n < 128+changes.length
      · rw [if_pos hchanges]
        exact hcut
      · rw [if_neg hchanges]
        simp only
        rw [if_neg (by rw [length_take]; omega),h.lastIndex]
        simp only
        rw [h.readLast hparts (not_lt.mp hchanges),ok_bind,if_pos hn]
        exact hcut

end Step

end Zeppelin.GraphWal
