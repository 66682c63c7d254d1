import Mathlib.Data.List.Forall2
import Zeppelin.Ingest.AtomicBatch

namespace Zeppelin.Ingest
open Wal List

structure Member where
  op : U16
  payload : Bytes
  mutation : MutationPayload

inductive Batch where
  | standalone (member : Member)
  | upserts (records : List (ℕ × Member))
  | mixed (members : List Member)
  | prepared (binding : TransactionBinding) (members : List Member)

def encodeMembers (encode : U32 → Member → Except PayloadError Bytes) (op : U16) :
    ℕ → List Member → Except PayloadError (List (U16 × Bytes))
  | _,[] => .ok []
  | index,m::ms => do
    let payload ← encode (BitVec.ofNat 32 index) m
    let rest ← encodeMembers encode op (index+1) ms
    return (op,payload)::rest

def membersFrom : LogSeq → List (U16 × MutationPayload) → List (LogSeq × U16 × MutationPayload)
  | _,[] => []
  | seq,m::ms => (seq,m.1,m.2)::membersFrom (seq+1) ms

section Decision
variable (xxh3 : Bytes → U64) (validateEnvelope : Bytes → Except GraphWalError Unit)
variable (decision : TransactionBinding → Option TransactionBinding)

def Batch.frames : Batch → Except PayloadError (List (U16 × Bytes))
  | .standalone m => .ok [(m.op,m.payload)]
  | .upserts records =>
    (fun framed => framed.map fun r => r.2) <$>
      frameBatch (records.map fun r => (r.1,r.2.op,r.2.payload))
  | .mixed members =>
    encodeMembers (fun index m => encodeMixedBatchMember index (BitVec.ofNat 32 members.length) m.op
      m.payload) mixedBatchMemberV1 0 members
  | .prepared binding members =>
    encodeMembers (fun index m => encodePrepared validateEnvelope binding index
      (BitVec.ofNat 32 members.length) m.op m.payload) preparedMutationV1 0 members

def Batch.Decodes : Batch → Prop
  | .standalone m => m.op ≠ preparedMutationV1 ∧ m.op ≠ upsertV2BatchMember ∧
      m.op ≠ mixedBatchMemberV1 ∧ decodeMutation validateEnvelope m.op m.payload = .ok m.mutation
  | .upserts records => ∀ r ∈ records,r.2.op = upsertV2 ∧
      ∃ document,r.2.mutation = .upsert document ∧ decodeUpsertV2 r.2.payload = .ok document
  | .mixed members => ∀ m ∈ members,decodePlain validateEnvelope m.op m.payload = .ok m.mutation
  | .prepared _ members => ∀ m ∈ members,
      standaloneMutation validateEnvelope m.op m.payload = .ok m.mutation

def Batch.members : Batch → List (U16 × MutationPayload)
  | .standalone m => [(m.op,m.mutation)]
  | .upserts records => records.map fun r =>
      (if records.length < 2 then upsertV2 else upsertV2BatchMember,r.2.mutation)
  | .mixed members => members.map fun m => (m.op,m.mutation)
  | .prepared _ members => members.map fun m => (m.op,m.mutation)

def Batch.Decided : Batch → Prop
  | .prepared binding _ => decision binding = some binding
  | _ => True

instance (b : Batch) : Decidable (b.Decided decision) :=
  match b with
  | .prepared _ _ => inferInstanceAs (Decidable (_ = _))
  | .standalone _ | .upserts _ | .mixed _ => inferInstanceAs (Decidable True)

structure Appended where
  batch : Batch
  frames : List (U16 × Bytes)
  present : ℕ

def Appended.records (a : Appended) : List (U16 × Bytes) := a.frames.take a.present

/-- What an append leaves at sequence `first`. A prepared range names its first
sequence and is either undecided or decided and whole. -/
structure Appended.Valid (first : LogSeq) (a : Appended) : Prop where
  frames : a.batch.frames validateEnvelope = .ok a.frames
  decodes : a.batch.Decodes validateEnvelope
  nonempty : a.batch.members ≠ []
  countable : a.batch.members.length < 2^32
  present_le : a.present ≤ a.frames.length
  binding : ∀ b ms,a.batch = .prepared b ms → b.firstSeq = first ∧
    (decision b = none ∨ decision b = some b ∧ a.present = a.frames.length)

def ValidLog : LogSeq → List Appended → Prop
  | _,[] => True
  | first,a::log =>
    a.Valid validateEnvelope decision first ∧ ValidLog (first+BitVec.ofNat 64 a.present) log

def expectedBatches : LogSeq → List Appended → List CommittedBatch
  | _,[] => []
  | seq,a::log =>
    (if a.present = a.frames.length ∧ a.batch.Decided decision then
      [⟨seq+BitVec.ofNat 64 (a.present-1),membersFrom seq a.batch.members⟩] else [])++
    expectedBatches (seq+BitVec.ofNat 64 a.present) log

def Shows (v : VisibleRecord) (r : WalRecord) : Prop :=
  v.seq = r.seq ∧ v.op = r.op ∧ v.payload xxh3 = .ok r.payload

def recoverWal (s : Recovery) (r : WalRecord) : Except StoreError Recovery :=
  if r.op = preparedMutationV1 then
    recoverPrepared validateEnvelope decision s r.seq r.op r.payload
  else recoverLocal validateEnvelope decision s r.seq r.op r.payload

variable {vs : List VisibleRecord} {rs : List WalRecord} {i : ℕ}

theorem foldlM_shows (absorbed : U64)
    (hshow : List.Forall₂ (Shows xxh3) vs rs) (hseq : ∀ r ∈ rs,absorbed < r.seq) (s : Recovery) :
    vs.foldlM (recoverRecord xxh3 validateEnvelope decision absorbed) s =
      rs.foldlM (recoverWal validateEnvelope decision) s := by
  induction hshow generalizing s with
  | nil => rfl
  | @cons v r vs rs hv _ ih =>
    obtain ⟨hvs,hvo,hvp⟩ := hv
    have hlt:=hseq r (mem_cons_self ..)
    have hstep : recoverRecord xxh3 validateEnvelope decision absorbed s v =
        recoverWal validateEnvelope decision s r := by
      have hnot : ¬ r.seq ≤ absorbed := BitVec.not_le.mpr hlt
      simp only [recoverRecord,hvs,if_neg hnot,hvp,recoverWal,hvo]
    rw [foldlM_cons,foldlM_cons,hstep]
    congr 1
    funext t
    exact ih (fun r hr => hseq r (mem_cons_of_mem _ hr)) t

theorem foldlM_absorbed (absorbed : U64)
    (hshow : List.Forall₂ (Shows xxh3) vs rs) (hseq : ∀ r ∈ rs,r.seq ≤ absorbed) (s : Recovery) :
    vs.foldlM (recoverRecord xxh3 validateEnvelope decision absorbed) s = .ok s := by
  induction hshow generalizing s with
  | nil => rfl
  | @cons v r vs rs hv _ ih =>
    have hle : v.seq ≤ absorbed := by
      rw [hv.1]
      exact hseq r (mem_cons_self ..)
    rw [foldlM_cons,recoverRecord,if_pos hle,ok_bind]
    exact ih (fun r hr => hseq r (mem_cons_of_mem _ hr)) s

theorem ofNat_succ {w : ℕ} (i : ℕ) : BitVec.ofNat w i+1 = BitVec.ofNat w (i+1) := by
  rw [BitVec.ofNat_add]
  rfl

theorem ofNat_toNat_32 (h : i < 2^32) : (BitVec.ofNat 32 i).toNat = i := by
  rw [BitVec.toNat_ofNat]
  exact Nat.mod_eq_of_lt h

theorem ofNat_eq_zero_32 (h : i < 2^32) : BitVec.ofNat 32 i = 0 ↔ i = 0 := by
  constructor
  · intro he
    have ht:=congrArg BitVec.toNat he
    rw [ofNat_toNat_32 h] at ht
    exact ht
  · rintro rfl
    rfl

theorem checkedAdd_index {count : U32} (h : i < count.toNat) :
    checkedAdd (BitVec.ofNat 32 i) 1 = some count ↔ i+1 = count.toNat := by
  have hcount:=count.isLt
  have hi : (BitVec.ofNat 32 i).toNat = i := ofNat_toNat_32 (by omega)
  have hone : (1 : U32).toNat = 1 := rfl
  have hadd : checkedAdd (BitVec.ofNat 32 i) 1 = some (BitVec.ofNat 32 i+1) :=
    checkedAdd_of_lt (by rw [hi,hone]; omega)
  rw [hadd,Option.some.injEq]
  constructor
  · intro he
    have ht:=congrArg BitVec.toNat he
    rw [BitVec.toNat_add,hi,hone] at ht
    omega
  · intro he
    apply BitVec.eq_of_toNat_eq
    rw [BitVec.toNat_add,hi,hone]
    omega

theorem recoverMember_first (s : Recovery) (seq : LogSeq) (recordOp : U16) (count : U32) (op : U16)
    (m : MutationPayload) (hcount : 2 ≤ count.toNat) :
    recoverMember s seq recordOp (BitVec.ofNat 32 0) count op m =
      .ok { s with run := [(seq,op,m)],runCount := count,runOp := recordOp } := by
  have hlast : ¬ checkedAdd (BitVec.ofNat 32 0) 1 = some count := by
    rw [checkedAdd_index (by omega)]
    omega
  have hzero : BitVec.ofNat 32 0 = 0 := rfl
  simp only [recoverMember,if_neg hlast]
  rw [if_neg (fun h => h.1 hzero),if_pos hzero]
  rfl

theorem recoverMember_next (s : Recovery) (seq : LogSeq) (recordOp : U16) (count : U32) (i : ℕ)
    (op : U16) (m : MutationPayload) (hpos : 0 < i) (hi : i < count.toNat)
    (hrun : s.run.length = i) (hop : s.runOp = recordOp) (hcount : s.runCount = count) :
    recoverMember s seq recordOp (BitVec.ofNat 32 i) count op m =
      .ok (if i+1 = count.toNat then
        { s with run := [],committed := s.committed++[⟨seq,s.run++[(seq,op,m)]⟩] }
      else { s with run := s.run++[(seq,op,m)] }) := by
  have hlt : i < 2^32 := by have := count.isLt; omega
  have hne : BitVec.ofNat 32 i ≠ 0 := by
    rw [ne_eq,ofNat_eq_zero_32 hlt]
    omega
  have hnat:=ofNat_toNat_32 hlt
  have hok : ¬ (BitVec.ofNat 32 i ≠ 0 ∧
      (recordOp ≠ s.runOp ∨ count ≠ s.runCount ∨ (BitVec.ofNat 32 i).toNat ≠ s.run.length)) := by
    rw [hnat,hrun,hop,hcount]
    simp
  simp only [recoverMember,if_neg hne,if_neg hok,checkedAdd_index hi]
  split <;> rfl

/-- Whatever precedes it, the record is member `i` of a local run of `count`. -/
def LocalFrame (recordOp : U16) (count : U32) (i : ℕ) (payload : Bytes)
    (m : U16 × MutationPayload) : Prop :=
  ∀ s seq,preparedCommitted decision s.preparedRun = false →
    recoverWal validateEnvelope decision s ⟨seq,recordOp,payload⟩ =
      recoverMember { s with preparedRun := [] } seq recordOp (BitVec.ofNat 32 i) count m.1 m.2

inductive LocalRun (recordOp : U16) (count : U32) : ℕ → List (U16 × Bytes) →
    List (U16 × MutationPayload) → Prop where
  | nil (i : ℕ) : LocalRun recordOp count i [] []
  | cons {i : ℕ} {payload : Bytes} {m : U16 × MutationPayload} {frames : List (U16 × Bytes)}
      {ms : List (U16 × MutationPayload)}
      (head : LocalFrame validateEnvelope decision recordOp count i payload m)
      (tail : LocalRun recordOp count (i+1) frames ms) :
      LocalRun recordOp count i ((recordOp,payload)::frames) (m::ms)

theorem seq_add_succ (seq : LogSeq) {p : ℕ} (h : 0 < p) :
    seq+1+BitVec.ofNat 64 (p-1) = seq+BitVec.ofNat 64 p := by
  obtain ⟨q,rfl⟩ : ∃ q,p = q+1 := ⟨p-1,by omega⟩
  rw [Nat.add_sub_cancel,BitVec.add_assoc]
  congr 1
  apply BitVec.eq_of_toNat_eq
  simp only [BitVec.toNat_add,BitVec.toNat_ofNat]
  have hone : (1 : BitVec 64).toNat = 1 := rfl
  rw [hone]
  omega

variable {validateEnvelope decision} in
theorem recover_continued {recordOp : U16} {count : U32} {i : ℕ} {frames : List (U16 × Bytes)}
    {ms : List (U16 × MutationPayload)}
    (hrun : LocalRun validateEnvelope decision recordOp count i frames ms) (p : ℕ) (seq : LogSeq)
    (s : Recovery) (hpos : 0 < i) (hi : i < count.toNat)
    (htotal : i+frames.length = count.toNat) (hp : p ≤ frames.length)
    (hlen : s.run.length = i) (hop : s.runOp = recordOp) (hcount : s.runCount = count)
    (hprep : s.preparedRun = []) :
    ∃ s',(numbered seq (frames.take p)).foldlM (recoverWal validateEnvelope decision) s = .ok s' ∧
      s'.preparedRun = [] ∧ s'.committed = s.committed++
        if p = frames.length then
          [⟨seq+BitVec.ofNat 64 (p-1),s.run++membersFrom seq ms⟩] else [] := by
  induction hrun generalizing p seq s with
  | nil i => simp only [length_nil] at htotal; omega
  | @cons i payload m frames ms head tail ih =>
    simp only [length_cons] at htotal hp ⊢
    cases p with
    | zero => exact ⟨s,rfl,hprep,by simp⟩
    | succ p =>
      have hstep:=head s seq (by rw [hprep]; rfl)
      have hs : { s with preparedRun := [] } = s := by rw [← hprep]
      rw [hs,recoverMember_next s seq recordOp count i m.1 m.2 hpos hi hlen hop hcount] at hstep
      simp only [take_succ_cons,numbered,foldlM_cons,hstep,ok_bind]
      by_cases hlast : i+1 = count.toNat
      · -- the last member: nothing is left of the run
        obtain rfl : frames = [] := eq_nil_of_length_eq_zero (by omega)
        obtain rfl : p = 0 := by simp only [length_nil] at hp; omega
        cases tail
        refine ⟨{ s with run := [],committed := s.committed++
          [⟨seq,s.run++[(seq,m.1,m.2)]⟩] },?_,hprep,?_⟩
        · rw [if_pos hlast]
          rfl
        · simp [membersFrom]
      · simp only [if_neg hlast]
        obtain ⟨s',hfold,hprep',hcom⟩ := ih p (seq+1)
          { s with run := s.run++[(seq,m.1,m.2)] } (by omega) (by omega) (by omega) (by omega)
          (by simp [hlen]) hop hcount hprep
        refine ⟨s',hfold,hprep',hcom.trans ?_⟩
        by_cases hp' : p = frames.length
        · have hne : 0 < p := by omega
          rw [if_pos hp',if_pos (by omega),Nat.add_sub_cancel,seq_add_succ seq hne]
          simp [membersFrom]
        · rw [if_neg hp',if_neg (by omega)]

variable {validateEnvelope decision} in
theorem recover_localRun {recordOp : U16} {count : U32} {frames : List (U16 × Bytes)}
    {ms : List (U16 × MutationPayload)}
    (hrun : LocalRun validateEnvelope decision recordOp count 0 frames ms) (p : ℕ) (seq : LogSeq)
    (s : Recovery) (hcount : 2 ≤ count.toNat) (htotal : frames.length = count.toNat)
    (hp : p ≤ frames.length) (hquiet : preparedCommitted decision s.preparedRun = false) :
    ∃ s',(numbered seq (frames.take p)).foldlM (recoverWal validateEnvelope decision) s = .ok s' ∧
      preparedCommitted decision s'.preparedRun = false ∧ s'.committed = s.committed++
        if p = frames.length then [⟨seq+BitVec.ofNat 64 (p-1),membersFrom seq ms⟩] else [] := by
  cases p with
  | zero =>
    refine ⟨s,rfl,hquiet,?_⟩
    rw [if_neg (by omega),append_nil]
  | succ p =>
    cases hrun with
    | nil => simp only [length_nil] at htotal; omega
    | @cons _ payload m frames ms head tail =>
      simp only [length_cons] at htotal hp ⊢
      have hstep:=head s seq hquiet
      rw [recoverMember_first _ seq recordOp count m.1 m.2 hcount] at hstep
      simp only [take_succ_cons,numbered,foldlM_cons,hstep,ok_bind]
      obtain ⟨s',hfold,hprep,hcom⟩ := recover_continued tail p (seq+1)
        ⟨[],s.committed,[(seq,m.1,m.2)],count,recordOp⟩ (by omega) (by omega) (by omega)
        (by omega) rfl rfl rfl rfl
      refine ⟨s',hfold,by rw [hprep]; rfl,hcom.trans ?_⟩
      by_cases hp' : p = frames.length
      · rw [if_pos hp',if_pos (by omega),Nat.add_sub_cancel,seq_add_succ seq (by omega)]
        simp [membersFrom]
      · rw [if_neg hp',if_neg (by omega)]

variable {count : U32} {i : ℕ} {framed : List (ℕ × U16 × Bytes)}

variable {validateEnvelope} in
theorem mixed_localRun {members : List Member} {frames : List (U16 × Bytes)}
    (h : encodeMembers (fun index m => encodeMixedBatchMember index count m.op m.payload)
      mixedBatchMemberV1 i members = .ok frames)
    (hdec : ∀ m ∈ members,decodePlain validateEnvelope m.op m.payload = .ok m.mutation) :
    LocalRun validateEnvelope decision mixedBatchMemberV1 count i frames
      (members.map fun m => (m.op,m.mutation)) := by
  induction members generalizing i frames with
  | nil =>
    obtain rfl := Except.ok.inj h
    exact .nil i
  | cons m ms ih =>
    obtain ⟨payload,hpayload,h⟩ := bind_eq_ok h
    obtain ⟨rest,hrest,rfl⟩ := bind_pure_eq_ok h
    have hm:=hdec m (mem_cons_self ..)
    refine .cons ?_ (ih hrest fun m hm => hdec m (mem_cons_of_mem _ hm))
    intro s seq hquiet
    have hop : mixedBatchMemberV1 ≠ preparedMutationV1 := by decide
    have hmutation:=decodeMixedBatchMember_encode validateEnvelope hm hpayload
    simp only [recoverWal,if_neg hop,recoverLocal,hquiet,decodeMutation,hmutation]
    rfl

theorem upserts_localRun {records : List (ℕ × Member)} (h : frameMembers count (BitVec.ofNat 32 i)
      (records.map fun r => (r.1,r.2.op,r.2.payload)) = .ok framed)
    (hdec : ∀ r ∈ records,r.2.op = upsertV2 ∧
      ∃ document,r.2.mutation = .upsert document ∧ decodeUpsertV2 r.2.payload = .ok document) :
    LocalRun validateEnvelope decision upsertV2BatchMember count i (framed.map fun r => r.2)
      (records.map fun r => (upsertV2BatchMember,r.2.mutation)) := by
  induction records generalizing i framed with
  | nil =>
    obtain rfl := Except.ok.inj h
    exact .nil i
  | cons r rs ih =>
    obtain ⟨hrop,document,hmutation,hdoc⟩ := hdec r (mem_cons_self ..)
    rw [map_cons,frameMembers,if_neg (not_not.mpr hrop)] at h
    obtain ⟨payload,hpayload,h⟩ := bind_eq_ok h
    obtain ⟨rest,hrest,rfl⟩ := bind_pure_eq_ok h
    rw [ofNat_succ] at hrest
    refine .cons ?_ (ih hrest fun r hr => hdec r (mem_cons_of_mem _ hr))
    intro s seq hquiet
    have hop : upsertV2BatchMember ≠ preparedMutationV1 := by decide
    have hmixed : upsertV2BatchMember ≠ mixedBatchMemberV1 := by decide
    have hmember:=decodeUpsertV2BatchMember_encode hdoc hpayload
    simp only [recoverWal,if_neg hop,recoverLocal,hquiet,decodeMutation,if_neg hmixed,
      hmember,hmutation]
    rfl

theorem frameMembers_length {index : U32} {records : List (ℕ × U16 × Bytes)}
    (h : frameMembers count index records = .ok framed) : framed.length = records.length := by
  induction records generalizing index framed with
  | nil =>
    obtain rfl := Except.ok.inj h
    rfl
  | cons r rs ih =>
    rw [frameMembers] at h
    obtain ⟨-,h⟩ := of_ite_error h
    obtain ⟨payload,-,h⟩ := bind_eq_ok h
    obtain ⟨rest,hrest,rfl⟩ := bind_pure_eq_ok h
    rw [length_cons,length_cons,ih hrest]

theorem mixed_count_le {members : List Member} {frames : List (U16 × Bytes)}
    (h : encodeMembers (fun index m => encodeMixedBatchMember index count m.op m.payload)
      mixedBatchMemberV1 i members = .ok frames) (hne : members ≠ []) : 2 ≤ count.toNat := by
  cases members with
  | nil => exact absurd rfl hne
  | cons m ms =>
    obtain ⟨payload,hpayload,-⟩ := bind_eq_ok h
    obtain ⟨⟨⟩,hpos,-⟩ := bind_eq_ok hpayload
    exact (validateBatchPosition_ok hpos).1

variable {validateEnvelope} in
theorem decodePlain_not_member {op : U16} {payload : Bytes} {m : MutationPayload}
    (h : decodePlain validateEnvelope op payload = .ok m) :
    (∀ index count document,m ≠ .batchMember index count document) ∧
      ∀ index count innerOp inner,m ≠ .mixedBatchMember index count innerOp inner := by
  unfold decodePlain at h
  split_ifs at h
  all_goals
    obtain ⟨a,-,rfl⟩ := map_eq_ok h
    simp

variable {validateEnvelope decision} in
theorem recoverWal_standalone {op : U16} {payload : Bytes} {m : MutationPayload}
    (hprep : op ≠ preparedMutationV1) (hmember : op ≠ upsertV2BatchMember)
    (hmixed : op ≠ mixedBatchMemberV1) (hdec : decodeMutation validateEnvelope op payload = .ok m)
    (s : Recovery) (seq : LogSeq) (hquiet : preparedCommitted decision s.preparedRun = false) :
    recoverWal validateEnvelope decision s ⟨seq,op,payload⟩ =
      .ok { s with preparedRun := [],run := [],
                   committed := s.committed++[⟨seq,[(seq,op,m)]⟩] } := by
  have hplain : decodePlain validateEnvelope op payload = .ok m := by
    rwa [decodeMutation,if_neg hmixed,if_neg hmember] at hdec
  obtain ⟨hbatch,hmix⟩ := decodePlain_not_member hplain
  simp only [recoverWal,if_neg hprep,recoverLocal,hquiet,hdec]
  cases m with
  | batchMember index count document => exact absurd rfl (hbatch index count document)
  | mixedBatchMember index count innerOp inner => exact absurd rfl (hmix index count innerOp inner)
  | _ => rfl

structure OpenRun (binding : TransactionBinding) (i : ℕ)
    (run : List (LogSeq × PreparedMutation)) : Prop where
  length : run.length = i
  bound : ∀ m ∈ run,m.2.binding = binding

variable {binding : TransactionBinding} {i : ℕ} {run : List (LogSeq × PreparedMutation)}

theorem OpenRun.head_ne (h : OpenRun binding i run) :
    (run.head?.any fun m => m.2.binding ≠ binding) = false := by
  cases run with
  | nil => rfl
  | cons m ms => simp [h.bound m (mem_cons_self ..)]

theorem OpenRun.concat (h : OpenRun binding i run) (seq : LogSeq)
    {m : PreparedMutation} (hm : m.binding = binding) : OpenRun binding (i+1) (run++[(seq,m)]) := by
  refine ⟨by simp [h.length],?_⟩
  intro x hx
  rcases mem_append.mp hx with hx | hx
  · exact h.bound x hx
  · rw [mem_singleton.mp hx]
    exact hm

variable {decision} in
theorem OpenRun.quiet {binding : TransactionBinding} {i : ℕ}
    {run : List (LogSeq × PreparedMutation)} (h : OpenRun binding i run) {count : U32}
    (hcount : binding.memberCount = .ok count) (hnone : decision binding = none) :
    preparedCommitted decision run = false := by
  cases run with
  | nil => rfl
  | cons m ms =>
    have hm:=h.bound m (mem_cons_self ..)
    simp [preparedCommitted,decisionOf,hm,hnone,transactionDecision,hcount]

variable {binding : TransactionBinding} {count : U32}

variable {decision} in
theorem decisionOf_decided (hcount : binding.memberCount = .ok count)
    (hdec : decision binding = none ∨ decision binding = some binding) :
    decisionOf decision binding ≠ .mismatch ∧
      (decisionOf decision binding = .committed ↔ decision binding = some binding) := by
  rcases hdec with h | h <;> simp [decisionOf,transactionDecision,h,hcount]

theorem TransactionBinding.seq_of_index {i : ℕ}
    (hcount : binding.memberCount = .ok count) (hi : i < count.toNat) :
    checkedAdd binding.firstSeq ((BitVec.ofNat 32 i).setWidth 64) =
      some (binding.firstSeq+BitVec.ofNat 64 i) := by
  obtain ⟨hle,hmembers⟩ := memberCount_ok hcount
  have hlast:=binding.lastSeq.isLt
  have hcountLt:=count.isLt
  have hwide : (BitVec.ofNat 32 i).setWidth 64 = BitVec.ofNat 64 i := by
    apply BitVec.eq_of_toNat_eq
    simp only [BitVec.toNat_setWidth,BitVec.toNat_ofNat]
    omega
  have hnat : (BitVec.ofNat 64 i).toNat = i := by
    rw [BitVec.toNat_ofNat]
    omega
  rw [hwide]
  exact checkedAdd_of_lt (by rw [hnat]; omega)

variable {validateEnvelope decision} in
theorem recoverWal_prepared {binding : TransactionBinding} {count : U32} {i : ℕ} {op : U16}
    {body payload : Bytes} {m : MutationPayload}
    (hdec : decision binding = none ∨ decision binding = some binding)
    (hcount : binding.memberCount = .ok count)
    (hmut : standaloneMutation validateEnvelope op body = .ok m)
    (henc : encodePrepared validateEnvelope binding (BitVec.ofNat 32 i) count op body = .ok payload)
    (hi : i < count.toNat) (s : Recovery)
    (hquiet : i = 0 → preparedCommitted decision s.preparedRun = false)
    (hopen : i ≠ 0 → OpenRun binding i s.preparedRun) :
    recoverWal validateEnvelope decision s
        ⟨binding.firstSeq+BitVec.ofNat 64 i,preparedMutationV1,payload⟩ =
      let run:=(if i = 0 then [] else s.preparedRun)++
        [(binding.firstSeq+BitVec.ofNat 64 i,⟨binding,BitVec.ofNat 32 i,count,op,m⟩)]
      .ok (if i+1 = count.toNat then
        { s with
          run := []
          preparedRun := []
          committed := s.committed++if decision binding = some binding then
            [⟨binding.firstSeq+BitVec.ofNat 64 i,run.map fun m => (m.1,m.2.op,m.2.mutation)⟩]
          else [] }
      else { s with run := [],preparedRun := run }) := by
  have hlt : i < 2^32 := by have := count.isLt; omega
  have hnat:=ofNat_toNat_32 hlt
  have hzero:=ofNat_eq_zero_32 hlt
  obtain ⟨hmatch,hcommitted⟩ := decisionOf_decided hcount hdec
  have hrun : OpenRun binding i (if i = 0 then [] else s.preparedRun) := by
    split
    · rename_i h0
      exact ⟨h0.symm,by simp⟩
    · rename_i h0
      exact hopen h0
  have hnew : ¬ (i = 0 ∧ preparedCommitted decision s.preparedRun) := by
    rintro ⟨h0,hc⟩
    rw [hquiet h0] at hc
    cases hc
  have hnext : ¬ (i ≠ (if i = 0 then [] else s.preparedRun).length ∨
      ((if i = 0 then [] else s.preparedRun).head?.any fun m => m.2.binding ≠ binding) = true) := by
    rw [hrun.length,hrun.head_ne]
    simp
  simp only [recoverWal,recoverPrepared,decodePrepared_encode hmut henc,if_true,
    TransactionBinding.seq_of_index hcount hi,ne_eq,not_true_eq_false,if_false,hzero,hnat,
    if_neg hnew,checkedAdd_index hi,hcommitted,if_neg hmatch]
  rw [if_neg hnext]
  split
  · split
    · rfl
    · rw [append_nil]
  · rfl

theorem encodeMembers_length {encode : U32 → Member → Except PayloadError Bytes} {op : U16} {i : ℕ}
    {members : List Member} {frames : List (U16 × Bytes)}
    (h : encodeMembers encode op i members = .ok frames) : frames.length = members.length := by
  induction members generalizing i frames with
  | nil =>
    obtain rfl := Except.ok.inj h
    rfl
  | cons m ms ih =>
    obtain ⟨payload,-,h⟩ := bind_eq_ok h
    obtain ⟨rest,hrest,rfl⟩ := bind_pure_eq_ok h
    rw [length_cons,length_cons,ih hrest]

variable {validateEnvelope} in
theorem prepared_count {binding : TransactionBinding} {count : U32} {i : ℕ} {members : List Member}
    {frames : List (U16 × Bytes)}
    (h : encodeMembers (fun index m => encodePrepared validateEnvelope binding index count m.op
      m.payload) preparedMutationV1 i members = .ok frames) (hne : members ≠ []) :
    binding.memberCount = .ok count := by
  cases members with
  | nil => exact absurd rfl hne
  | cons m ms =>
    obtain ⟨payload,hpayload,-⟩ := bind_eq_ok h
    exact (encodePrepared_ok hpayload).1

def openMembers (i : ℕ) (run : List (LogSeq × PreparedMutation)) :
    List (LogSeq × U16 × MutationPayload) :=
  (if i = 0 then [] else run).map fun m => (m.1,m.2.op,m.2.mutation)

variable {validateEnvelope decision} in
theorem recover_preparedRun {binding : TransactionBinding} {count : U32} {members : List Member}
    {i : ℕ} {frames : List (U16 × Bytes)}
    (henc : encodeMembers (fun index m => encodePrepared validateEnvelope binding index count m.op
      m.payload) preparedMutationV1 i members = .ok frames)
    (hmut : ∀ m ∈ members,standaloneMutation validateEnvelope m.op m.payload = .ok m.mutation)
    (hdec : decision binding = none ∨ decision binding = some binding)
    (hcount : binding.memberCount = .ok count) (hi : i < count.toNat)
    (htotal : i+members.length = count.toNat) (p : ℕ) (hp : p ≤ frames.length)
    (hcut : p < frames.length → decision binding = none) (s : Recovery)
    (hquiet : i = 0 → preparedCommitted decision s.preparedRun = false)
    (hopen : i ≠ 0 → OpenRun binding i s.preparedRun) :
    ∃ s',(numbered (binding.firstSeq+BitVec.ofNat 64 i) (frames.take p)).foldlM
        (recoverWal validateEnvelope decision) s = .ok s' ∧
      preparedCommitted decision s'.preparedRun = false ∧ s'.committed = s.committed++
        if p = frames.length ∧ decision binding = some binding then
          [⟨binding.firstSeq+BitVec.ofNat 64 (i+(p-1)),openMembers i s.preparedRun++
            membersFrom (binding.firstSeq+BitVec.ofNat 64 i)
              (members.map fun m => (m.op,m.mutation))⟩] else [] := by
  induction members generalizing i frames p s with
  | nil => simp only [length_nil] at htotal; omega
  | cons m ms ih =>
    obtain ⟨payload,hpayload,h⟩ := bind_eq_ok henc
    obtain ⟨rest,hrest,rfl⟩ := bind_pure_eq_ok h
    have hlen:=encodeMembers_length hrest
    simp only [length_cons] at htotal hp hcut ⊢
    cases p with
    | zero =>
      refine ⟨s,rfl,?_,by rw [if_neg (by omega),append_nil]⟩
      by_cases h0 : i = 0
      · exact hquiet h0
      · exact (hopen h0).quiet hcount (hcut (by omega))
    | succ p =>
      have hnext : binding.firstSeq+BitVec.ofNat 64 i+1 =
          binding.firstSeq+BitVec.ofNat 64 (i+1) := by
        rw [BitVec.add_assoc,ofNat_succ]
      have hstep:=recoverWal_prepared hdec hcount (hmut m (mem_cons_self ..)) hpayload hi s
        hquiet hopen
      simp only [take_succ_cons,numbered,foldlM_cons,hstep,ok_bind,hnext]
      by_cases hlast : i+1 = count.toNat
      · -- the last member: the range is whole
        obtain rfl : ms = [] := eq_nil_of_length_eq_zero (by omega)
        obtain rfl : rest = [] := eq_nil_of_length_eq_zero hlen
        obtain rfl : p = 0 := by simp only [length_nil] at hp; omega
        simp only [if_pos hlast]
        refine ⟨_,rfl,rfl,?_⟩
        simp [openMembers,membersFrom]
      · simp only [if_neg hlast]
        -- the record joins the open run and the induction hypothesis takes over
        have hrun : OpenRun binding (i+1) ((if i = 0 then [] else s.preparedRun)++
            [(binding.firstSeq+BitVec.ofNat 64 i,
              ⟨binding,BitVec.ofNat 32 i,count,m.op,m.mutation⟩)]) := by
          refine OpenRun.concat ?_ _ rfl
          split
          · rename_i h0
            exact ⟨h0.symm,by simp⟩
          · rename_i h0
            exact hopen h0
        obtain ⟨s',hfold,hquiet',hcom⟩ := ih hrest
          (fun m hm => hmut m (mem_cons_of_mem _ hm)) (by omega) (by omega) p (by omega)
          (fun hp => hcut (by omega)) ⟨_,s.committed,[],s.runCount,s.runOp⟩
          (fun h0 => absurd h0 (by omega)) (fun _ => hrun)
        refine ⟨s',hfold,hquiet',hcom.trans ?_⟩
        have hwhole : (p+1 = rest.length+1) = (p = rest.length) := by simp
        simp only [hwhole]
        by_cases hp' : p = rest.length ∧ decision binding = some binding
        · have hidx : i+1+(p-1) = i+(p+1-1) := by omega
          simp only [if_pos hp',hidx,map_cons,membersFrom,hnext]
          simp [openMembers]
        · simp only [if_neg hp']

variable {validateEnvelope decision} in
theorem recover_single {op : U16} {payload : Bytes} {m : MutationPayload}
    (hprep : op ≠ preparedMutationV1) (hmember : op ≠ upsertV2BatchMember)
    (hmixed : op ≠ mixedBatchMemberV1) (hdec : decodeMutation validateEnvelope op payload = .ok m)
    (s : Recovery) (seq : LogSeq) (hquiet : preparedCommitted decision s.preparedRun = false)
    (p : ℕ) (hp : p ≤ 1) :
    ∃ s',(numbered seq ([(op,payload)].take p)).foldlM (recoverWal validateEnvelope decision) s =
        .ok s' ∧ preparedCommitted decision s'.preparedRun = false ∧
      s'.committed = s.committed++if p = 1 then
        [⟨seq+BitVec.ofNat 64 (p-1),membersFrom seq [(op,m)]⟩] else [] := by
  have hstep:=recoverWal_standalone hprep hmember hmixed hdec s seq hquiet
  obtain rfl | rfl : p = 0 ∨ p = 1 := by omega
  · exact ⟨s,rfl,hquiet,by simp⟩
  · refine ⟨⟨[],s.committed++[⟨seq,[(seq,op,m)]⟩],[],s.runCount,s.runOp⟩,?_,rfl,?_⟩
    · simp only [take_succ_cons,take_zero,numbered,foldlM_cons,hstep,ok_bind]
      rfl
    · simp [membersFrom]

variable {validateEnvelope decision} in
theorem recover_appended {first : LogSeq} {a : Appended}
    (hvalid : a.Valid validateEnvelope decision first) (s : Recovery)
    (hquiet : preparedCommitted decision s.preparedRun = false) :
    ∃ s',(numbered first a.records).foldlM (recoverWal validateEnvelope decision) s = .ok s' ∧
      preparedCommitted decision s'.preparedRun = false ∧
      s'.committed = s.committed++expectedBatches decision first [a] := by
  obtain ⟨batch,frames,p⟩ := a
  obtain ⟨hframes,hdec,hne,hcount,hp,hbinding⟩ := hvalid
  simp only [expectedBatches,append_nil,Appended.records] at *
  cases batch with
  | standalone m =>
    obtain rfl := Except.ok.inj hframes
    obtain ⟨hprep,hmember,hmixed,hmut⟩ := hdec
    simpa only [Batch.Decided,and_true,length_singleton,Batch.members] using
      recover_single hprep hmember hmixed hmut s first hquiet p hp
  | upserts records =>
    obtain ⟨framed,hframed,rfl⟩ := map_eq_ok hframes
    simp only [Batch.Decided,and_true]
    rw [frameBatch,length_map] at hframed
    by_cases hshort : records.length < 2
    · -- a single record keeps its own operation
      rw [if_pos hshort] at hframed
      obtain rfl := Except.ok.inj hframed
      obtain ⟨r,rfl⟩ : ∃ r,records = [r] := by
        cases records with
        | nil => exact absurd rfl hne
        | cons r rs =>
          rw [length_cons] at hshort
          obtain rfl : rs = [] := eq_nil_of_length_eq_zero (by omega)
          exact ⟨r,rfl⟩
      obtain ⟨hop,document,hmutation,hdoc⟩ := hdec r (mem_singleton_self r)
      have hmut : decodeMutation validateEnvelope r.2.op r.2.payload = .ok r.2.mutation := by
        rw [hop,hmutation,decodeMutation,if_neg (by decide),if_neg (by decide)]
        simp only [decodePlain,hdoc]
        rfl
      have hsingle:=recover_single (by rw [hop]; decide) (by rw [hop]; decide)
        (by rw [hop]; decide) hmut s first hquiet p hp
      simpa [Batch.members,hop] using hsingle
    · rw [if_neg hshort] at hframed
      obtain ⟨count,hfield,hframed⟩ := bind_eq_ok hframed
      obtain ⟨hlt,rfl⟩ := lengthField_ok hfield
      have hrun:=upserts_localRun validateEnvelope decision (i := 0) hframed hdec
      have hnat:=ofNat_toNat_32 hlt
      have hlen:=frameMembers_length hframed
      rw [length_map] at hlen
      simpa only [Batch.members,if_neg hshort] using
        recover_localRun hrun p first s (by omega) (by rw [length_map]; omega) hp hquiet
  | mixed members =>
    simp only [Batch.Decided,and_true]
    have hlen:=encodeMembers_length hframes
    have hrun:=mixed_localRun decision hframes hdec
    have hnat:=ofNat_toNat_32 (i := members.length) (by simpa [Batch.members] using hcount)
    have htwo:=mixed_count_le hframes (by simpa [Batch.members] using hne)
    exact recover_localRun hrun p first s htwo (by omega) hp hquiet
  | prepared binding members =>
    obtain ⟨rfl,hdecision⟩ := hbinding binding members rfl
    have hmembers : members ≠ [] := by simpa [Batch.members] using hne
    have hlen:=encodeMembers_length hframes
    have hmemberCount:=prepared_count hframes hmembers
    have hnat:=ofNat_toNat_32 (i := members.length) (by simpa [Batch.members] using hcount)
    have hpos:=length_pos_iff.mpr hmembers
    have hcut : p < frames.length → decision binding = none := by
      intro hlt
      rcases hdecision with hnone | ⟨-,hwhole⟩
      · exact hnone
      · omega
    have hrun:=recover_preparedRun hframes hdec (hdecision.imp_right And.left) hmemberCount
      (by omega) (by omega) p hp hcut s (fun _ => hquiet) (fun h => absurd rfl h)
    rw [BitVec.add_zero] at hrun
    obtain ⟨s',hfold,hquiet',hcom⟩ := hrun
    refine ⟨s',hfold,hquiet',hcom.trans ?_⟩
    by_cases hwhole : p = frames.length ∧ (Batch.prepared binding members).Decided decision
    · rw [if_pos hwhole,if_pos (show _ ∧ decision binding = some binding from hwhole),Nat.zero_add]
      rfl
    · rw [if_neg hwhole,if_neg (show ¬ (_ ∧ decision binding = some binding) from hwhole)]

def logRecords (log : List Appended) : List (U16 × Bytes) := log.flatMap Appended.records

variable {validateEnvelope decision} in
theorem Appended.Valid.records_length {first : LogSeq} {a : Appended}
    (h : a.Valid validateEnvelope decision first) : a.records.length = a.present := by
  rw [records,length_take,Nat.min_eq_left h.present_le]

theorem expectedBatches_cons (seq : LogSeq) (a : Appended) (log : List Appended) :
    expectedBatches decision seq (a::log) = expectedBatches decision seq [a]++
      expectedBatches decision (seq+BitVec.ofNat 64 a.present) log := by
  simp [expectedBatches]

theorem expectedBatches_append (seq : LogSeq) (pre post : List Appended) :
    expectedBatches decision seq (pre++post) = expectedBatches decision seq pre++
      expectedBatches decision (seq+BitVec.ofNat 64 (pre.map Appended.present).sum) post := by
  induction pre generalizing seq with
  | nil => simp [expectedBatches]
  | cons a pre ih =>
    rw [cons_append,expectedBatches_cons,ih,expectedBatches_cons decision seq a pre,
      append_assoc,map_cons,sum_cons,BitVec.ofNat_add,BitVec.add_assoc]

variable {validateEnvelope decision} in
theorem ValidLog.append {first : LogSeq} {pre post : List Appended}
    (h : ValidLog validateEnvelope decision first (pre++post)) :
    (logRecords pre).length = (pre.map Appended.present).sum ∧
      ValidLog validateEnvelope decision
        (first+BitVec.ofNat 64 (pre.map Appended.present).sum) post := by
  induction pre generalizing first with
  | nil => exact ⟨rfl,by simpa using h⟩
  | cons a pre ih =>
    obtain ⟨ha,hrest⟩ := h
    obtain ⟨hlen,hpost⟩ := ih hrest
    refine ⟨?_,?_⟩
    · rw [logRecords,flatMap_cons,length_append,ha.records_length,map_cons,
        sum_cons,← hlen,logRecords]
    · rwa [map_cons,sum_cons,BitVec.ofNat_add,← BitVec.add_assoc]

variable {validateEnvelope decision} in
theorem recover_log {first : LogSeq} {log : List Appended}
    (hvalid : ValidLog validateEnvelope decision first log) (s : Recovery)
    (hquiet : preparedCommitted decision s.preparedRun = false) :
    ∃ s',(numbered first (logRecords log)).foldlM (recoverWal validateEnvelope decision) s =
        .ok s' ∧ preparedCommitted decision s'.preparedRun = false ∧
      s'.committed = s.committed++expectedBatches decision first log := by
  induction log generalizing first s with
  | nil => exact ⟨s,rfl,hquiet,(append_nil _).symm⟩
  | cons a log ih =>
    obtain ⟨ha,hlog⟩ := hvalid
    obtain ⟨t,hstep,ht,hcom⟩ := recover_appended ha s hquiet
    obtain ⟨u,hrest,hu,hcom'⟩ := ih hlog t ht
    refine ⟨u,?_,hu,?_⟩
    · rw [logRecords,flatMap_cons,numbered_append,foldlM_append,hstep,ok_bind,
        ha.records_length]
      exact hrest
    · rw [hcom',hcom,append_assoc,← expectedBatches_cons]

variable {decision} in
theorem finishRecovery_quiet {s : Recovery}
    (hquiet : preparedCommitted decision s.preparedRun = false) :
    finishRecovery decision s = .ok s.committed := by
  unfold finishRecovery
  cases hhead : s.preparedRun.head? with
  | none => rfl
  | some m =>
    simp only [preparedCommitted,hhead,Option.any_some,beq_eq_false_iff_ne] at hquiet
    simp only [if_neg hquiet]

theorem logRecords_append (pre post : List Appended) :
    logRecords (pre++post) = logRecords pre++logRecords post := flatMap_append ..

theorem committedBatches_shown {first : LogSeq} {pre post : List Appended}
    {records : List VisibleRecord} {absorbedThrough : U64}
    (hvalid : ValidLog validateEnvelope decision first (pre++post))
    (hshow : List.Forall₂ (Shows xxh3) records (numbered first (logRecords (pre++post))))
    (hpre : ∀ r ∈ numbered first (logRecords pre),r.seq ≤ absorbedThrough)
    (hpost : ∀ r ∈ numbered (first+BitVec.ofNat 64 (logRecords pre).length) (logRecords post),
      absorbedThrough < r.seq) :
    committedBatches xxh3 validateEnvelope decision records absorbedThrough =
      .ok (expectedBatches decision (first+BitVec.ofNat 64 (logRecords pre).length) post) := by
  obtain ⟨hlen,hvalidPost⟩ := hvalid.append
  rw [← hlen] at hvalidPost
  rw [logRecords_append,numbered_append] at hshow
  have hskipped:=forall₂_take_append _ _ _ hshow
  have hkept:=forall₂_drop_append _ _ _ hshow
  obtain ⟨s,hrun,hquiet,hcom⟩ := recover_log hvalidPost .start rfl
  rw [committedBatches,← take_append_drop (numbered first (logRecords pre)).length records,
    foldlM_append,foldlM_absorbed _ _ _ _ hskipped hpre,ok_bind,
    foldlM_shows _ _ _ _ hkept hpost,hrun,ok_bind,finishRecovery_quiet hquiet,hcom]
  rfl

/-- Recovery returns exactly the batches that are whole and, if prepared,
decided, in log order; an absorbed prefix of batches is skipped exactly. -/
theorem committedBatches_atomic {first : LogSeq} {pre post : List Appended}
    {records : List VisibleRecord} {absorbedThrough : U64}
    (hvalid : ValidLog validateEnvelope decision first (pre++post))
    (hshow : List.Forall₂ (Shows xxh3) records (numbered first (logRecords (pre++post))))
    (hpre : ∀ r ∈ numbered first (logRecords pre),r.seq ≤ absorbedThrough)
    (hpost : ∀ r ∈ numbered (first+BitVec.ofNat 64 (logRecords pre).length) (logRecords post),
      absorbedThrough < r.seq) :
    committedBatches xxh3 validateEnvelope decision records absorbedThrough =
        .ok (expectedBatches decision (first+BitVec.ofNat 64 (logRecords pre).length) post) ∧
      expectedBatches decision first (pre++post) = expectedBatches decision first pre++
        expectedBatches decision (first+BitVec.ofNat 64 (logRecords pre).length) post := by
  obtain ⟨hlen,-⟩ := hvalid.append
  refine ⟨committedBatches_shown xxh3 validateEnvelope decision hvalid hshow hpre hpost,?_⟩
  rw [hlen,expectedBatches_append]

theorem shows_recordBytes (r : WalRecord) (h : r.payload.length < 2^32) :
    Shows xxh3 ⟨r.seq,r.op,recordBytes xxh3 r,0,(recordBytes xxh3 r).length⟩ r := by
  have hslice : slice? (recordBytes xxh3 r) 0 (recordBytes xxh3 r).length =
      some (recordBytes xxh3 r) := by
    rw [slice?,if_pos ⟨Nat.zero_le _,le_rfl⟩,drop_zero,Nat.sub_zero,take_length]
  have hdecode:=decodeRecord_recordBytes xxh3 r [] h
  rw [append_nil] at hdecode
  refine ⟨rfl,rfl,?_⟩
  rw [VisibleRecord.payload,hslice]
  simp only [hdecode]

end Decision

def deleteMember (docId : DocId) : Member :=
  ⟨deleteV1,appendHeader++toLe 4 (1 : U32)++toLe 16 docId,.delete [docId]⟩

/-- A mixed batch of two deletes that a crash cut after its first record, and
the delete that the reopened store appended behind it. -/
def cutThenDelete : List Appended :=
  [⟨.mixed [deleteMember 6,deleteMember 7],
      [(mixedBatchMemberV1,toLe 4 (0 : U32)++toLe 4 (2 : U32)++toLe 2 deleteV1++
          (deleteMember 6).payload),
        (mixedBatchMemberV1,toLe 4 (1 : U32)++toLe 4 (2 : U32)++toLe 2 deleteV1++
          (deleteMember 7).payload)],1⟩,
    ⟨.standalone (deleteMember 8),[(deleteV1,(deleteMember 8).payload)],1⟩]

theorem cutThenDelete_valid :
    ValidLog (fun _ => .ok ()) (fun _ => none) 1 cutThenDelete := by
  refine ⟨⟨by decide,?_,by decide,by decide,by decide,?_⟩,
    ⟨by decide,?_,by decide,by decide,by decide,?_⟩,trivial⟩
  · intro m hm
    rcases mem_cons.mp hm with rfl | hm
    · decide
    · rw [mem_singleton.mp hm]
      decide
  · intro b ms h
    cases h
  · exact ⟨by decide,by decide,by decide,by decide⟩
  · intro b ms h
    cases h

theorem committedBatches_after_cut :
    committedBatches (fun _ => 0) (fun _ => .ok ()) (fun _ => none)
      ((numbered 1 (logRecords cutThenDelete)).map fun r =>
        ⟨r.seq,r.op,recordBytes (fun _ => 0) r,0,(recordBytes (fun _ => 0) r).length⟩) 0 =
      .ok [⟨2,[(2,deleteV1,.delete [8])]⟩] := by
  have hshow : List.Forall₂ (Shows fun _ => 0)
      ((numbered 1 (logRecords cutThenDelete)).map fun r =>
        ⟨r.seq,r.op,recordBytes (fun _ => 0) r,0,(recordBytes (fun _ => 0) r).length⟩)
      (numbered 1 (logRecords ([]++cutThenDelete))) := by
    rw [forall₂_map_left_iff,nil_append,forall₂_same]
    intro r hr
    refine shows_recordBytes _ r ?_
    revert r
    decide
  exact (committedBatches_atomic (fun _ => 0) (fun _ => .ok ()) (fun _ => none)
    cutThenDelete_valid hshow (by decide) (by decide)).1

end Zeppelin.Ingest
