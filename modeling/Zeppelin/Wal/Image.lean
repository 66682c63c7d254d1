import Zeppelin.Wal.Replay

namespace Zeppelin.Wal
open Format List

/-- `std::io::ErrorKind` and detail of a permanent writer failure. -/
structure Failure where
  kind : String
  detail : String
  deriving DecidableEq

inductive WalWriteError where
  | nonEmptyWal (length : ℕ)
  | recoveredBytesOverflow
  | groupTooLarge (encodedBytes maxGroupBytes : ℕ)
  | sequenceExhausted
  | header (error : RegistryError)
  | record (error : RecordEncodeError)
  | poisoned (detail : String)
  | failed (failure : Failure)
  deriving DecidableEq

def numbered : LogSeq → List (U16 × Bytes) → List WalRecord
  | _,[] => []
  | first,(op,payload)::rs => ⟨first,op,payload⟩::numbered (first+1) rs

section Checksum
variable (xxh3 : Bytes → U64)

/-- The record loop of `encode_wal_image`: append, then take the next sequence. -/
def appendImage : LogSeq → List (U16 × Bytes) → Bytes → Except WalWriteError Bytes
  | _,[],encoded => .ok encoded
  | sequence,(op,payload)::rs,encoded =>
    match appendRecordInto xxh3 ⟨sequence,op,payload⟩ encoded with
    | .error e => .error (.record e)
    | .ok encoded =>
      match checkedAdd sequence 1 with
      | none => .error .sequenceExhausted
      | some next => appendImage next rs encoded

def encodeWalImage (firstSeq : LogSeq) (records : List (U16 × Bytes)) :
    Except WalWriteError Bytes :=
  match encodeHeader firstSeq with
  | .error e => .error (.header e)
  | .ok header => appendImage xxh3 firstSeq records header

@[simp] theorem numbered_length (first : LogSeq) (rs : List (U16 × Bytes)) :
    (numbered first rs).length = rs.length := by
  induction rs generalizing first with
  | nil => rfl
  | cons r rs ih => simp only [numbered,length_cons,ih]

theorem numbered_append (first : LogSeq) (rs ts : List (U16 × Bytes)) :
    numbered first (rs++ts) =
      numbered first rs++numbered (first+BitVec.ofNat 64 rs.length) ts := by
  induction rs generalizing first with
  | nil => simp [numbered]
  | cons r rs ih =>
    have hnext : first+1+BitVec.ofNat 64 rs.length = first+BitVec.ofNat 64 (rs.length+1) := by
      rw [BitVec.ofNat_add,BitVec.add_assoc,BitVec.add_comm 1]
      rfl
    rw [cons_append,numbered,numbered,ih,cons_append,length_cons,hnext]

variable {rs : List (U16 × Bytes)} {first : LogSeq} {sequence : LogSeq} {image : Bytes}
  {r : WalRecord} {j : ℕ}

theorem appendImage_ok {encoded : Bytes} (h : appendImage xxh3 sequence rs encoded = .ok image) :
    image = encoded++framesBytes xxh3 (numbered sequence rs) ∧
      Framable (numbered sequence rs) ∧ sequence.toNat+rs.length < 2^64 := by
  induction rs generalizing sequence encoded with
  | nil =>
    simp only [appendImage,Except.ok.injEq] at h
    refine ⟨by simp [numbered,h],by simp [Framable,numbered],?_⟩
    have hs:=sequence.isLt
    simpa using hs
  | cons r rs ih =>
    obtain ⟨op,payload⟩ := r
    simp only [appendImage,appendRecordInto] at h
    by_cases hp : payload.length < 2^32
    · simp only [if_pos hp] at h
      cases hc : checkedAdd sequence 1 with
      | none =>
        simp only [hc] at h
        cases h
      | some next =>
        simp only [hc] at h
        obtain ⟨himg,hfr,hlt⟩ := ih h
        have hn:=checkedAdd_eq_some hc
        have hone : (1 : LogSeq).toNat = 1 := rfl
        have hnext : next = sequence+1 := by
          unfold checkedAdd at hc
          split at hc
          · exact (Option.some.inj hc).symm
          · cases hc
        subst hnext
        refine ⟨?_,?_,?_⟩
        · rw [himg,numbered,framesBytes_cons,append_assoc]
        · intro q hq
          rcases mem_cons.mp hq with rfl | hq
          · exact hp
          · exact hfr q hq
        · simp only [length_cons]
          omega
    · simp only [if_neg hp] at h
      cases h

theorem appendImage_eq (encoded : Bytes)
    (hp : Framable (numbered sequence rs)) (hs : sequence.toNat+rs.length < 2^64) :
    appendImage xxh3 sequence rs encoded =
      .ok (encoded++framesBytes xxh3 (numbered sequence rs)) := by
  induction rs generalizing sequence encoded with
  | nil => simp [appendImage,numbered]
  | cons r rs ih =>
    obtain ⟨op,payload⟩ := r
    have hpay : payload.length < 2^32 := hp ⟨sequence,op,payload⟩ (mem_cons_self ..)
    have hone : (1 : LogSeq).toNat = 1 := rfl
    simp only [length_cons] at hs
    have hadd : sequence.toNat+(1 : LogSeq).toNat < 2^64 := by omega
    have hnext : (sequence+1).toNat = sequence.toNat+1 := by
      rw [BitVec.toNat_add,Nat.mod_eq_of_lt hadd,hone]
    have hps : Framable (numbered (sequence+1) rs) :=
      fun q hq => hp q (mem_cons_of_mem _ hq)
    simp only [appendImage,appendRecordInto,if_pos hpay,checkedAdd_of_lt hadd]
    rw [ih _ hps (by omega),numbered,framesBytes_cons,append_assoc]

/-- A successful image is the header followed by the framed numbered records,
and its sequence space was not exhausted. -/
theorem encodeWalImage_ok {firstSeq : LogSeq} (h : encodeWalImage xxh3 firstSeq rs = .ok image) :
    image = headerBytes firstSeq++framesBytes xxh3 (numbered firstSeq rs) ∧
      Framable (numbered firstSeq rs) ∧ firstSeq.toNat+rs.length < 2^64 := by
  simp only [encodeWalImage,encodeHeader_eq] at h
  exact appendImage_ok xxh3 h

/-- The sequences of a run of records count up from `first` without wrapping. -/
def Consecutive (first : LogSeq) (rs : List WalRecord) : Prop :=
  ∀ i r,rs[i]? = some r → r.seq.toNat = first.toNat+i

theorem consecutive_nil (first : LogSeq) : Consecutive first [] := by
  intro i r h
  simp at h

theorem consecutive_cons {rs : List WalRecord} : Consecutive first (r::rs) ↔ r.seq = first ∧
      ∀ i s,rs[i]? = some s → s.seq.toNat = first.toNat+1+i := by
  constructor
  · intro h
    refine ⟨BitVec.eq_of_toNat_eq (by simpa using h 0 r rfl),?_⟩
    intro i s hs
    have hi:=h (i+1) s (by simpa using hs)
    omega
  · rintro ⟨hr,hrest⟩ i s hs
    cases i with
    | zero =>
      have he : r = s := by simpa using hs
      rw [← he,hr]
      rfl
    | succ i =>
      have hi:=hrest i s (by simpa using hs)
      omega

theorem toNat_one_64 : (1 : LogSeq).toNat = 1 := rfl

theorem consecutive_numbered
    (h : first.toNat+rs.length ≤ 2^64) : Consecutive first (numbered first rs) := by
  induction rs generalizing first with
  | nil => exact consecutive_nil first
  | cons r rs ih =>
    obtain ⟨op,payload⟩ := r
    simp only [length_cons] at h
    rw [numbered,consecutive_cons]
    refine ⟨rfl,?_⟩
    intro i s hs
    have hi : i < rs.length := by
      have hlt:=(List.getElem?_eq_some_iff.mp hs).1
      simpa using hlt
    have hnext : (first+1).toNat = first.toNat+1 := by
      rw [BitVec.toNat_add,toNat_one_64,Nat.mod_eq_of_lt (by omega)]
    have hsuf:=ih (show (first+1).toNat+rs.length ≤ 2^64 by omega) i s hs
    omega

/-- Consecutive sequences pass the loop's check: below the last sequence,
saturating and exact successor agree. -/
theorem Consecutive.follows {rs : List WalRecord} (h : Consecutive first rs) :
    Follows first rs := by
  induction rs generalizing first with
  | nil => trivial
  | cons r rs ih =>
    obtain ⟨hr,hrest⟩ := consecutive_cons.mp h
    refine ⟨hr,?_⟩
    cases rs with
    | nil => trivial
    | cons s rs =>
      apply ih
      have hs0:=hrest 0 s rfl
      have hlt:=s.seq.isLt
      have hsat : (saturatingAdd first 1).toNat = first.toNat+1 := by
        rw [saturatingAdd_toNat,toNat_one_64]
        omega
      intro i q hq
      have hi:=hrest i q hq
      omega

def lastSequence : LogSeq := BitVec.allOnes 64

theorem lastSequence_toNat : lastSequence.toNat = 2^64-1 := by
  simp [lastSequence]

/-- A run that passes the loop's check is consecutive, or the saturated
sequence was accepted a second time. -/
theorem follows_consecutive_or_repeat {rs : List WalRecord}
    (h : Follows first rs) : Consecutive first rs ∨ ∃ pre r s post,rs = pre++r::s::post ∧
      Consecutive first (pre++[r]) ∧ r.seq = lastSequence ∧ s.seq = lastSequence := by
  induction rs generalizing first with
  | nil => exact Or.inl (consecutive_nil first)
  | cons r rs ih =>
    obtain ⟨hr,hrest⟩ := h
    have hsingle : Consecutive first [r] := consecutive_cons.mpr ⟨hr,by simp⟩
    cases rs with
    | nil => exact Or.inl hsingle
    | cons s rs =>
      by_cases hmax : first = lastSequence
      · refine Or.inr ⟨[],r,s,rs,rfl,hsingle,hr.trans hmax,?_⟩
        have hs : s.seq = saturatingAdd first 1 := hrest.1
        apply BitVec.eq_of_toNat_eq
        rw [hs,hmax,saturatingAdd_toNat,lastSequence_toNat,toNat_one_64]
        omega
      · have hlt : first.toNat < 2^64-1 := by
          have hf:=first.isLt
          have hne : first.toNat ≠ 2^64-1 := fun he =>
            hmax (BitVec.eq_of_toNat_eq (by rw [he,lastSequence_toNat]))
          omega
        have hsat : (saturatingAdd first 1).toNat = first.toNat+1 := by
          rw [saturatingAdd_toNat,toNat_one_64]
          omega
        have hlift : ∀ qs,Consecutive (saturatingAdd first 1) qs → Consecutive first (r::qs) := by
          intro qs hqs
          refine consecutive_cons.mpr ⟨hr,?_⟩
          intro i q hq
          have hi:=hqs i q hq
          omega
        rcases ih hrest with hc | ⟨pre,a,b,post,he,hc,ha,hb⟩
        · exact Or.inl (hlift _ hc)
        · refine Or.inr ⟨r::pre,a,b,post,by rw [he]; rfl,?_,ha,hb⟩
          exact hlift _ hc

theorem follows_append {expected : LogSeq} {rs ss : List WalRecord} :
    Follows expected (rs++ss) ↔ Follows expected rs ∧ Follows (expectedAfter expected rs) ss := by
  induction rs generalizing expected with
  | nil => simp [Follows,expectedAfter]
  | cons r rs ih => simp only [cons_append,Follows,expectedAfter,ih,and_assoc]

theorem expectedAfter_toNat (expected : LogSeq) (rs : List WalRecord) :
    (expectedAfter expected rs).toNat = min (expected.toNat+rs.length) (2^64-1) := by
  induction rs generalizing expected with
  | nil =>
    have h:=expected.isLt
    simp only [expectedAfter,length_nil]
    omega
  | cons r rs ih =>
    have h:=saturatingAdd_toNat expected 1
    rw [toNat_one_64] at h
    simp only [expectedAfter,ih,h,length_cons]
    omega

/-- Byte offset behind the first `k` records of a log. -/
def boundary (rs : List WalRecord) (k : ℕ) : ℕ :=
  walHeaderLen+(framesBytes xxh3 (rs.take k)).length

theorem boundary_zero (rs : List WalRecord) : boundary xxh3 rs 0 = walHeaderLen := by
  simp [boundary]

theorem boundary_succ (rs : List WalRecord) (k : ℕ) (r : WalRecord) (h : rs[k]? = some r) :
    boundary xxh3 rs (k+1) = boundary xxh3 rs k+(recordBytes xxh3 r).length := by
  simp only [boundary,take_add_one,h,Option.toList_some,framesBytes_append,
    length_append,framesBytes_cons,framesBytes_nil,append_nil]
  omega

theorem boundary_lt_succ (rs : List WalRecord) (k : ℕ) (h : k < rs.length) :
    boundary xxh3 rs k < boundary xxh3 rs (k+1) := by
  have hr : rs[k]? = some rs[k] := getElem?_eq_getElem h
  rw [boundary_succ xxh3 rs k _ hr,recordBytes_length,minRecordLen,recordHeaderLen]
  omega

theorem boundary_mono (rs : List WalRecord) {k : ℕ} (h : j ≤ k) :
    boundary xxh3 rs j ≤ boundary xxh3 rs k := by
  have hsplit : rs.take k = rs.take j++(rs.take k).drop j := by
    have ht:=take_append_drop j (rs.take k)
    rw [take_take,Nat.min_eq_left h] at ht
    exact ht.symm
  simp only [boundary]
  rw [hsplit,framesBytes_append,length_append]
  omega

/-- The record count of a prefix: the last boundary at or below `n`, among the
first `m`. -/
theorem exists_boundary (rs : List WalRecord) (n m : ℕ) (h : walHeaderLen ≤ n) :
    ∃ k ≤ m,boundary xxh3 rs k ≤ n ∧ (k < m → n < boundary xxh3 rs (k+1)) := by
  induction m with
  | zero => exact ⟨0,le_rfl,by rw [boundary_zero]; exact h,by omega⟩
  | succ m ih =>
    by_cases hfull : boundary xxh3 rs (m+1) ≤ n
    · exact ⟨m+1,le_rfl,hfull,by omega⟩
    · obtain ⟨k,hk,hle,hnext⟩ := ih
      refine ⟨k,by omega,hle,?_⟩
      intro hkm
      rcases Nat.lt_or_ge k m with hlt | hge
      · exact hnext hlt
      · rw [show k = m by omega]
        omega

theorem replay_behind (first : LogSeq) (rs : List WalRecord) (k : ℕ) (torn : Bytes)
    (hp : Framable rs) (hc : Consecutive first rs) :
    replay xxh3 (headerBytes first++(framesBytes xxh3 (rs.take k)++torn)) =
        replayLoop xxh3 (headerBytes first++(framesBytes xxh3 (rs.take k)++torn))
          (boundary xxh3 rs k) (expectedAfter first (rs.take k)) (rs.take k) ∧
      (headerBytes first++(framesBytes xxh3 (rs.take k)++torn)).drop (boundary xxh3 rs k) =
        torn := by
  set bytes := headerBytes first++(framesBytes xxh3 (rs.take k)++torn) with hbytes
  have hdrop : bytes.drop walHeaderLen = framesBytes xxh3 (rs.take k)++torn := by
    rw [hbytes]
    exact drop_left' (headerBytes_length first)
  have hpk : Framable (rs.take k) := fun r hr => hp r (mem_of_mem_take hr)
  have hck : Consecutive first (rs.take k) := by
    intro i r hr
    have hi : i < k := by
      have hlt:=(List.getElem?_eq_some_iff.mp hr).1
      simp only [length_take] at hlt
      omega
    rw [getElem?_take_of_lt hi] at hr
    exact hc i r hr
  constructor
  · have hh : decodeHeader bytes = .ok ⟨first⟩ := decodeHeader_headerBytes first _
    simp only [replay,hh]
    rw [replayLoop_follows xxh3 (rs.take k) bytes walHeaderLen first [] torn hdrop hpk
      hck.follows,nil_append]
    rfl
  · rw [boundary,← drop_drop,hdrop,drop_left]

theorem replay_whole (first : LogSeq) (rs : List WalRecord) (k : ℕ) (hp : Framable rs)
    (hc : Consecutive first rs) :
    replay xxh3 (headerBytes first++framesBytes xxh3 (rs.take k)) = ⟨rs.take k,.cleanEnd⟩ := by
  obtain ⟨hrun,hrest⟩ := replay_behind xxh3 first rs k [] hp hc
  rw [append_nil] at hrun hrest
  rw [hrun,replayLoop,dif_pos hrest]

theorem replay_inside (first : LogSeq) (rs : List WalRecord) (k : ℕ)
    (hp : Framable rs) (hc : Consecutive first rs) (hr : rs[k]? = some r) (hpos : 0 < j)
    (hj : j < (recordBytes xxh3 r).length) :
    replay xxh3 (headerBytes first++(framesBytes xxh3 (rs.take k)++
        (recordBytes xxh3 r).take j)) = ⟨rs.take k,.corruptAt (boundary xxh3 rs k) (.record .tail
      (if j < recordHeaderLen then .headerTruncated recordHeaderLen j
        else .bodyTruncated (BitVec.ofNat 32 r.payload.length)
          (minRecordLen+r.payload.length) j))⟩ := by
  obtain ⟨hrun,hrest⟩ := replay_behind xxh3 first rs k ((recordBytes xxh3 r).take j) hp hc
  have hpr : r.payload.length < 2^32 := hp r (mem_of_getElem? hr)
  have hne : (recordBytes xxh3 r).take j ≠ [] := by
    rw [Ne,take_eq_nil_iff,not_or]
    exact ⟨hpos.ne',recordBytes_ne_nil xxh3 r⟩
  rw [recordBytes_length] at hj
  have hdecode:=decodeRecord_take xxh3 r j hpr hj
  rw [hrun]
  rw [← hrest] at hne hdecode
  split_ifs at hdecode ⊢ with hshort
  · exact replayLoop_error xxh3 hne hdecode _ _
  · exact replayLoop_error xxh3 hne hdecode _ _

/-- Replay of a consecutive log cut inside record `k`, or at its end: the first
`k` records, and a clean end exactly when nothing of record `k` is left. -/
theorem replay_torn (first : LogSeq) (rs : List WalRecord) (k : ℕ) (torn : Bytes)
    (hp : Framable rs) (hc : Consecutive first rs)
    (ht : torn = [] ∨ ∃ r j,rs[k]? = some r ∧ j < (recordBytes xxh3 r).length ∧
      torn = (recordBytes xxh3 r).take j) :
    (replay xxh3 (headerBytes first++(framesBytes xxh3 (rs.take k)++torn))).records =
        rs.take k ∧
      ((replay xxh3 (headerBytes first++(framesBytes xxh3 (rs.take k)++torn))).terminator =
        .cleanEnd ↔ torn = []) := by
  rcases ht with rfl | ⟨r,j,hr,hj,rfl⟩
  · rw [append_nil,replay_whole xxh3 first rs k hp hc]
    exact ⟨rfl,by simp⟩
  · rcases Nat.eq_zero_or_pos j with rfl | hpos
    · rw [take_zero,append_nil,replay_whole xxh3 first rs k hp hc]
      exact ⟨rfl,by simp⟩
    · rw [replay_inside xxh3 first rs k hp hc hr hpos hj]
      refine ⟨rfl,by simp,?_⟩
      intro hnil
      rw [take_eq_nil_iff] at hnil
      rcases hnil with hzero | hempty
      · omega
      · exact absurd hempty (recordBytes_ne_nil xxh3 r)

/-- Every prefix of a log's bytes that keeps the header is its first `k` whole
records followed by a proper part of record `k`. -/
theorem take_image (first : LogSeq) (rs : List WalRecord) (n k : ℕ) (hk : k ≤ rs.length)
    (hle : boundary xxh3 rs k ≤ n) (hnext : k < rs.length → n < boundary xxh3 rs (k+1))
    (hn : n ≤ (headerBytes first++framesBytes xxh3 rs).length) :
    ∃ torn,(headerBytes first++framesBytes xxh3 rs).take n =
        headerBytes first++(framesBytes xxh3 (rs.take k)++torn) ∧
      (torn = [] ↔ n = boundary xxh3 rs k) ∧
      (torn = [] ∨ ∃ r j,rs[k]? = some r ∧ j < (recordBytes xxh3 r).length ∧
        torn = (recordBytes xxh3 r).take j) := by
  have hsplit : framesBytes xxh3 rs =
      framesBytes xxh3 (rs.take k)++framesBytes xxh3 (rs.drop k) := by
    rw [← framesBytes_append,take_append_drop]
  have hcut : (headerBytes first++framesBytes xxh3 rs).take n =
      headerBytes first++(framesBytes xxh3 (rs.take k)++
        (framesBytes xxh3 (rs.drop k)).take (n-boundary xxh3 rs k)) := by
    have hb : (headerBytes first++framesBytes xxh3 (rs.take k)).length = boundary xxh3 rs k := by
      rw [length_append,headerBytes_length,boundary]
    have hn' : n = (headerBytes first++framesBytes xxh3 (rs.take k)).length+
        (n-boundary xxh3 rs k) := by omega
    rw [hsplit,← append_assoc]
    conv_lhs => rw [hn']
    rw [take_length_add_append,append_assoc]
  refine ⟨_,hcut,?_⟩
  by_cases hkl : k < rs.length
  · have hr : rs[k]? = some rs[k] := getElem?_eq_getElem hkl
    have hlt:=hnext hkl
    rw [boundary_succ xxh3 rs k _ hr] at hlt
    have hd : rs.drop k = rs[k]::rs.drop (k+1) := drop_eq_getElem_cons hkl
    have htorn : (framesBytes xxh3 (rs.drop k)).take (n-boundary xxh3 rs k) =
        (recordBytes xxh3 rs[k]).take (n-boundary xxh3 rs k) := by
      rw [hd,framesBytes_cons]
      exact take_append_of_le_length (by omega)
    rw [htorn]
    constructor
    · rw [take_eq_nil_iff]
      have hne:=recordBytes_ne_nil xxh3 rs[k]
      constructor
      · rintro (h | h)
        · omega
        · exact absurd h hne
      · intro h
        exact Or.inl (by omega)
    · exact Or.inr ⟨rs[k],n-boundary xxh3 rs k,hr,by omega,rfl⟩
  · -- no record is left, so the cut is at the very end
    have hd : rs.drop k = [] := drop_eq_nil_of_le (by omega)
    have hfull : (headerBytes first++framesBytes xxh3 rs).length = boundary xxh3 rs k := by
      rw [length_append,headerBytes_length,boundary,take_of_length_le (by omega)]
    rw [hd]
    simp only [framesBytes_nil,take_nil,true_iff,true_or,and_true]
    omega

theorem replay_take (first : LogSeq) (rs : List WalRecord) (n : ℕ) (hp : Framable rs)
    (hc : Consecutive first rs) (hlo : walHeaderLen ≤ n)
    (hhi : n ≤ (headerBytes first++framesBytes xxh3 rs).length) :
    ∃ k ≤ rs.length,boundary xxh3 rs k ≤ n ∧ (k < rs.length → n < boundary xxh3 rs (k+1)) ∧
      (replay xxh3 ((headerBytes first++framesBytes xxh3 rs).take n)).records = rs.take k ∧
      ((replay xxh3 ((headerBytes first++framesBytes xxh3 rs).take n)).terminator = .cleanEnd ↔
        ∃ j ≤ rs.length,n = boundary xxh3 rs j) := by
  obtain ⟨k,hk,hle,hnext⟩ := exists_boundary xxh3 rs n rs.length hlo
  obtain ⟨torn,htake,htorn,hshape⟩ := take_image xxh3 first rs n k hk hle hnext hhi
  obtain ⟨hrec,hterm⟩ := replay_torn xxh3 first rs k torn hp hc hshape
  refine ⟨k,hk,hle,hnext,by rw [htake]; exact hrec,?_⟩
  rw [htake,hterm,htorn]
  constructor
  · intro h
    exact ⟨k,hk,h⟩
  · rintro ⟨j,hj,rfl⟩
    -- `k` is the only boundary index between `boundary k` and `boundary (k + 1)`
    have hjk : ¬ k < j := by
      intro hlt
      have h1:=hnext (by omega)
      have h2:=boundary_mono xxh3 rs (show k+1 ≤ j by omega)
      omega
    have hkj : ¬ j < k := by
      intro hlt
      have h1:=boundary_lt_succ xxh3 rs j (by omega)
      have h2:=boundary_mono xxh3 rs (show j+1 ≤ k by omega)
      omega
    rw [show j = k by omega]

end Checksum

section Checksum
variable (xxh3 : Bytes → U64)

/-- `rest` does not start with a valid record of sequence `next`. -/
def InvalidNext (next : ℕ) (rest : Bytes) : Prop :=
  match decodeRecord xxh3 rest with
  | .error _ => True
  | .ok d => d.record.seq.toNat ≠ next

/-- What replay promises of any byte string: no record under a bad header, else
the frames directly behind the header, numbered from its first sequence, up to
the end of the file or to the first invalid record. -/
def TrustedPrefix (bytes : Bytes) : Prop :=
  (∀ e,decodeHeader bytes = .error e → replay xxh3 bytes = ⟨[],.invalidHeader e⟩) ∧
  (∀ header,decodeHeader bytes = .ok header →
    Consecutive header.firstSeq (replay xxh3 bytes).records ∧
      ∃ rest,bytes.drop walHeaderLen = framesBytes xxh3 (replay xxh3 bytes).records++rest ∧
        ((rest = [] ∧ (replay xxh3 bytes).terminator = .cleanEnd) ∨
          (rest ≠ [] ∧
            InvalidNext xxh3 (header.firstSeq.toNat+(replay xxh3 bytes).records.length) rest ∧
            ∃ reason,(replay xxh3 bytes).terminator =
              .corruptAt (bytes.length-rest.length) reason)))

/-- The frames behind the header count up to `u64::MAX`, and the next frame is a
valid record that carries `u64::MAX` again. -/
def RepeatsLastSequence (bytes : Bytes) : Prop :=
  ∃ header pre r s rest,decodeHeader bytes = .ok header ∧
    bytes.drop walHeaderLen = framesBytes xxh3 (pre++[r,s])++rest ∧
    Framable (pre++[r,s]) ∧ Consecutive header.firstSeq (pre++[r]) ∧
    r.seq = lastSequence ∧ s.seq = lastSequence

variable {bytes rest : Bytes} {header : WalHeader}

theorem replay_shape (hd : decodeHeader bytes = .ok header) :
    ∃ rest,bytes.drop walHeaderLen = framesBytes xxh3 (replay xxh3 bytes).records++rest ∧
      Framable (replay xxh3 bytes).records ∧ Follows header.firstSeq (replay xxh3 bytes).records ∧
      ((rest = [] ∧ (replay xxh3 bytes).terminator = .cleanEnd) ∨
        (rest ≠ [] ∧
          StopsAt xxh3 (expectedAfter header.firstSeq (replay xxh3 bytes).records) rest ∧
          ∃ reason,(replay xxh3 bytes).terminator =
            .corruptAt (bytes.length-rest.length) reason)) := by
  have hr : replay xxh3 bytes = replayLoop xxh3 bytes walHeaderLen header.firstSeq [] := by
    simp only [replay,hd]
  obtain ⟨rs,rest,hrec,hbytes,hp,hf,hend⟩ :=
    replayLoop_shape xxh3 bytes walHeaderLen header.firstSeq []
  rw [nil_append] at hrec
  rw [← hr] at hrec hend
  have hoff : walHeaderLen+(framesBytes xxh3 rs).length = bytes.length-rest.length := by
    have hlen:=congrArg List.length hbytes
    have hle:=decodeHeader_ok_length hd
    rw [length_drop,length_append] at hlen
    omega
  rw [hoff] at hend
  exact ⟨rest,by rw [hrec]; exact hbytes,by rw [hrec]; exact hp,by rw [hrec]; exact hf,
    by rw [hrec]; exact hend⟩

theorem invalidNext_of_stopsAt {first : LogSeq} {rs : List WalRecord}
    (h : StopsAt xxh3 (expectedAfter first rs) rest) :
    InvalidNext xxh3 (first.toNat+rs.length) rest := by
  unfold StopsAt at h
  unfold InvalidNext
  cases hd : decodeRecord xxh3 rest with
  | error e => trivial
  | ok d =>
    simp only [hd] at h
    intro he
    have hlt:=d.record.seq.isLt
    have hexp:=expectedAfter_toNat first rs
    exact h (BitVec.eq_of_toNat_eq (by omega))

theorem repeatsLastSequence_records {pre : List WalRecord}
    {r s : WalRecord} (hd : decodeHeader bytes = .ok header)
    (hb : bytes.drop walHeaderLen = framesBytes xxh3 (pre++[r,s])++rest)
    (hp : Framable (pre++[r,s])) (hc : Consecutive header.firstSeq (pre++[r]))
    (hr : r.seq = lastSequence) (hs : s.seq = lastSequence) :
    ∃ post,(replay xxh3 bytes).records = pre++r::s::post := by
  have hlast : (pre++[r])[pre.length]? = some r := by simp
  have hmax:=hc pre.length r hlast
  rw [hr,lastSequence_toNat] at hmax
  have hfol : Follows header.firstSeq (pre++[r,s]) := by
    have hsplit : pre++[r,s] = (pre++[r])++[s] := by simp
    rw [hsplit,follows_append]
    refine ⟨hc.follows,?_,trivial⟩
    apply BitVec.eq_of_toNat_eq
    rw [hs,expectedAfter_toNat,lastSequence_toNat]
    simp only [length_append,length_singleton]
    omega
  have hrun : replay xxh3 bytes = replayLoop xxh3 bytes
      (walHeaderLen+(framesBytes xxh3 (pre++[r,s])).length)
      (expectedAfter header.firstSeq (pre++[r,s])) (pre++[r,s]) := by
    simp only [replay,hd]
    rw [replayLoop_follows xxh3 _ bytes walHeaderLen header.firstSeq [] rest hb hp hfol,
      nil_append]
  obtain ⟨post,rest',hrec,-⟩ := replayLoop_shape xxh3 bytes
    (walHeaderLen+(framesBytes xxh3 (pre++[r,s])).length)
    (expectedAfter header.firstSeq (pre++[r,s])) (pre++[r,s])
  exact ⟨post,by rw [hrun,hrec]; simp⟩

/-- Replay keeps its promise on a byte string exactly when the log does not
repeat the last sequence. -/
theorem trustedPrefix_iff (bytes : Bytes) :
    TrustedPrefix xxh3 bytes ↔ ¬ RepeatsLastSequence xxh3 bytes := by
  constructor
  · rintro ⟨-,htrust⟩ ⟨header,pre,r,s,rest,hd,hb,hp,hc,hr,hs⟩
    obtain ⟨hcon,-⟩ := htrust header hd
    obtain ⟨post,hrec⟩ := repeatsLastSequence_records xxh3 hd hb hp hc hr hs
    rw [hrec] at hcon
    have h1:=hcon pre.length r (by simp)
    have h2:=hcon (pre.length+1) s (by simp)
    rw [hr] at h1
    rw [hs] at h2
    omega
  · intro hno
    refine ⟨fun e hd => by simp only [replay,hd],fun header hd => ?_⟩
    obtain ⟨rest,hb,hp,hf,hend⟩ := replay_shape xxh3 hd
    refine ⟨?_,rest,hb,?_⟩
    · rcases follows_consecutive_or_repeat hf with hc | ⟨pre,r,s,post,he,hc,hr,hs⟩
      · exact hc
      · exfalso
        have hsplit : pre++r::s::post = (pre++[r,s])++post := by simp
        rw [he,hsplit,framesBytes_append,append_assoc] at hb
        refine hno ⟨header,pre,r,s,_,hd,hb,?_,hc,hr,hs⟩
        intro q hq
        rw [he,hsplit] at hp
        exact hp q (mem_append_left _ hq)
    · rcases hend with h | ⟨hne,hstop,hterm⟩
      · exact Or.inl h
      · exact Or.inr ⟨hne,invalidNext_of_stopsAt xxh3 hstop,hterm⟩

theorem replay_whole_image {firstSeq : LogSeq} {rs : List (U16 × Bytes)} {image : Bytes}
    (h : encodeWalImage xxh3 firstSeq rs = .ok image) :
    replay xxh3 image = ⟨numbered firstSeq rs,.cleanEnd⟩ := by
  obtain ⟨rfl,hp,hlt⟩ := encodeWalImage_ok xxh3 h
  have hc:=consecutive_numbered (show firstSeq.toNat+rs.length ≤ 2^64 by omega)
  have hwhole:=replay_whole xxh3 firstSeq (numbered firstSeq rs)
    (numbered firstSeq rs).length hp hc
  rw [take_length] at hwhole
  exact hwhole

/-- Replay of crash images, with the exact condition on arbitrary bytes. -/
theorem replay_crash_images :
    (∀ firstSeq rs image,encodeWalImage xxh3 firstSeq rs = .ok image →
      replay xxh3 image = ⟨numbered firstSeq rs,.cleanEnd⟩ ∧
        Consecutive firstSeq (numbered firstSeq rs)) ∧
    (∀ firstSeq rs image n,encodeWalImage xxh3 firstSeq rs = .ok image →
      walHeaderLen ≤ n → n ≤ image.length →
      ∃ k ≤ rs.length,boundary xxh3 (numbered firstSeq rs) k ≤ n ∧
        (k < rs.length → n < boundary xxh3 (numbered firstSeq rs) (k+1)) ∧
        (replay xxh3 (image.take n)).records = (numbered firstSeq rs).take k ∧
        ((replay xxh3 (image.take n)).terminator = .cleanEnd ↔
          ∃ j ≤ rs.length,n = boundary xxh3 (numbered firstSeq rs) j)) ∧
    (∀ bytes, TrustedPrefix xxh3 bytes ↔ ¬ RepeatsLastSequence xxh3 bytes) := by
  refine ⟨?_,?_,trustedPrefix_iff xxh3⟩
  · intro firstSeq rs image h
    obtain ⟨-,-,hlt⟩ := encodeWalImage_ok xxh3 h
    exact ⟨replay_whole_image xxh3 h,consecutive_numbered (by omega)⟩
  · intro firstSeq rs image n h hlo hhi
    obtain ⟨rfl,hp,hlt⟩ := encodeWalImage_ok xxh3 h
    have hc:=consecutive_numbered (show firstSeq.toNat+rs.length ≤ 2^64 by omega)
    have hcut:=replay_take xxh3 firstSeq (numbered firstSeq rs) n hp hc hlo hhi
    rw [numbered_length] at hcut
    exact hcut

end Checksum

/-- One-record log, whole and cut behind its header. -/
theorem replay_crash_images_one_record :
    replay (fun _ => 0) (headerBytes 7++framesBytes (fun _ => 0) (numbered 7 [(2,[1,2])])) =
        ⟨numbered 7 [(2,[1,2])],.cleanEnd⟩ ∧
      (∃ k ≤ 1,boundary (fun _ => 0) (numbered 7 [(2,[1,2])]) k ≤ 50 ∧
        (k < 1 → 50 < boundary (fun _ => 0) (numbered 7 [(2,[1,2])]) (k+1)) ∧
        (replay (fun _ => 0) ((headerBytes 7++framesBytes (fun _ => 0)
          (numbered 7 [(2,[1,2])])).take 50)).records = (numbered 7 [(2,[1,2])]).take k ∧
        ((replay (fun _ => 0) ((headerBytes 7++framesBytes (fun _ => 0)
          (numbered 7 [(2,[1,2])])).take 50)).terminator = .cleanEnd ↔
          ∃ j ≤ 1,50 = boundary (fun _ => 0) (numbered 7 [(2,[1,2])]) j)) := by
  have henc : encodeWalImage (fun _ => 0) 7 [(2,[1,2])] =
      .ok (headerBytes 7++framesBytes (fun _ => 0) (numbered 7 [(2,[1,2])])) := by
    simp only [encodeWalImage,encodeHeader_eq]
    exact appendImage_eq _ _ (by intro r hr; simp [numbered] at hr; simp [hr]) (by decide)
  exact ⟨((replay_crash_images (fun _ => 0)).1 7 [(2,[1,2])] _ henc).1,
    (replay_crash_images (fun _ => 0)).2.1 7 [(2,[1,2])] _ 50 henc (by decide) (by decide)⟩

/-- Header `u64::MAX` and two records with that sequence: whatever the checksum
function, replay returns both. -/
theorem replay_repeats_last_sequence :
    ¬ ∃ xxh3 : Bytes → U64, TrustedPrefix xxh3 (headerBytes lastSequence++
      framesBytes xxh3 [⟨lastSequence,2,[]⟩,⟨lastSequence,2,[]⟩]) := by
  rintro ⟨xxh3,h⟩
  refine (trustedPrefix_iff xxh3 _).mp h ⟨⟨lastSequence⟩,[],⟨lastSequence,2,[]⟩,
    ⟨lastSequence,2,[]⟩,[],decodeHeader_headerBytes lastSequence _,?_,?_,?_,rfl,rfl⟩
  · rw [drop_left' (headerBytes_length lastSequence),append_nil,nil_append]
  · intro r hr
    have he : r.payload = [] := by
      rcases mem_cons.mp hr with rfl | hr
      · rfl
      · rw [mem_singleton.mp hr]
    simp [he]
  · exact consecutive_cons.mpr ⟨rfl,by simp⟩

end Zeppelin.Wal
