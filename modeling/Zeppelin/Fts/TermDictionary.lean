import Zeppelin.Segment.Identity

/-! fts/dict.rs -/

namespace Zeppelin.Fts
open Collections Segment List

def termsPerBlock : ℕ := 16

inductive DictError where
  | notSorted (term : Bytes)
  | duplicate (term : Bytes)
  | emptyTerm
  deriving DecidableEq

structure BlockIndexEntry where
  head : Bytes
  firstTerm : ℕ

structure TermDictionary where
  terms : List Bytes
  index : List BlockIndexEntry
  encoded : Bytes

def sharedPrefixLen : Bytes → Bytes → ℕ
  | a::left,b::right => if a = b then sharedPrefixLen left right+1 else 0
  | _,_ => 0

def pushVarint (value : ℕ) : Bytes :=
  if value / 128 = 0 then [BitVec.ofNat 8 (value % 128)]
  else BitVec.ofNat 8 (value % 128+128)::pushVarint (value / 128)
termination_by value

/-- The bits at `shift` and above are not set in `value`. -/
def readVarint (value shift index : ℕ) : Bytes → Option (ℕ × ℕ)
  | [] => none
  | byte::bytes =>
    if shift ≥ 64 then none
    else if byte.toNat < 128 then some (value+byte.toNat*2^shift % 2^64,index+1)
    else readVarint (value+byte.toNat % 128*2^shift % 2^64) (shift+7) (index+1) bytes

def codedTerm (shared : ℕ) (suffix : Bytes) : Bytes :=
  BitVec.ofNat 8 shared::(pushVarint suffix.length++suffix)

def sharedLen (position : ℕ) (previous term : Bytes) : ℕ :=
  if position % termsPerBlock = 0 then 0 else min (sharedPrefixLen previous term) 255

namespace TermDictionary

def empty : TermDictionary := ⟨[],[],[]⟩

/-- `push`, once the order is checked. -/
def append (d : TermDictionary) (term : Bytes) : TermDictionary where
  terms := d.terms++[term]
  index := if d.terms.length % termsPerBlock = 0 then d.index++[⟨term,d.terms.length⟩] else d.index
  encoded :=
    let shared:=sharedLen d.terms.length (d.terms.getLastD []) term
    d.encoded++codedTerm shared (term.drop shared)

def push (d : TermDictionary) (term : Bytes) : Except DictError TermDictionary :=
  match d.terms.getLast? with
  | none => .ok (d.append term)
  | some last =>
    if byteKey term < byteKey last then .error (.notSorted term)
    else if term = last then .error (.duplicate term)
    else .ok (d.append term)

def blockFor (d : TermDictionary) (term : Bytes) : Option ℕ :=
  match slicePartitionPoint (fun entry => byteKey entry.head ≤ byteKey term) d.index with
  | 0 => none
  | low+1 => some low

def scanBlock (term : Bytes) : ℕ → List Bytes → Option ℕ
  | _,[] => none
  | i,t::terms =>
    if byteKey t < byteKey term then scanBlock term (i+1) terms
    else if t = term then some i else none

def seekExact (d : TermDictionary) (term : Bytes) : Option ℕ := do
  let block ← d.blockFor term
  let entry ← d.index[block]?
  scanBlock term entry.firstTerm ((d.terms.drop entry.firstTerm).take termsPerBlock)

def seekCeiling (d : TermDictionary) (term : Bytes) : Option ℕ :=
  let low:=slicePartitionPoint (fun t => byteKey t < byteKey term) d.terms
  if low < d.terms.length then some low else none

def prefixRange (d : TermDictionary) (start : Bytes) : Except DictError (ℕ × ℕ) :=
  if start = [] then .error .emptyTerm
  else
    match d.seekCeiling start with
    | none => .ok (d.terms.length,d.terms.length)
    | some first =>
      .ok (first,first+((d.terms.drop first).takeWhile fun t => start.isPrefixOf t).length)

def frontOf (position shared : ℕ) (previous : Bytes) : Option Bytes :=
  if position % termsPerBlock = 0 then some []
  else if shared ≤ previous.length then some (previous.take shared)
  else none

def decodeFrom (position : ℕ) (previous : Bytes) : Bytes → Option (List Bytes)
  | [] => some []
  | shared::bytes => do
    let (length,consumed) ← readVarint 0 0 0 bytes
    if (bytes.drop consumed).length < length then none
    else
      let front ← frontOf position shared.toNat previous
      let term:=front++(bytes.drop consumed).take length
      let terms ← decodeFrom (position+1) term ((bytes.drop consumed).drop length)
      some (term::terms)
termination_by bytes => bytes.length
decreasing_by rw [length_drop,length_drop,length_cons]; omega

def decodeTerms (d : TermDictionary) : Option (List Bytes) := decodeFrom 0 [] d.encoded

end TermDictionary

theorem readVarint_pushVarint (rest : Bytes) {n value shift index : ℕ} (hshift : shift < 64)
    (hfits : n*2^shift < 2^64) : readVarint value shift index (pushVarint n++rest) =
      some (value+n*2^shift,index+(pushVarint n).length) := by
  fun_induction pushVarint n generalizing value shift index with
  | case1 n hsmall =>
    have hn : n < 128 := by omega
    have hmod : n % 128 = n := Nat.mod_eq_of_lt hn
    have hbyte : (BitVec.ofNat 8 n).toNat = n := by
      rw [BitVec.toNat_ofNat,Nat.mod_eq_of_lt (by omega)]
    rw [singleton_append,readVarint,if_neg (by omega),hmod,hbyte,if_pos hn,
      Nat.mod_eq_of_lt hfits]
    rfl
  | case2 n hlarge ih =>
    have hbyte : (BitVec.ofNat 8 (n % 128+128)).toNat = n % 128+128 := by
      rw [BitVec.toNat_ofNat,Nat.mod_eq_of_lt (by omega)]
    have hsplit : n*2^shift = n % 128*2^shift+n / 128*2^(shift+7) := by
      have hdiv:=Nat.div_add_mod n 128
      have hpow : 2^(shift+7) = 128*2^shift := by rw [pow_add,Nat.mul_comm]; rfl
      calc n*2^shift = (128*(n / 128)+n % 128)*2^shift := by rw [hdiv]
        _ = n % 128*2^shift+n / 128*(128*2^shift) := by ring
        _ = n % 128*2^shift+n / 128*2^(shift+7) := by rw [hpow]
    have hnext : 2^(shift+7) < 2^64 := by
      have hone : 1*2^(shift+7) ≤ n / 128*2^(shift+7) :=
        Nat.mul_le_mul_right _ (by omega)
      omega
    have hlow : n % 128*2^shift < 2^64 := by omega
    rw [cons_append,readVarint,if_neg (by omega),hbyte,if_neg (by omega),
      show (n % 128+128) % 128 = n % 128 by omega,Nat.mod_eq_of_lt hlow,
      ih ((Nat.pow_lt_pow_iff_right (by decide)).mp hnext) (by omega),length_cons,hsplit,
      Nat.add_assoc,Nat.add_assoc,Nat.add_comm 1]

theorem take_sharedPrefixLen {left right : Bytes} {n : ℕ} (h : n ≤ sharedPrefixLen left right) :
    n ≤ left.length ∧ left.take n = right.take n := by
  induction n generalizing left right with
  | zero => exact ⟨Nat.zero_le _,rfl⟩
  | succ n ih =>
    match left,right with
    | a::left,b::right =>
      rw [sharedPrefixLen] at h
      split_ifs at h with hsame
      · obtain ⟨hlength,htake⟩ := ih (Nat.le_of_succ_le_succ h)
        exact ⟨Nat.succ_le_succ hlength,by rw [take_succ_cons,take_succ_cons,htake,hsame]⟩
      · omega
    | [],_ => simp [sharedPrefixLen] at h
    | _::_,[] => simp [sharedPrefixLen] at h

def encodeTerms (position : ℕ) (previous : Bytes) : List Bytes → Bytes
  | [] => []
  | term::terms =>
    let shared:=sharedLen position previous term
    codedTerm shared (term.drop shared)++encodeTerms (position+1) term terms

theorem encodeTerms_concat (position : ℕ) (previous : Bytes) (terms : List Bytes) (term : Bytes) :
    encodeTerms position previous (terms++[term]) = encodeTerms position previous terms++
      encodeTerms (position+terms.length) (terms.getLastD previous) [term] := by
  induction terms generalizing position previous with
  | nil => rfl
  | cons t terms ih =>
    rw [cons_append,encodeTerms,encodeTerms,ih,append_assoc,length_cons,Nat.add_assoc,
      Nat.add_comm 1,getLastD_cons]

theorem decodeFrom_encodeTerms {position : ℕ} {previous : Bytes} {terms : List Bytes}
    (h : ∀ t ∈ terms,t.length < 2^64) :
    TermDictionary.decodeFrom position previous (encodeTerms position previous terms) =
      some terms := by
  induction terms generalizing position previous with
  | nil => rw [encodeTerms,TermDictionary.decodeFrom]
  | cons term terms ih =>
    obtain ⟨hterm,hterms⟩ := forall_mem_cons.mp h
    have hshared : sharedLen position previous term ≤ 255 := by
      unfold sharedLen
      split_ifs
      · exact Nat.zero_le _
      · exact Nat.min_le_right _ _
    have hbyte : (BitVec.ofNat 8 (sharedLen position previous term)).toNat =
        sharedLen position previous term := by
      rw [BitVec.toNat_ofNat,Nat.mod_eq_of_lt (by omega)]
    have hfront : TermDictionary.frontOf position (sharedLen position previous term) previous =
        some (term.take (sharedLen position previous term)) := by
      unfold TermDictionary.frontOf sharedLen
      split_ifs with hhead hle
      · rfl
      · rw [(take_sharedPrefixLen (Nat.min_le_left _ _)).2]
      · exact absurd (take_sharedPrefixLen (Nat.min_le_left _ _)).1 hle
    have hsuffix : (term.drop (sharedLen position previous term)).length*2^0 < 2^64 := by
      rw [length_drop]
      omega
    rw [encodeTerms,codedTerm,cons_append,TermDictionary.decodeFrom,append_assoc,
      readVarint_pushVarint _ (by decide) hsuffix,hbyte,hfront]
    simp only [Option.bind_eq_bind,Option.bind_some,Nat.zero_add,Nat.pow_zero,Nat.mul_one,
      drop_left,length_append,take_left]
    rw [if_neg (by omega),take_append_drop,ih hterms]
    rfl

structure TermDictionary.Of (terms : List Bytes) (d : TermDictionary) : Prop where
  terms_eq : d.terms = terms
  encoded : d.encoded = encodeTerms 0 [] terms
  length : d.index.length = (terms.length+15) / 16
  head : ∀ b : ℕ,d.index[b]? = terms[16*b]?.map fun t => ⟨t,16*b⟩

namespace TermDictionary
variable {d : TermDictionary} {terms : List Bytes} {probe : Bytes}

theorem Of.append (h : Of terms d) (term : Bytes) : Of (terms++[term]) (d.append term) := by
  obtain ⟨rfl,hencoded,hlength,hhead⟩ := h
  refine ⟨rfl,?_,?_,fun b => ?_⟩
  · rw [encodeTerms_concat,TermDictionary.append,hencoded,Nat.zero_add]
    simp [encodeTerms]
  · unfold TermDictionary.append termsPerBlock
    split_ifs with hblock
    · simp only [length_append,length_singleton,hlength]
      omega
    · simp only [length_append,length_singleton,hlength]
      omega
  · unfold TermDictionary.append termsPerBlock
    rcases Nat.lt_trichotomy (16*b) d.terms.length with hlt | heq | hgt
    · rw [getElem?_append_left hlt,← hhead]
      split_ifs with hblock
      · exact getElem?_append_left (by omega)
      · rfl
    · have hb : b = d.index.length := by omega
      rw [if_pos (by omega),heq,getElem?_concat_length,hb,getElem?_concat_length]
      rfl
    · have hterms : (d.terms++[term])[16*b]? = none := getElem?_eq_none (by simp; omega)
      rw [hterms,Option.map_none]
      have hindex : d.index.length ≤ b := by omega
      split_ifs with hblock
      · exact getElem?_eq_none (by rw [length_append,length_singleton]; omega)
      · exact getElem?_eq_none hindex

theorem exists_of (h : terms.Pairwise fun a b => byteKey a < byteKey b) :
    ∃ d,terms.foldlM push empty = .ok d ∧ Of terms d := by
  induction terms using List.reverseRecOn with
  | nil => exact ⟨empty,rfl,rfl,rfl,rfl,fun b => rfl⟩
  | append_singleton terms term ih =>
    obtain ⟨hterms,-,hlast⟩ := pairwise_append.mp h
    obtain ⟨d,hd,hof⟩ := ih hterms
    refine ⟨d.append term,?_,hof.append term⟩
    rw [foldlM_append,hd]
    show push d term >>= pure = _
    have hpush : push d term = .ok (d.append term) := by
      unfold push
      rw [hof.terms_eq]
      cases hget : terms.getLast? with
      | none => rfl
      | some last =>
        have hbelow:=hlast last (mem_of_getLast? hget) term (mem_singleton_self term)
        simp only [if_neg (not_lt.mpr hbelow.le)]
        rw [if_neg fun hsame => (hsame ▸ hbelow).ne rfl]
    rw [hpush]
    rfl

theorem scanBlock_some {i j : ℕ} (h : scanBlock probe i terms = some j) :
    ∃ m,j = i+m ∧ terms[m]? = some probe := by
  induction terms generalizing i with
  | nil => cases h
  | cons t terms ih =>
    rw [scanBlock] at h
    split_ifs at h with hlt hsame
    · obtain ⟨m,rfl,hm⟩ := ih h
      exact ⟨m+1,by omega,hm⟩
    · exact ⟨0,(Option.some.inj h).symm,by rw [hsame]; rfl⟩

theorem scanBlock_of_getElem? {i m : ℕ} (h : terms[m]? = some probe)
    (hbefore : ∀ t ∈ terms.take m,byteKey t < byteKey probe) :
    scanBlock probe i terms = some (i+m) := by
  induction terms generalizing i m with
  | nil => cases h
  | cons t terms ih =>
    rw [scanBlock]
    cases m with
    | zero =>
      obtain rfl := Option.some.inj h
      rw [if_neg (lt_irrefl _),if_pos rfl]
      rfl
    | succ m =>
      rw [take_succ_cons,forall_mem_cons] at hbefore
      rw [if_pos hbefore.1,ih h hbefore.2]
      congr 1
      omega

theorem not_lt_of_starts {t : Bytes} (h : probe <+: t) : ¬ byteKey t < byteKey probe := by
  induction probe generalizing t with
  | nil => exact not_lt_nil _
  | cons a probe ih =>
    obtain ⟨rest,rfl⟩ := h
    rw [cons_append,byteKey,byteKey,map_cons,map_cons,cons_lt_cons_iff]
    intro hlt
    rcases hlt with hlt | ⟨-,hlt⟩
    · exact Nat.lt_irrefl _ hlt
    · exact ih (prefix_append _ _) hlt

theorem prefix_of_between {s t : Bytes} (h : probe <+: t) (hlow : ¬ byteKey s < byteKey probe)
    (hhigh : ¬ byteKey t < byteKey s) : probe <+: s := by
  induction probe generalizing s t with
  | nil => exact nil_prefix
  | cons a probe ih =>
    obtain ⟨rest,rfl⟩ := h
    rw [cons_append] at hhigh
    match s with
    | [] => exact absurd (nil_lt_cons _ _) hlow
    | b::s =>
      rw [byteKey,byteKey,map_cons,map_cons,cons_lt_cons_iff] at hlow hhigh
      have hsame : a = b := BitVec.eq_of_toNat_eq (by omega)
      rw [hsame,prefix_cons_inj]
      exact ih (prefix_append _ rest) (fun hlt => hlow (Or.inr ⟨by rw [hsame],hlt⟩))
        fun hlt => hhigh (Or.inr ⟨by rw [hsame],hlt⟩)

section Sorted
variable (hsorted : terms.Pairwise fun a b => byteKey a < byteKey b)
include hsorted

theorem lt_of_getElem? {i j : ℕ} {a b : Bytes} (hi : terms[i]? = some a) (hj : terms[j]? = some b)
    (h : i < j) : byteKey a < byteKey b := by
  obtain ⟨hlt,rfl⟩ := List.getElem?_eq_some_iff.mp hi
  obtain ⟨hlt',rfl⟩ := List.getElem?_eq_some_iff.mp hj
  exact pairwise_iff_getElem.mp hsorted i j hlt hlt' h

theorem index_mono (h : Of terms d) : d.index.Pairwise fun a b =>
    decide (byteKey b.head ≤ byteKey probe) = true →
      decide (byteKey a.head ≤ byteKey probe) = true := by
  refine pairwise_iff_getElem.mpr fun i j hi hj hij hle => ?_
  have hhead : ∀ b entry,d.index[b]? = some entry → terms[16*b]? = some entry.head := by
    intro b entry hentry
    rw [h.head] at hentry
    obtain ⟨t,ht,rfl⟩ := Option.map_eq_some_iff.mp hentry
    exact ht
  have hbelow:=lt_of_getElem? hsorted (hhead i _ (getElem?_eq_getElem hi))
    (hhead j _ (getElem?_eq_getElem hj)) (by omega)
  exact decide_eq_true (hbelow.le.trans (of_decide_eq_true hle))

theorem blockFor_of_getElem? (h : Of terms d) {i : ℕ} (hget : terms[i]? = some probe) :
    d.blockFor probe = some (i / 16) := by
  obtain ⟨hlt,-⟩ := List.getElem?_eq_some_iff.mp hget
  have hcut : slicePartitionPoint (fun e => byteKey e.head ≤ byteKey probe) d.index =
      i / 16+1 := by
    have hmono:=@index_mono d terms probe hsorted h
    rw [slicePartitionPoint_eq_findIdx hmono]
    obtain ⟨head,hhead⟩ : ∃ head,terms[16*(i / 16)]? = some head :=
      ⟨_,getElem?_eq_getElem (by omega)⟩
    have hentry:=h.head (i / 16)
    rw [hhead,Option.map_some] at hentry
    have hle : byteKey head ≤ byteKey probe := by
      rcases Nat.lt_or_ge (16*(i / 16)) i with hbelow | hsame
      · exact (lt_of_getElem? hsorted hhead hget hbelow).le
      · rw [show 16*(i / 16) = i by omega,hget] at hhead
        rw [Option.some.inj hhead]
    have hinside:=(lt_findIdx_not_iff hmono hentry).mpr (decide_eq_true hle)
    refine Nat.le_antisymm (Nat.le_of_not_lt fun hnext => ?_) hinside
    have hlen:=hnext.trans_le findIdx_le_length
    obtain ⟨next,hnextentry⟩ : ∃ next,d.index[i / 16+1]? = some next :=
      ⟨_,getElem?_eq_getElem hlen⟩
    have hbelow:=of_decide_eq_true ((lt_findIdx_not_iff hmono hnextentry).mp hnext)
    rw [h.head] at hnextentry
    obtain ⟨t,ht,rfl⟩ := Option.map_eq_some_iff.mp hnextentry
    exact hbelow.not_gt (lt_of_getElem? hsorted hget ht (by omega))
  rw [blockFor,hcut]

theorem seekExact_eq_some (h : Of terms d) {i : ℕ} :
    d.seekExact probe = some i ↔ terms[i]? = some probe := by
  constructor
  · intro hseek
    obtain ⟨block,-,hseek⟩ := Option.bind_eq_some_iff.mp hseek
    obtain ⟨entry,-,hseek⟩ := Option.bind_eq_some_iff.mp hseek
    obtain ⟨m,rfl,hm⟩ := scanBlock_some hseek
    rw [getElem?_take] at hm
    split_ifs at hm
    rw [getElem?_drop,h.terms_eq] at hm
    exact hm
  · intro hget
    obtain ⟨hlt,-⟩ := List.getElem?_eq_some_iff.mp hget
    have hentry:=h.head (i / 16)
    have hhead : 16*(i / 16) < terms.length := by omega
    rw [getElem?_eq_getElem hhead,Option.map_some] at hentry
    have hscan : scanBlock probe (16*(i / 16)) ((terms.drop (16*(i / 16))).take 16) =
        some (16*(i / 16)+(i-16*(i / 16))) := by
      apply scanBlock_of_getElem?
      · rw [getElem?_take,if_pos (by omega),getElem?_drop,Nat.add_sub_cancel' (by omega)]
        exact hget
      · intro t ht
        obtain ⟨m,hm,rfl⟩ := mem_iff_getElem.mp ht
        rw [length_take,length_take,length_drop] at hm
        rw [getElem_take,getElem_take,getElem_drop]
        exact lt_of_getElem? hsorted (getElem?_eq_getElem (by omega)) hget (by omega)
    rw [seekExact,blockFor_of_getElem? hsorted h hget]
    show (d.index[i / 16]? >>= _) = _
    rw [hentry]
    show scanBlock probe (16*(i / 16)) ((d.terms.drop (16*(i / 16))).take 16) = _
    rw [h.terms_eq,hscan,Nat.add_sub_cancel' (by omega)]

theorem below_mono : terms.Pairwise fun a b => decide (byteKey b < byteKey probe) = true →
    decide (byteKey a < byteKey probe) = true :=
  hsorted.imp fun hab hb => decide_eq_true (hab.trans (of_decide_eq_true hb))

theorem seekCeiling_eq (h : Of terms d) : d.seekCeiling probe =
    terms.findIdx? fun t => !decide (byteKey t < byteKey probe) := by
  rw [findIdx?_eq_guard_findIdx_lt,seekCeiling,h.terms_eq,
    slicePartitionPoint_eq_findIdx (below_mono hsorted),Option.guard]
  simp only [decide_eq_true_eq]

theorem prefixRange_eq (h : Of terms d) (hne : probe ≠ []) : ∃ start stop,
    d.prefixRange probe = .ok (start,stop) ∧
      ∀ i,start ≤ i ∧ i < stop ↔ ∃ t,terms[i]? = some t ∧ probe <+: t := by
  have hstarts : ∀ {i : ℕ} {t : Bytes},terms[i]? = some t →
      ((terms.findIdx fun t => !decide (byteKey t < byteKey probe)) ≤ i ↔
        ¬ byteKey t < byteKey probe) := by
    intro i t hget
    rw [← Nat.not_lt,lt_findIdx_not_iff (below_mono hsorted) hget,decide_eq_true_eq]
  rw [prefixRange,if_neg hne,seekCeiling,h.terms_eq,
    slicePartitionPoint_eq_findIdx (below_mono hsorted)]
  generalize hfirst : (terms.findIdx fun t => !decide (byteKey t < byteKey probe)) = first
  rw [hfirst] at hstarts
  by_cases hlt : first < terms.length
  · simp only [if_pos hlt]
    refine ⟨_,_,rfl,fun i => ?_⟩
    have hmono : (terms.drop first).Pairwise fun a b =>
        probe.isPrefixOf b = true → probe.isPrefixOf a = true := by
      refine pairwise_iff_getElem.mpr fun j k hj hk hjk hstart => ?_
      rw [length_drop] at hj hk
      rw [getElem_drop, isPrefixOf_iff_prefix] at hstart ⊢
      have hbelow:=lt_of_getElem? hsorted
        (getElem?_eq_getElem (show first+j < terms.length by omega))
        (getElem?_eq_getElem (show first+k < terms.length by omega)) (by omega)
      exact prefix_of_between hstart
        ((hstarts (getElem?_eq_getElem (by omega))).mp (Nat.le_add_right _ _)) hbelow.not_gt
    have hlength : ((terms.drop first).takeWhile fun t => probe.isPrefixOf t).length =
        (terms.drop first).findIdx fun t => !probe.isPrefixOf t := by
      rw [takeWhile_eq_take_findIdx_not,length_take,Nat.min_eq_left findIdx_le_length]
    have hinside : ∀ {t : Bytes},first ≤ i → terms[i]? = some t →
        ((i-first < (terms.drop first).findIdx fun t => !probe.isPrefixOf t) ↔
          probe <+: t) := by
      intro t hle hget
      have hdrop : (terms.drop first)[i-first]? = some t := by
        rw [getElem?_drop,Nat.add_sub_cancel' hle]
        exact hget
      rw [lt_findIdx_not_iff hmono hdrop, isPrefixOf_iff_prefix]
    rw [hlength]
    constructor
    · rintro ⟨hle,hstop⟩
      have hbound : ((terms.drop first).findIdx fun t => !probe.isPrefixOf t) ≤
          (terms.drop first).length := findIdx_le_length
      rw [length_drop] at hbound
      have hget : terms[i]? = some terms[i] := getElem?_eq_getElem (by omega)
      exact ⟨_,hget,(hinside hle hget).mp (by omega)⟩
    · rintro ⟨t,hget,hstart⟩
      have hle:=(hstarts hget).mpr (not_lt_of_starts hstart)
      have hstop:=(hinside hle hget).mpr hstart
      omega
  · simp only [if_neg hlt]
    refine ⟨_,_,rfl,fun i => ⟨fun hi => by omega,?_⟩⟩
    rintro ⟨t,hget,hstart⟩
    have hle:=(hstarts hget).mpr (not_lt_of_starts hstart)
    obtain ⟨hi,-⟩ := List.getElem?_eq_some_iff.mp hget
    omega

end Sorted

end TermDictionary

/-- Building never fails on sorted terms, and the four searches are those of the list. -/
theorem dictionary_searches (terms : List Bytes)
    (hsorted : terms.Pairwise fun a b => byteKey a < byteKey b)
    (hlength : ∀ t ∈ terms,t.length < 2^64) :
    ∃ d,terms.foldlM TermDictionary.push TermDictionary.empty = .ok d ∧
      d.decodeTerms = some terms ∧ ∀ probe,
        (∀ i,d.seekExact probe = some i ↔ terms[i]? = some probe) ∧
        d.seekCeiling probe = terms.findIdx? (fun t => !decide (byteKey t < byteKey probe)) ∧
        (probe = [] → d.prefixRange probe = .error .emptyTerm) ∧
        (probe ≠ [] → ∃ start stop,d.prefixRange probe = .ok (start,stop) ∧
          ∀ i,start ≤ i ∧ i < stop ↔ ∃ t,terms[i]? = some t ∧ probe <+: t) := by
  obtain ⟨d,hd,hof⟩ := TermDictionary.exists_of hsorted
  refine ⟨d,hd,?_,fun probe => ⟨fun i => TermDictionary.seekExact_eq_some hsorted hof,
    TermDictionary.seekCeiling_eq hsorted hof,?_,TermDictionary.prefixRange_eq hsorted hof⟩⟩
  · rw [TermDictionary.decodeTerms,hof.encoded]
    exact decodeFrom_encodeTerms hlength
  · intro hempty
    rw [TermDictionary.prefixRange,if_pos hempty]

/-- The terms `a`, `a\xff` and `b`, and the prefix `a`. -/
theorem dictionary_searches_three_terms : ∃ d,
    [[97#8],[97,255],[98]].foldlM TermDictionary.push TermDictionary.empty = .ok d ∧
      d.seekExact [98] = some 2 ∧ ∃ start stop,d.prefixRange [97] = .ok (start,stop) ∧
        start ≤ 1 ∧ 1 < stop := by
  obtain ⟨d,hd,-,hsearch⟩ := dictionary_searches [[97#8],[97,255],[98]] (by decide)
    (by simp)
  obtain ⟨start,stop,hrange,hinside⟩ := (hsearch [97]).2.2.2 (by decide)
  exact ⟨d,hd,((hsearch [98]).1 2).mpr rfl,start,stop,hrange,
    (hinside 1).mpr ⟨[97,255],rfl,[255],rfl⟩⟩

/-- Every term starts with the empty prefix, and that search is refused. -/
theorem empty_prefix_is_refused : ∃ d,
    [[97#8]].foldlM TermDictionary.push TermDictionary.empty = .ok d ∧
      ¬ ∃ start stop,d.prefixRange [] = .ok (start,stop) ∧ start ≤ 0 ∧ 0 < stop := by
  refine ⟨TermDictionary.empty.append [97],rfl,?_⟩
  rintro ⟨start,stop,hrange,-⟩
  cases hrange

end Zeppelin.Fts
