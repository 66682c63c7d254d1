import Mathlib.Data.List.Basic
import Mathlib.Tactic.NormNum
import Mathlib.Tactic.Ring

namespace Zeppelin
open List

abbrev U8 := BitVec 8
abbrev U16 := BitVec 16
abbrev U32 := BitVec 32
abbrev U64 := BitVec 64
abbrev U128 := BitVec 128
abbrev Bytes := List U8

/-- Little-endian base-256 digits of `v`, exactly `n` of them. -/
def leBytes : ℕ → ℕ → Bytes
  | 0,_ => []
  | n+1,v => BitVec.ofNat 8 v::leBytes n (v / 256)

def leNat : Bytes → ℕ
  | [] => 0
  | b::bs => b.toNat+256*leNat bs

@[simp] theorem leBytes_length (n v : ℕ) : (leBytes n v).length = n := by
  induction n generalizing v with
  | zero => rfl
  | succ n ih => simp only [leBytes,length_cons,ih]

theorem leNat_lt (bs : Bytes) : leNat bs < 256^bs.length := by
  induction bs with
  | nil => simp [leNat]
  | cons b bs ih =>
    have hb : b.toNat < 256 := b.isLt
    simp only [leNat,length_cons,pow_succ']
    omega

theorem leNat_leBytes (n v : ℕ) (h : v < 256^n) : leNat (leBytes n v) = v := by
  induction n generalizing v with
  | zero =>
    have hv : v = 0 := by simpa using h
    simp [leBytes,leNat,hv]
  | succ n ih =>
    have hq : v / 256 < 256^n := by
      rw [pow_succ'] at h
      exact Nat.div_lt_of_lt_mul h
    have hd : v % 256+256*(v / 256) = v := Nat.mod_add_div v 256
    simp only [leBytes,leNat,BitVec.toNat_ofNat,ih (v / 256) hq]
    exact hd

theorem leBytes_leNat (bs : Bytes) : leBytes bs.length (leNat bs) = bs := by
  induction bs with
  | nil => rfl
  | cons b bs ih =>
    have hb : b.toNat < 256 := b.isLt
    have hmod : BitVec.ofNat 8 (b.toNat+256*leNat bs) = b := by
      apply BitVec.eq_of_toNat_eq
      simp only [BitVec.toNat_ofNat]
      omega
    have hdiv : (b.toNat+256*leNat bs) / 256 = leNat bs := by omega
    simp only [length_cons,leNat,leBytes,hmod,hdiv,ih]

def toLe {w : ℕ} (n : ℕ) (v : BitVec w) : Bytes := leBytes n v.toNat

/-- The word of width `w` held by a little-endian byte list. -/
def ofLe (w : ℕ) (bs : Bytes) : BitVec w := BitVec.ofNat w (leNat bs)

variable {w start stop : ℕ} {bs : Bytes}

@[simp] theorem toLe_length (n : ℕ) (v : BitVec w) : (toLe n v).length = n :=
  leBytes_length n v.toNat

theorem pow_two_eq_pow_byte (n : ℕ) : 2^(8*n) = 256^n := by
  rw [pow_mul]
  norm_num

theorem ofLe_toLe (n : ℕ) (h : w = 8*n) (v : BitVec w) : ofLe w (toLe n v) = v := by
  have hv : v.toNat < 256^n := by
    rw [← pow_two_eq_pow_byte,← h]
    exact v.isLt
  simp only [ofLe,toLe,leNat_leBytes n v.toNat hv,BitVec.ofNat_toNat,BitVec.setWidth_eq]

theorem toLe_ofLe (n : ℕ) (h : w = 8*n) (bs : Bytes) (hl : bs.length = n) :
    toLe n (ofLe w bs) = bs := by
  have hb : leNat bs < 2^w := by
    rw [h,pow_two_eq_pow_byte,← hl]
    exact leNat_lt bs
  simp only [toLe,ofLe,BitVec.toNat_ofNat,Nat.mod_eq_of_lt hb]
  rw [← hl]
  exact leBytes_leNat bs

@[simp] theorem ofLe_toLe_16 (v : U16) : ofLe 16 (toLe 2 v) = v := ofLe_toLe 2 (by decide) v
@[simp] theorem ofLe_toLe_32 (v : U32) : ofLe 32 (toLe 4 v) = v := ofLe_toLe 4 (by decide) v
@[simp] theorem ofLe_toLe_64 (v : U64) : ofLe 64 (toLe 8 v) = v := ofLe_toLe 8 (by decide) v
@[simp] theorem ofLe_toLe_128 (v : U128) : ofLe 128 (toLe 16 v) = v :=
  ofLe_toLe 16 (by decide) v

theorem toLe_inj (n : ℕ) (h : w = 8*n) {u v : BitVec w} (e : toLe n u = toLe n v) : u = v := by
  have hu:=ofLe_toLe n h u
  rw [e,ofLe_toLe n h v] at hu
  exact hu.symm

def checkedAdd {w : ℕ} (a b : BitVec w) : Option (BitVec w) :=
  if a.toNat+b.toNat < 2^w then some (a+b) else none

def checkedSub {w : ℕ} (a b : BitVec w) : Option (BitVec w) :=
  if b.toNat ≤ a.toNat then some (a-b) else none

def maxWord {w : ℕ} (a b : BitVec w) : BitVec w := if a ≤ b then b else a

def minWord {w : ℕ} (a b : BitVec w) : BitVec w := if a ≤ b then a else b

@[simp] theorem maxWord_toNat (a b : BitVec w) : (maxWord a b).toNat = max a.toNat b.toNat := by
  unfold maxWord
  split
  · rename_i h
    exact (Nat.max_eq_right (BitVec.le_def.mp h)).symm
  · rename_i h
    rw [BitVec.le_def] at h
    exact (Nat.max_eq_left (by omega)).symm

variable {a b : BitVec w} {out : Bytes}

theorem checkedSub_of_le (h : b.toNat ≤ a.toNat) :
    ∃ c,checkedSub a b = some c ∧ c.toNat = a.toNat-b.toNat :=
  ⟨a-b,if_pos h,BitVec.toNat_sub_of_le (BitVec.le_def.mpr h)⟩

/-- `saturating_add`: the largest word on overflow. -/
def saturatingAdd {w : ℕ} (a b : BitVec w) : BitVec w :=
  if a.toNat+b.toNat < 2^w then a+b else BitVec.allOnes w

theorem checkedAdd_eq_some {c : BitVec w} (h : checkedAdd a b = some c) :
    c.toNat = a.toNat+b.toNat := by
  unfold checkedAdd at h
  split at h
  · rename_i hlt
    rw [← Option.some.inj h,BitVec.toNat_add,Nat.mod_eq_of_lt hlt]
  · cases h

theorem checkedAdd_of_lt (h : a.toNat+b.toNat < 2^w) : checkedAdd a b = some (a+b) := if_pos h

theorem saturatingAdd_toNat (a b : BitVec w) :
    (saturatingAdd a b).toNat = min (a.toNat+b.toNat) (2^w-1) := by
  unfold saturatingAdd
  split
  · rename_i hlt
    rw [BitVec.toNat_add,Nat.mod_eq_of_lt hlt]
    omega
  · rw [BitVec.toNat_allOnes]
    omega

/-- The bytes `start .. stop`, when that range lies inside the list. -/
def slice? (bs : Bytes) (start stop : ℕ) : Option Bytes :=
  if start ≤ stop ∧ stop ≤ bs.length then some ((bs.drop start).take (stop-start)) else none

theorem slice?_append {xs ys zs : Bytes} (hs : xs.length = start)
    (he : start+ys.length = stop) : slice? (xs++(ys++zs)) start stop = some ys := by
  subst hs he
  have hc : xs.length ≤ xs.length+ys.length ∧
      xs.length+ys.length ≤ (xs++(ys++zs)).length := by
    simp only [length_append]
    omega
  simp only [slice?,if_pos hc,drop_left,Nat.add_sub_cancel_left,take_left]

theorem slice?_some (h : slice? bs start stop = some out) :
    start ≤ stop ∧ stop ≤ bs.length ∧ out = (bs.drop start).take (stop-start) := by
  unfold slice? at h
  split at h
  · rename_i hc
    exact ⟨hc.1,hc.2,(Option.some.inj h).symm⟩
  · cases h

theorem slice?_length (h : slice? bs start stop = some out) : out.length = stop-start := by
  obtain ⟨h1,h2,rfl⟩ := slice?_some h
  simp only [length_take,length_drop]
  omega

theorem slice?_eq_some (h1 : start ≤ stop) (h2 : stop ≤ bs.length) :
    slice? bs start stop = some ((bs.drop start).take (stop-start)) := by
  simp only [slice?,if_pos (And.intro h1 h2)]

end Zeppelin
