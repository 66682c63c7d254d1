import Zeppelin.Bytes.Text
import Zeppelin.Machine.Except

namespace Zeppelin
open List

abbrev Reader (ε α : Type) := StateT Bytes (Except ε) α

namespace Reader
variable {ε α β γ : Type}

def take (e : ε) (n : ℕ) : Reader ε Bytes := fun bytes =>
  if n ≤ bytes.length then .ok (bytes.take n,bytes.drop n) else .error e

def word (e : ε) (w n : ℕ) : Reader ε (BitVec w) := do
  let field ← take e n
  return ofLe w field

def ensure (c : Bool) (e : ε) : Reader ε Unit := fun bytes =>
  if c then .ok ((),bytes) else .error e

def lift (x : Except ε α) : Reader ε α := fun bytes => x.map fun a => (a,bytes)

def repeated (read : Reader ε α) : ℕ → Reader ε (List α)
  | 0 => pure []
  | n+1 => do
    let x ← read
    let xs ← repeated read n
    return x::xs

def each {ι : Type} (read : ι → Reader ε α) : List ι → Reader ε (List α)
  | [] => pure []
  | i::is => do
    let x ← read i
    let xs ← each read is
    return x::xs

def Reads (read : Reader ε α) (bytes : Bytes) (v : α) : Prop :=
  ∀ rest,read (bytes++rest) = .ok (v,rest)

section Forward
variable {m : Reader ε α} {f : α → Reader ε β} {xs ys : Bytes} {a : α} {b : β}

theorem Reads.bind (h : Reads m xs a) (hf : Reads (f a) ys b) : Reads (m >>= f) (xs++ys) b := by
  intro rest
  show (m (xs++ys++rest) >>= fun p => f p.1 p.2) = _
  rw [append_assoc,h,ok_bind]
  exact hf rest

theorem Reads.pure (v : α) : Reads (Pure.pure v : Reader ε α) [] v := fun _ => rfl

theorem Reads.last {g : α → β} (h : Reads m xs a) (hg : g a = b) :
    Reads (m >>= fun a => Pure.pure (g a)) xs b := by
  intro rest
  show (m (xs++rest) >>= fun p => Except.ok (g p.1,p.2)) = _
  rw [h,ok_bind,hg]

theorem Reads.silent (h : Reads m [] a) (hf : Reads (f a) ys b) : Reads (m >>= f) ys b := by
  have hboth:=h.bind hf
  rwa [nil_append] at hboth

theorem Reads.quiet (h : Reads m xs a) (hf : Reads (f a) [] b) : Reads (m >>= f) xs b := by
  have hboth:=h.bind hf
  rwa [append_nil] at hboth

theorem Reads.ensure {c : Bool} (e : ε) (h : c = true) : Reads (Reader.ensure c e) [] () := by
  intro rest
  rw [Reader.ensure,if_pos h]
  rfl

theorem Reads.lift {x : Except ε α} (h : x = .ok a) : Reads (Reader.lift x) [] a := by
  subst h
  intro rest
  rfl

theorem Reads.take (e : ε) {n : ℕ} (h : xs.length = n) : Reads (Reader.take e n) xs xs := by
  subst h
  intro rest
  rw [Reader.take,if_pos (by simp),take_left,drop_left]

theorem Reads.word (e : ε) {w : ℕ} (n : ℕ) (hw : w = 8*n) (v : BitVec w) :
    Reads (Reader.word e w n) (toLe n v) v :=
  (Reads.take e (toLe_length n v)).last (ofLe_toLe n hw v)

theorem Reads.step (h : Reads m xs a) : (m >>= f) (xs++ys) = f a ys := by
  show (m (xs++ys) >>= fun p => f p.1 p.2) = _
  rw [h,ok_bind]

theorem ensure_step {c : Bool} {e : ε} {f : Unit → Reader ε β} (h : c = true) :
    (Reader.ensure c e >>= f) ys = f () ys := (Reads.ensure e h).step

theorem lift_step {x : Except ε α} (h : x = .ok a) : (Reader.lift x >>= f) ys = f a ys :=
  (Reads.lift h).step

theorem get_step {f : Bytes → Reader ε β} : ((get : Reader ε Bytes) >>= f) ys = f ys ys := rfl

end Forward

section Backward
variable {m : Reader ε α} {f : α → Reader ε β} {bytes rest : Bytes} {a : α} {b : β} {e : ε}

theorem bind_ok (h : (m >>= f) bytes = .ok (b,rest)) :
    ∃ a mid,m bytes = .ok (a,mid) ∧ f a mid = .ok (b,rest) := by
  obtain ⟨⟨a,mid⟩,ha,hb⟩ := bind_eq_ok h
  exact ⟨a,mid,ha,hb⟩

theorem pure_ok {v : α} (h : (pure v : Reader ε α) bytes = .ok (a,rest)) :
    v = a ∧ bytes = rest := by
  have hpair:=Except.ok.inj h
  exact ⟨congrArg Prod.fst hpair,congrArg Prod.snd hpair⟩

theorem take_ok {n : ℕ} {v : Bytes} (h : take e n bytes = .ok (v,rest)) :
    bytes = v++rest ∧ v.length = n := by
  unfold take at h
  split at h
  · rename_i hle
    have hpair:=Except.ok.inj h
    have hv : bytes.take n = v := congrArg Prod.fst hpair
    have hrest : bytes.drop n = rest := congrArg Prod.snd hpair
    rw [← hv,← hrest]
    exact ⟨(take_append_drop n bytes).symm,length_take_of_le hle⟩
  · cases h

theorem word_ok {w n : ℕ} {v : BitVec w} (hw : w = 8*n) (h : word e w n bytes = .ok (v,rest)) :
    bytes = toLe n v++rest := by
  obtain ⟨field,mid,hfield,h⟩ := bind_ok h
  obtain ⟨rfl,rfl⟩ := pure_ok h
  obtain ⟨rfl,hlength⟩ := take_ok hfield
  rw [toLe_ofLe n hw field hlength]

theorem ensure_ok {c : Bool} {u : Unit} (h : ensure c e bytes = .ok (u,rest)) :
    c = true ∧ bytes = rest := by
  unfold ensure at h
  split at h
  · exact ⟨‹c = true›,congrArg Prod.snd (Except.ok.inj h)⟩
  · cases h

theorem lift_ok {x : Except ε α} (h : lift x bytes = .ok (a,rest)) : x = .ok a ∧ bytes = rest := by
  cases x with
  | error e => cases h
  | ok v =>
    have hpair:=Except.ok.inj h
    exact ⟨congrArg Except.ok (congrArg Prod.fst hpair),congrArg Prod.snd hpair⟩

end Backward

section Rows
variable {put : α → Except ε Bytes} {read : Reader ε β}

def putMany (put : α → Except ε Bytes) : List α → Except ε Bytes
  | [] => .ok []
  | x::xs => do
    let bytes ← put x
    let rest ← putMany put xs
    return bytes++rest

theorem Reads.each {read : α → Reader ε β} {g : α → β} {xs : List α} {bytes : Bytes}
    (h : putMany put xs = .ok bytes)
    (hread : ∀ x ∈ xs,∀ row,put x = .ok row → Reads (read x) row (g x)) :
    Reads (Reader.each read xs) bytes (xs.map g) := by
  induction xs generalizing bytes with
  | nil =>
    obtain rfl := Except.ok.inj h
    exact Reads.pure []
  | cons x xs ih =>
    obtain ⟨row,hrow,h⟩ := bind_eq_ok h
    obtain ⟨rows,hrows,rfl⟩ := bind_pure_eq_ok h
    have hrest:=ih hrows fun x hx => hread x (mem_cons_of_mem _ hx)
    exact (hread x mem_cons_self row hrow).bind (hrest.last rfl)

theorem repeated_eq_each (read : Reader ε β) (xs : List α) :
    Reader.repeated read xs.length = Reader.each (fun _ => read) xs := by
  induction xs with
  | nil => rfl
  | cons x xs ih => rw [length_cons,Reader.repeated,Reader.each,ih]

theorem Reads.repeated {g : α → β} {xs : List α} {bytes : Bytes} (h : putMany put xs = .ok bytes)
    (hread : ∀ x ∈ xs,∀ row,put x = .ok row → Reads read row (g x)) :
    Reads (Reader.repeated read xs.length) bytes (xs.map g) := by
  rw [repeated_eq_each]
  exact .each h hread

theorem Reads.each_exists {read : α → Reader ε β} {R : α → β → Prop} {xs : List α} {bytes : Bytes}
    (h : putMany put xs = .ok bytes)
    (hread : ∀ x ∈ xs,∀ row,put x = .ok row → ∃ y,R x y ∧ Reads (read x) row y) :
    ∃ ys,List.Forall₂ R xs ys ∧ Reads (Reader.each read xs) bytes ys := by
  induction xs generalizing bytes with
  | nil =>
    obtain rfl := Except.ok.inj h
    exact ⟨[],.nil,Reads.pure []⟩
  | cons x xs ih =>
    obtain ⟨row,hrow,h⟩ := bind_eq_ok h
    obtain ⟨rows,hrows,rfl⟩ := bind_pure_eq_ok h
    obtain ⟨y,hy,hfirst⟩ := hread x mem_cons_self row hrow
    obtain ⟨ys,hys,hrest⟩ := ih hrows fun x hx => hread x (mem_cons_of_mem _ hx)
    exact ⟨y::ys,.cons hy hys,hfirst.bind (hrest.last rfl)⟩

theorem repeated_ok {put : β → Except ε Bytes}
    (hread : ∀ input x rest,read input = .ok (x,rest) →
      ∃ row,put x = .ok row ∧ input = row++rest)
    {n : ℕ} {input rest : Bytes} {xs : List β} (h : repeated read n input = .ok (xs,rest)) :
    xs.length = n ∧ ∃ bytes,putMany put xs = .ok bytes ∧ input = bytes++rest := by
  induction n generalizing input xs with
  | zero =>
    obtain ⟨rfl,rfl⟩ := pure_ok h
    exact ⟨rfl,[],rfl,rfl⟩
  | succ n ih =>
    obtain ⟨x,mid,hx,h⟩ := bind_ok h
    obtain ⟨others,mid',hothers,h⟩ := bind_ok h
    obtain ⟨rfl,rfl⟩ := pure_ok h
    obtain ⟨row,hrow,rfl⟩ := hread _ _ _ hx
    obtain ⟨hlength,rows,hrows,rfl⟩ := ih hothers
    refine ⟨congrArg (· + 1) hlength,row++rows,?_,(append_assoc ..).symm⟩
    rw [putMany,hrow,ok_bind,hrows,ok_bind]
    rfl

theorem repeated_all {P : β → Prop} (hread : ∀ input x rest,read input = .ok (x,rest) → P x)
    {n : ℕ} {input rest : Bytes} {xs : List β} (h : repeated read n input = .ok (xs,rest)) :
    ∀ x ∈ xs,P x := by
  induction n generalizing input rest xs with
  | zero =>
    obtain ⟨rfl,-⟩ := pure_ok h
    exact fun x hx => absurd hx not_mem_nil
  | succ n ih =>
    obtain ⟨x,mid,hx,h⟩ := bind_ok h
    obtain ⟨others,mid',hothers,h⟩ := bind_ok h
    obtain ⟨rfl,-⟩ := pure_ok h
    exact forall_mem_cons.mpr ⟨hread _ _ _ hx,ih hothers⟩

theorem putMany_map {g : γ → α} (xs : List γ) :
    putMany put (xs.map g) = putMany (fun x => put (g x)) xs := by
  induction xs with
  | nil => rfl
  | cons x xs ih => rw [map_cons,putMany,putMany,ih]

theorem putMany_length {width : ℕ} {xs : List α}
    (h : ∀ x bytes,put x = .ok bytes → bytes.length = width) {bytes : Bytes}
    (hbytes : putMany put xs = .ok bytes) : bytes.length = xs.length*width := by
  induction xs generalizing bytes with
  | nil =>
    obtain rfl := Except.ok.inj hbytes
    simp
  | cons x xs ih =>
    obtain ⟨first,hfirst,hbytes⟩ := bind_eq_ok hbytes
    obtain ⟨others,hothers,rfl⟩ := bind_pure_eq_ok hbytes
    rw [length_append,h x first hfirst,ih hothers,length_cons]
    ring

theorem le_putMany_length {least : ℕ} {xs : List α}
    (h : ∀ x bytes,put x = .ok bytes → least ≤ bytes.length) {bytes : Bytes}
    (hbytes : putMany put xs = .ok bytes) : least*xs.length ≤ bytes.length := by
  induction xs generalizing bytes with
  | nil => simp
  | cons x xs ih =>
    obtain ⟨first,hfirst,hbytes⟩ := bind_eq_ok hbytes
    obtain ⟨others,hothers,rfl⟩ := bind_pure_eq_ok hbytes
    have hone:=h x first hfirst
    have hrest:=ih hothers
    rw [length_append,length_cons,Nat.mul_add,Nat.mul_one]
    omega

theorem exists_putMany {xs : List α} (h : ∀ x ∈ xs,∃ bytes,put x = .ok bytes) :
    ∃ bytes,putMany put xs = .ok bytes := by
  induction xs with
  | nil => exact ⟨[],rfl⟩
  | cons x xs ih =>
    obtain ⟨first,hfirst⟩ := h x mem_cons_self
    obtain ⟨others,hothers⟩ := ih fun x hx => h x (mem_cons_of_mem _ hx)
    exact ⟨first++others,by rw [putMany,hfirst,ok_bind,hothers]; rfl⟩

theorem put_of_putMany {xs : List α} {bytes : Bytes} (h : putMany put xs = .ok bytes) :
    ∀ x ∈ xs,∃ row,put x = .ok row := by
  induction xs generalizing bytes with
  | nil => simp
  | cons x xs ih =>
    obtain ⟨first,hfirst,h⟩ := bind_eq_ok h
    obtain ⟨others,hothers,-⟩ := bind_eq_ok h
    exact forall_mem_cons.mpr ⟨⟨first,hfirst⟩,ih hothers⟩

end Rows

end Reader

end Zeppelin
