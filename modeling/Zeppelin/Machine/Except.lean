import Mathlib.Tactic.Common

namespace Zeppelin
open List

variable {ε α β : Type} {c : Prop}

@[simp] theorem ok_bind (a : α) (f : α → Except ε β) : (Except.ok a >>= f) = f a := rfl

@[simp] theorem error_bind (e : ε) (f : α → Except ε β) :
    ((Except.error e : Except ε α) >>= f) = .error e := rfl

@[simp] theorem ok_map (a : α) (f : α → β) : (f <$> (Except.ok a : Except ε α)) = .ok (f a) := rfl

variable {x : Except ε α} {f : α → Except ε β} {b : β} {a : α} {e : ε} {xs : List α}

theorem bind_eq_ok (h : (x >>= f) = .ok b) : ∃ a,x = .ok a ∧ f a = .ok b := by
  cases x with
  | error e => cases h
  | ok a => exact ⟨a,rfl,h⟩

theorem bind_pure_eq_ok {f : α → β} (h : (x >>= fun a => pure (f a)) = .ok b) :
    ∃ a,x = .ok a ∧ f a = b := by
  obtain ⟨a,ha,h⟩ := bind_eq_ok h
  exact ⟨a,ha,Except.ok.inj h⟩

theorem map_eq_ok {f : α → β} (h : f <$> x = .ok b) : ∃ a,x = .ok a ∧ f a = b := by
  cases x with
  | error e => cases h
  | ok a => exact ⟨a,rfl,Except.ok.inj h⟩

theorem mapError_eq_ok {ε' : Type} {f : ε → ε'} (h : x.mapError f = .ok a) : x = .ok a := by
  cases x with
  | error e => cases h
  | ok b =>
    obtain rfl := Except.ok.inj h
    rfl

theorem toOption_eq_some (h : x.toOption = some a) : x = .ok a := by
  cases x with
  | error e => cases h
  | ok b => exact congrArg Except.ok (Option.some.inj h)

theorem ite_eq_ok [Decidable c] {b : α}
    (h : (if c then .ok a else x) = .ok b) : c ∧ a = b ∨ x = .ok b := by
  split at h
  · exact .inl ⟨‹c›,Except.ok.inj h⟩
  · exact .inr h

theorem of_ite_error [Decidable c] (h : (if c then .error e else x) = .ok a) : ¬ c ∧ x = .ok a := by
  split at h
  · cases h
  · exact ⟨‹¬ c›,h⟩

theorem of_ite_ne_error [Decidable c] (h : (if ¬ c then .error e else x) = .ok a) : c ∧ x = .ok a :=
  (of_ite_error h).imp_left not_not.mp

def failIf {ε : Type} (c : Prop) [Decidable c] (e : ε) : Except ε Unit :=
  if c then .error e else .ok ()

@[simp] theorem failIf_eq_ok [Decidable c] {u : Unit} : failIf c e = .ok u ↔ ¬ c := by
  unfold failIf
  split_ifs with h
  · simp [h]
  · simp [h]

theorem failIf_neg [Decidable c] (e : ε) (h : ¬ c) : failIf c e = .ok () := if_neg h

theorem exists_ok {p : α → Bool} (h : x.toOption.any p = true) : ∃ a,x = .ok a ∧ p a = true := by
  cases x with
  | error e => cases h
  | ok a => exact ⟨a,rfl,h⟩

theorem mapM_range'_ok {f : ℕ → Except ε α} {start : ℕ}
    (h : ∀ i (hi : i < xs.length),f (start+i) = .ok xs[i]) :
    (List.range' start xs.length).mapM f = .ok xs := by
  induction xs generalizing start with
  | nil => rfl
  | cons x xs ih =>
    have hrest : (List.range' (start+1) xs.length).mapM f = .ok xs := by
      refine ih fun i hi => ?_
      have hnext:=h (i+1) (Nat.succ_lt_succ hi)
      rwa [show start+(i+1) = start+1+i by omega] at hnext
    have hfirst : f start = .ok x := h 0 (Nat.zero_lt_succ _)
    rw [length_cons,range'_succ,mapM_cons,hfirst,ok_bind,hrest]
    rfl

theorem mapM_range_ok {f : ℕ → Except ε α}
    (h : ∀ i (hi : i < xs.length),f i = .ok xs[i]) : (List.range xs.length).mapM f = .ok xs := by
  rw [range_eq_range']
  refine mapM_range'_ok fun i hi => ?_
  rw [Nat.zero_add]
  exact h i hi

theorem foldlM_append_ok {f : β → α → Except ε β} {ys : List α} {c : β}
    (h : xs.foldlM f b = .ok c) : (xs++ys).foldlM f b = ys.foldlM f c := by
  rw [foldlM_append,h,ok_bind]

theorem forM_eq_ok {f : α → Except ε Unit} : xs.forM f = .ok () ↔ ∀ x ∈ xs,f x = .ok () := by
  induction xs with
  | nil => exact iff_of_true rfl nofun
  | cons x xs ih =>
    have hcons : (x::xs).forM f = f x >>= fun _ => xs.forM f := rfl
    rw [hcons,forall_mem_cons,← ih]
    constructor
    · intro h
      obtain ⟨u,hx,hxs⟩ := bind_eq_ok h
      exact ⟨hx,hxs⟩
    · intro ⟨hx,hxs⟩
      rw [hx,ok_bind,hxs]

theorem mapM_ok (h : ∀ x ∈ xs,∃ y,f x = .ok y) : ∃ ys,xs.mapM f = .ok ys := by
  induction xs with
  | nil => exact ⟨[],rfl⟩
  | cons x xs ih =>
    obtain ⟨y,hy⟩ := h x mem_cons_self
    obtain ⟨ys,hys⟩ := ih fun other hother => h other (mem_cons_of_mem _ hother)
    exact ⟨y::ys,by rw [mapM_cons,hy,ok_bind,hys]; rfl⟩

theorem mapM_mem : ∀ {ys : List β},xs.mapM f = .ok ys →
      (∀ x ∈ xs,∃ y ∈ ys,f x = .ok y) ∧ ∀ y ∈ ys,∃ x ∈ xs,f x = .ok y := by
  induction xs with
  | nil =>
    intro ys h
    obtain rfl := Except.ok.inj h
    exact ⟨nofun,nofun⟩
  | cons x xs ih =>
    intro ys h
    rw [mapM_cons] at h
    obtain ⟨y,hy,h⟩ := bind_eq_ok h
    obtain ⟨rest,hrest,h⟩ := bind_eq_ok h
    obtain rfl := Except.ok.inj h
    obtain ⟨hforward,hback⟩ := ih hrest
    rw [forall_mem_cons,forall_mem_cons]
    refine ⟨⟨⟨y,mem_cons_self,hy⟩,?_⟩,⟨x,mem_cons_self,hy⟩,?_⟩
    · intro other hother
      obtain ⟨z,hz,hf⟩ := hforward other hother
      exact ⟨z,mem_cons_of_mem _ hz,hf⟩
    · intro z hz
      obtain ⟨other,hother,hf⟩ := hback z hz
      exact ⟨other,mem_cons_of_mem _ hother,hf⟩

theorem mapM_forall₂ {ys : List β}
    (h : xs.mapM f = .ok ys) : List.Forall₂ (fun x y => f x = .ok y) xs ys := by
  induction xs generalizing ys with
  | nil =>
    obtain rfl := Except.ok.inj h
    exact .nil
  | cons x xs ih =>
    rw [mapM_cons] at h
    obtain ⟨y,hy,h⟩ := bind_eq_ok h
    obtain ⟨rest,hrest,h⟩ := bind_eq_ok h
    obtain rfl := Except.ok.inj h
    exact .cons hy (ih hrest)

theorem findSomeM?_ok {f : α → Except ε (Option β)}
    (h : ∀ x ∈ xs,∃ found,f x = .ok found) : ∃ found,xs.findSomeM? f = .ok found ∧
      (∀ b,found = some b → ∃ x ∈ xs,f x = .ok (some b)) ∧
      (found = none → ∀ x ∈ xs,f x = .ok none) := by
  induction xs with
  | nil => exact ⟨none,rfl,nofun,fun _ => nofun⟩
  | cons x xs ih =>
    obtain ⟨first,hfirst⟩ := h x mem_cons_self
    rw [findSomeM?_cons,hfirst,ok_bind]
    cases first with
    | some b =>
      refine ⟨some b,rfl,?_,nofun⟩
      intro c hc
      obtain rfl := Option.some.inj hc
      exact ⟨x,mem_cons_self,hfirst⟩
    | none =>
      obtain ⟨found,hfound,hsome,hnone⟩ := ih fun y hy => h y (mem_cons_of_mem _ hy)
      refine ⟨found,hfound,?_,?_⟩
      · intro b hb
        obtain ⟨y,hy,hprobe⟩ := hsome b hb
        exact ⟨y,mem_cons_of_mem _ hy,hprobe⟩
      · intro hall
        exact forall_mem_cons.mpr ⟨hfirst,hnone hall⟩

end Zeppelin
