import Mathlib.Tactic.Common

namespace Zeppelin.Machine

variable {ε σ α β : Type}

structure Stateful (ε σ α : Type) where
  run : σ → Except ε α × σ

instance : Monad (Stateful ε σ) where
  pure a := ⟨fun s => (.ok a,s)⟩
  bind x f := ⟨fun s =>
    match x.run s with
    | (.ok a,t) => (f a).run t
    | (.error e,t) => (.error e,t)⟩

namespace Stateful

def fail (e : ε) : Stateful ε σ α := ⟨fun s => (.error e,s)⟩

def require (p : Prop) [Decidable p] (e : ε) : Stateful ε σ Unit :=
  ⟨fun s => (if p then .ok () else .error e,s)⟩

def read (f : σ → α) : Stateful ε σ α := ⟨fun s => (.ok (f s),s)⟩

def update (f : σ → σ) : Stateful ε σ Unit := ⟨fun s => (.ok (),f s)⟩

def attempt (f : σ → Except ε σ) : Stateful ε σ Unit := ⟨fun s =>
  match f s with
  | .ok t => (.ok (),t)
  | .error e => (.error e,s)⟩

theorem run_bind {x : Stateful ε σ α} {f : α → Stateful ε σ β} {s t : σ} {a : α}
    (h : x.run s = (.ok a,t)) : (x >>= f).run s = (f a).run t := by
  show (match x.run s with
    | (.ok a,t) => (f a).run t
    | (.error e,t) => (.error e,t)) = _
  rw [h]

def each (f : β → Stateful ε σ Unit) : List β → Stateful ε σ Unit
  | [] => pure ()
  | item::items => do
    f item
    each f items

end Stateful

/-- The frame holds around the computation, and the postcondition where it succeeds. -/
structure Framed (frame : σ → σ → Prop) (x : Stateful ε σ α) (s : σ) (post : α → σ → Prop) :
    Prop where
  frame : frame s (x.run s).2
  post : ∀ a,(x.run s).1 = .ok a → post a (x.run s).2

/-- The frame holds where the computation fails, and the postcondition where it succeeds. -/
structure Undone (frame : σ → σ → Prop) (x : Stateful ε σ α) (s : σ) (post : α → σ → Prop) :
    Prop where
  frame : ∀ e,(x.run s).1 = .error e → frame s (x.run s).2
  post : ∀ a,(x.run s).1 = .ok a → post a (x.run s).2

structure Chained (frame : σ → σ → Prop) : Prop where
  refl : ∀ s,frame s s
  trans : ∀ s t u,frame s t → frame t u → frame s u

theorem Undone.imp {frame weaker : σ → σ → Prop} {x : Stateful ε σ α} {s : σ}
    {post post' : α → σ → Prop} (h : Undone frame x s post) (hframe : ∀ t,frame s t → weaker s t)
    (hpost : ∀ a t,post a t → post' a t) : Undone weaker x s post' where
  frame := fun e he => hframe _ (h.frame e he)
  post := fun a ha => hpost a _ (h.post a ha)

namespace Framed

variable {frame : σ → σ → Prop} {s : σ} {x : Stateful ε σ α} {post middle : α → σ → Prop}
  {f : α → Stateful ε σ β}

theorem imp {weaker : σ → σ → Prop} {post' : α → σ → Prop}
    (h : Framed frame x s post) (hframe : ∀ t,frame s t → weaker s t)
    (hpost : ∀ a t,frame s t → post a t → post' a t) : Framed weaker x s post' where
  frame := hframe _ h.frame
  post := fun a ha => hpost a _ h.frame (h.post a ha)

theorem done (hchain : Chained frame) {a : α} (h : post a s) :
    Framed frame (pure a : Stateful ε σ α) s post where
  frame := hchain.refl s
  post := by
    intro b hb
    obtain rfl := Except.ok.inj hb
    exact h

theorem bind (hchain : Chained frame) {post : β → σ → Prop} (hx : Framed frame x s middle)
    (hf : ∀ a t,frame s t → middle a t → Framed frame (f a) t post) :
    Framed frame (x >>= f) s post := by
  obtain ⟨hframe,hmiddle⟩ := hx
  have hbind : (x >>= f).run s = match x.run s with
      | (.ok a,t) => (f a).run t
      | (.error e,t) => (.error e,t) := rfl
  rcases hrun : x.run s with ⟨outcome,t⟩
  rw [hrun] at hframe hmiddle hbind
  cases outcome with
  | error e =>
    constructor
    · rw [hbind]
      exact hframe
    · intro b hb
      rw [hbind] at hb
      cases hb
  | ok a =>
    have hnext:=hf a t hframe (hmiddle a rfl)
    constructor
    · rw [hbind]
      exact hchain.trans _ _ _ hframe hnext.frame
    · rw [hbind]
      exact hnext.post

theorem bind_undone (hchain : Chained frame) {post : β → σ → Prop} (hx : Framed frame x s middle)
    (hf : ∀ a t,frame s t → middle a t → Undone frame (f a) t post) :
    Undone frame (x >>= f) s post := by
  obtain ⟨hframe,hmiddle⟩ := hx
  have hbind : (x >>= f).run s = match x.run s with
      | (.ok a,t) => (f a).run t
      | (.error e,t) => (.error e,t) := rfl
  rcases hrun : x.run s with ⟨outcome,t⟩
  rw [hrun] at hframe hmiddle hbind
  cases outcome with
  | error e =>
    constructor
    · intro _ _
      rw [hbind]
      exact hframe
    · intro b hb
      rw [hbind] at hb
      cases hb
  | ok a =>
    have hnext:=hf a t hframe (hmiddle a rfl)
    constructor
    · rw [hbind]
      intro e he
      exact hchain.trans _ _ _ hframe (hnext.frame e he)
    · rw [hbind]
      exact hnext.post

theorem require (hchain : Chained frame) (p : Prop) [Decidable p] (e : ε) :
    Framed frame (Stateful.require p e : Stateful ε σ Unit) s fun _ t => p ∧ t = s where
  frame := hchain.refl s
  post := by
    intro _ h
    unfold Stateful.require at h
    dsimp only at h
    split_ifs at h with hp
    exact ⟨hp,rfl⟩

theorem read (hchain : Chained frame) (f : σ → α) :
    Framed frame (Stateful.read f : Stateful ε σ α) s fun a t => a = f s ∧ t = s where
  frame := hchain.refl s
  post := by
    intro a h
    exact ⟨(Except.ok.inj h).symm,rfl⟩

theorem update (f : σ → σ) (h : frame s (f s)) :
    Framed frame (Stateful.update f : Stateful ε σ Unit) s fun _ t => t = f s where
  frame := h
  post := fun _ _ => rfl

theorem attempt (hchain : Chained frame) (f : σ → Except ε σ)
    (h : ∀ t,f s = .ok t → frame s t) :
    Framed frame (Stateful.attempt f) s fun _ t => f s = .ok t := by
  cases hf : f s with
  | error e =>
    have hrun : (Stateful.attempt f).run s = (.error e,s) := by
      simp only [Stateful.attempt,hf]
    constructor
    · rw [hrun]
      exact hchain.refl s
    · rw [hrun]
      nofun
  | ok t =>
    have hrun : (Stateful.attempt f).run s = (.ok (),t) := by
      simp only [Stateful.attempt,hf]
    constructor
    · rw [hrun]
      exact h t hf
    · rw [hrun]
      exact fun _ _ => rfl

theorem attempt_undone (hchain : Chained frame) (f : σ → Except ε σ) :
    Undone frame (Stateful.attempt f) s fun _ t => f s = .ok t := by
  cases hf : f s with
  | error e =>
    have hrun : (Stateful.attempt f).run s = (.error e,s) := by
      simp only [Stateful.attempt,hf]
    constructor
    · rw [hrun]
      exact fun _ _ => hchain.refl s
    · rw [hrun]
      nofun
  | ok t =>
    have hrun : (Stateful.attempt f).run s = (.ok (),t) := by
      simp only [Stateful.attempt,hf]
    constructor
    · rw [hrun]
      nofun
    · rw [hrun]
      exact fun _ _ => rfl

theorem each (hchain : Chained frame) {f : β → Stateful ε σ Unit}
    (inv : List β → σ → Prop) (hf : ∀ item rest t,inv (item::rest) t →
      Framed frame (f item) t fun _ u => inv rest u) :
    ∀ items s,inv items s → Framed frame (Stateful.each f items) s fun _ t => inv [] t := by
  intro items
  induction items with
  | nil =>
    intro s hinv
    exact done hchain hinv
  | cons item items ih =>
    intro s hinv
    apply (hf item items s hinv).bind hchain
    intro _ t _ hnext
    exact ih t hnext

end Framed

end Zeppelin.Machine
