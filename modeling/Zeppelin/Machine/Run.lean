import Mathlib.Tactic.Common

namespace Zeppelin.Machine

section Flow
variable {σ : Type}

inductive Flow (σ : Type) where
  | next (state : σ)
  | stop (state : σ)

def loop (body : σ → Flow σ) : ℕ → σ → Option σ
  | 0,_ => none
  | fuel+1,s =>
    match body s with
    | .next t => loop body fuel t
    | .stop t => some t

theorem loop_spec {body : σ → Flow σ} (Inv Post : σ → Prop) (measure : σ → ℕ)
    (next : ∀ s t,Inv s → body s = .next t → Inv t ∧ measure t < measure s)
    (stop : ∀ s t,Inv s → body s = .stop t → Post t) {fuel : ℕ} {s : σ} (init : Inv s)
    (enough : measure s < fuel) : ∃ t,loop body fuel s = some t ∧ Post t := by
  induction fuel generalizing s with
  | zero => omega
  | succ fuel ih =>
    cases hbody : body s with
    | next t =>
      obtain ⟨hinv,hless⟩ := next s t init hbody
      obtain ⟨u,hu,hpost⟩ := ih hinv (by omega)
      exact ⟨u,by simp only [loop,hbody,hu],hpost⟩
    | stop t => exact ⟨t,by simp only [loop,hbody],stop s t init hbody⟩

variable {ε : Type}

/-- The loop ends with the first error of its body, and with the given one without fuel. -/
def tryLoop (exhausted : ε) (body : σ → Except ε (Flow σ)) : ℕ → σ → Except ε σ
  | 0,_ => .error exhausted
  | fuel+1,s =>
    match body s with
    | .error e => .error e
    | .ok (.next t) => tryLoop exhausted body fuel t
    | .ok (.stop t) => .ok t

theorem tryLoop_spec {exhausted : ε} {body : σ → Except ε (Flow σ)} (Inv Post : σ → Prop)
    (measure : σ → ℕ)
    (step : ∀ s,Inv s → (∃ t,body s = .ok (.next t) ∧ Inv t ∧ measure t < measure s) ∨
      ∃ t,body s = .ok (.stop t) ∧ Post t) {fuel : ℕ} {s : σ} (init : Inv s)
    (enough : measure s < fuel) : ∃ t,tryLoop exhausted body fuel s = .ok t ∧ Post t := by
  induction fuel generalizing s with
  | zero => omega
  | succ fuel ih =>
    rw [tryLoop]
    rcases step s init with ⟨t,hbody,hinv,hless⟩ | ⟨t,hbody,hpost⟩
    · rw [hbody]
      exact ih hinv (by omega)
    · rw [hbody]
      exact ⟨t,rfl,hpost⟩

end Flow

/-! An event that is not enabled gives `none`. -/

variable {σ ε : Type}

inductive Run (step : σ → ε → Option σ) (allowed : σ → ε → Prop) : σ → List ε → σ → Prop where
  | refl (s : σ) : Run step allowed s [] s
  | snoc {s t u : σ} {es : List ε} {e : ε} (run : Run step allowed s es t) (ok : allowed t e)
      (next : step t e = some u) : Run step allowed s (es++[e]) u

def anyEvent (_ : σ) (_ : ε) : Prop := True

instance (s : σ) (e : ε) : Decidable (anyEvent s e) := .isTrue trivial

variable {step : σ → ε → Option σ} {allowed : σ → ε → Prop} {s t : σ} {es : List ε}

theorem Run.invariant (Inv : σ → Prop) (run : Run step allowed s es t) (init : Inv s)
    (keep : ∀ s e t,Inv s → allowed s e → step s e = some t → Inv t) : Inv t := by
  induction run with
  | refl => exact init
  | snoc _ ok next ih => exact keep _ _ _ ih ok next

theorem Run.imp {allowed' : σ → ε → Prop} (run : Run step allowed s es t)
    (h : ∀ s,∀ e ∈ es,allowed s e → allowed' s e) : Run step allowed' s es t := by
  induction run with
  | refl => exact Run.refl s
  | snoc _ ok next ih =>
    exact Run.snoc (ih fun s e he => h s e (List.mem_append_left _ he)) (h _ _ (by simp) ok) next

theorem Run.cons {u : σ} {e : ε}
    (ok : allowed s e) (next : step s e = some t) (run : Run step allowed t es u) :
    Run step allowed s (e::es) u := by
  induction run with
  | refl => exact Run.snoc (Run.refl s) ok next
  | snoc _ ok' next' ih => exact Run.snoc ih ok' next'

/-- Takes the events one after another; `none` at the first one that is not
allowed or not enabled. -/
def execute (step : σ → ε → Option σ) (allowed : σ → ε → Prop) [∀ s e,Decidable (allowed s e)] :
    σ → List ε → Option σ
  | s,[] => some s
  | s,e::es => if allowed s e then (step s e).bind fun t => execute step allowed t es else none

theorem Run.of_execute [∀ s e,Decidable (allowed s e)]
    (h : execute step allowed s es = some t) : Run step allowed s es t := by
  induction es generalizing s with
  | nil =>
    obtain rfl := Option.some.inj h
    exact Run.refl s
  | cons e es ih =>
    simp only [execute] at h
    by_cases hok : allowed s e
    · rw [if_pos hok] at h
      obtain ⟨u,hu,hrest⟩ := Option.bind_eq_some_iff.mp h
      exact Run.cons hok hu (ih hrest)
    · rw [if_neg hok] at h
      cases h

end Zeppelin.Machine
