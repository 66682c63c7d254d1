import Mathlib.Tactic.Common

namespace Zeppelin.Machine
open List

variable {σ ω ε : Type}

inductive Turn (σ ω : Type) where
  | next (state : σ)
  | emit (out : ω) (state : σ)
  | done

def Turn.offer (state : σ) : Option ω → Turn σ ω
  | some out => .emit out state
  | none => .next state

def pull (round : σ → Except ε (Turn σ ω)) : ℕ → σ → Option (Except ε (Turn σ ω))
  | 0,_ => none
  | fuel+1,s =>
    match round s with
    | .ok (.next t) => pull round fuel t
    | result => some result

def drain (round : σ → Except ε (Turn σ ω)) (fuel : ℕ) : ℕ → σ → Option (List ω × Option ε)
  | 0,_ => none
  | pulls+1,s =>
    match pull round fuel s with
    | some (.ok (.emit out t)) =>
      (drain round fuel pulls t).map fun rest => (out::rest.1,rest.2)
    | some (.ok .done) => some ([],none)
    | some (.error e) => some ([],some e)
    | some (.ok (.next _)) | none => none

def Drains (round : σ → Except ε (Turn σ ω)) (s : σ) (outs : List ω) (failed : Option ε) : Prop :=
  ∃ bound,∀ fuel,bound ≤ fuel → ∀ pulls,outs.length < pulls →
    drain round fuel pulls s = some (outs,failed)

def failedWith : Except ε σ → Option ε
  | .ok _ => none
  | .error e => some e

inductive Leads (round : σ → Except ε (Turn σ ω)) : σ → List ω → Except ε σ → Prop where
  | refl (s : σ) : Leads round s [] (.ok s)
  | next {s t : σ} {outs : List ω} {result : Except ε σ} (step : round s = .ok (.next t))
      (rest : Leads round t outs result) : Leads round s outs result
  | emit {s t : σ} {out : ω} {outs : List ω} {result : Except ε σ}
      (step : round s = .ok (.emit out t)) (rest : Leads round t outs result) :
      Leads round s (out::outs) result
  | fail {s : σ} {e : ε} (step : round s = .error e) : Leads round s [] (.error e)

theorem Leads.trans {round : σ → Except ε (Turn σ ω)} {s t : σ} {outs more : List ω}
    {result : Except ε σ} (first : Leads round s outs (.ok t)) (rest : Leads round t more result) :
    Leads round s (outs++more) result := by
  generalize hmiddle : Except.ok t = middle at first
  induction first with
  | refl =>
    obtain rfl := Except.ok.inj hmiddle
    exact rest
  | next step _ ih => exact next step (ih hmiddle)
  | emit step _ ih => exact emit step (ih hmiddle)
  | fail => cases hmiddle

theorem drain_congr {round : σ → Except ε (Turn σ ω)} {fuel : ℕ} {s t : σ}
    (h : pull round fuel s = pull round fuel t) (pulls : ℕ) :
    drain round fuel pulls s = drain round fuel pulls t := by
  cases pulls with
  | zero => rfl
  | succ pulls => rw [drain,drain,h]

theorem pull_add {round : σ → Except ε (Turn σ ω)} {fuel : ℕ} {s : σ}
    {result : Except ε (Turn σ ω)} (h : pull round fuel s = some result) (more : ℕ) :
    pull round (fuel+more) s = some result := by
  induction fuel generalizing s with
  | zero => cases h
  | succ fuel ih =>
    rw [Nat.add_right_comm,pull]
    rw [pull] at h
    cases hround : round s with
    | error e =>
      rw [hround] at h
      exact h
    | ok turn =>
      rw [hround] at h
      cases turn with
      | next t => exact ih h
      | emit out t => exact h
      | done => exact h

theorem Leads.drain {round : σ → Except ε (Turn σ ω)} {s : σ} {outs : List ω}
    {result : Except ε σ} (h : Leads round s outs result)
    (ends : ∀ t,result = .ok t → round t = .ok .done) :
    ∃ bound,∀ fuel,bound ≤ fuel → ∀ pulls,outs.length < pulls →
      Machine.drain round fuel pulls s = some (outs,failedWith result) := by
  induction h with
  | refl s =>
    refine ⟨1,?_⟩
    intro fuel hfuel pulls hpulls
    obtain ⟨fuel,rfl⟩ := Nat.exists_eq_add_of_le' hfuel
    obtain ⟨pulls,rfl⟩ := Nat.exists_eq_add_of_lt hpulls
    simp only [Machine.drain,pull,ends s rfl,failedWith]
  | fail step =>
    refine ⟨1,?_⟩
    intro fuel hfuel pulls hpulls
    obtain ⟨fuel,rfl⟩ := Nat.exists_eq_add_of_le' hfuel
    obtain ⟨pulls,rfl⟩ := Nat.exists_eq_add_of_lt hpulls
    simp only [Machine.drain,pull,step,failedWith]
  | @next s t outs result step rest ih =>
    obtain ⟨bound,hbound⟩ := ih ends
    refine ⟨bound+1,?_⟩
    intro fuel hfuel pulls hpulls
    obtain ⟨fuel,rfl⟩ := Nat.exists_eq_add_of_le' hfuel
    obtain ⟨pulls,rfl⟩ := Nat.exists_eq_add_of_lt hpulls
    have hstep : pull round (fuel+bound+1) s = pull round (fuel+bound) t := by
      simp only [pull,step]
    have henough : ∃ result,pull round (fuel+bound) t = some result := by
      have hrest:=hbound (fuel+bound) (Nat.le_add_left _ _) (outs.length+pulls+1) (by omega)
      cases hpull : pull round (fuel+bound) t with
      | none =>
        simp only [Machine.drain,hpull] at hrest
        cases hrest
      | some result => exact ⟨result,rfl⟩
    obtain ⟨result,hresult⟩ := henough
    have hsame : pull round (fuel+bound+1) s = pull round (fuel+bound+1) t := by
      rw [hstep,hresult,pull_add hresult 1]
    rw [← Nat.add_assoc,drain_congr hsame]
    exact hbound (fuel+bound+1) (by omega) (outs.length+pulls+1) (by omega)
  | @emit s t out outs result step rest ih =>
    obtain ⟨bound,hbound⟩ := ih ends
    refine ⟨bound+1,?_⟩
    intro fuel hfuel pulls hpulls
    rw [length_cons] at hpulls
    obtain ⟨fuel,rfl⟩ := Nat.exists_eq_add_of_le' hfuel
    obtain ⟨pulls,rfl⟩ := Nat.exists_eq_add_of_lt hpulls
    have hrest:=hbound (fuel+(bound+1)) (by omega) (outs.length+1+pulls) (by omega)
    rw [← Nat.add_assoc] at hrest ⊢
    simp only [Machine.drain,pull,step,hrest,Option.map_some]

variable {α φ : Type}

/-- What a part of a run finds, and the failure that ends it there. -/
abbrev Walk (φ ε : Type) := List φ × Option ε

namespace Walk

def nil : Walk φ ε := ([],none)

def fail (e : ε) : Walk φ ε := ([],some e)

/-- The second walk is not begun where the first one failed. -/
def andThen (first rest : Walk φ ε) : Walk φ ε :=
  match first.2 with
  | none => (first.1++rest.1,rest.2)
  | some e => (first.1,some e)

def each (walk : α → Walk φ ε) : List α → Walk φ ε
  | [] => nil
  | a::rest => (walk a).andThen (each walk rest)

@[simp] theorem nil_andThen (rest : Walk φ ε) : (nil : Walk φ ε).andThen rest = rest := rfl

@[simp] theorem fail_andThen (e : ε) (rest : Walk φ ε) : (fail e).andThen rest = fail e := rfl

theorem andThen_assoc (first second third : Walk φ ε) :
    (first.andThen second).andThen third = first.andThen (second.andThen third) := by
  rcases first with ⟨found,_ | e⟩
  · rcases second with ⟨more,_ | e⟩
    · simp only [andThen,append_assoc]
    · rfl
  · rfl

theorem andThen_eq_none {first rest : Walk φ ε} (h : (first.andThen rest).2 = none) :
    first.2 = none ∧ rest.2 = none ∧ (first.andThen rest).1 = first.1++rest.1 := by
  rcases first with ⟨found,_ | e⟩
  · exact ⟨rfl,h,rfl⟩
  · cases h

theorem andThen_none {first rest : Walk φ ε} (hfirst : first.2 = none) (hrest : rest.2 = none) :
    (first.andThen rest).2 = none := by
  rw [andThen,hfirst]
  exact hrest

variable {items : List α} {ψ : Type}

theorem each_eq_none {walk : α → Walk φ ε} (h : (each walk items).2 = none) :
    (∀ a ∈ items,(walk a).2 = none) ∧
      (each walk items).1 = items.flatMap fun a => (walk a).1 := by
  induction items with
  | nil => exact ⟨by simp,rfl⟩
  | cons a rest ih =>
    obtain ⟨hfirst,hrest,hfound⟩ := andThen_eq_none h
    obtain ⟨hall,hlist⟩ := ih hrest
    constructor
    · intro b hb
      rcases mem_cons.mp hb with rfl | hb
      · exact hfirst
      · exact hall b hb
    · rw [flatMap_cons,← hlist]
      exact hfound

theorem each_none {walk : α → Walk φ ε} (h : ∀ a ∈ items,(walk a).2 = none) :
    (each walk items).2 = none := by
  induction items with
  | nil => rfl
  | cons a rest ih =>
    exact andThen_none (h a mem_cons_self) (ih fun b hb => h b (mem_cons_of_mem _ hb))

def once : Except ε (Option φ) → Walk φ ε
  | .ok (some a) => ([a],none)
  | .ok none => nil
  | .error e => fail e

theorem once_eq_none {step : Except ε (Option φ)} :
    (once step).2 = none ↔ ∃ found,step = .ok found := by
  cases step with
  | error e => exact iff_of_false nofun nofun
  | ok found =>
    cases found with
    | none => exact iff_of_true rfl ⟨none,rfl⟩
    | some a => exact iff_of_true rfl ⟨some a,rfl⟩

theorem each_eq_none_iff {walk : α → Walk φ ε} :
    (each walk items).2 = none ↔ ∀ a ∈ items,(walk a).2 = none :=
  ⟨fun h => (each_eq_none h).1,each_none⟩

theorem each_congr {walk other : α → Walk φ ε}
    (h : ∀ a ∈ items,walk a = other a) : each walk items = each other items := by
  induction items with
  | nil => rfl
  | cons a rest ih =>
    rw [each,each,h a mem_cons_self,ih fun b hb => h b (mem_cons_of_mem _ hb)]

theorem each_filter {walk : α → Walk φ ε} {p : α → Bool}
    (h : ∀ a ∈ items,p a = false → walk a = nil) :
    each walk (items.filter p) = each walk items := by
  induction items with
  | nil => rfl
  | cons a rest ih =>
    have hrest:=ih fun b hb => h b (mem_cons_of_mem _ hb)
    cases hkept : p a with
    | true => rw [filter_cons_of_pos hkept,each,each,hrest]
    | false =>
      rw [filter_cons_of_neg (Bool.eq_false_iff.mp hkept),each,hrest,
        h a mem_cons_self hkept,nil_andThen]

theorem each_map {β : Type} (walk : β → Walk φ ε) (f : α → β) (items : List α) :
    each walk (items.map f) = each (fun a => walk (f a)) items := by
  induction items with
  | nil => rfl
  | cons a rest ih => rw [map_cons,each,each,ih]

theorem each_range_reverse (walk : α → Walk φ ε) (items : List α) :
    each (fun place => items[place]?.elim nil walk) (List.range items.length).reverse =
      each walk items.reverse := by
  have hplaces : (List.range items.length).map (fun place => items[place]?) = items.map some := by
    apply ext_getElem?
    intro place
    rcases Nat.lt_or_ge place items.length with hlt | hge
    · simp [hlt]
    · simp [hge]
  have hreverse:=congrArg List.reverse hplaces
  rw [← map_reverse,← map_reverse] at hreverse
  have hnamed:=each_map (fun found => Option.elim found nil walk) (fun place => items[place]?)
    (List.range items.length).reverse
  rw [← hnamed,hreverse,each_map]
  rfl

def mapFound {ψ : Type} (f : φ → ψ) (walk : Walk φ ε) : Walk ψ ε := (walk.1.map f,walk.2)

theorem mapFound_andThen (f : φ → ψ) (first rest : Walk φ ε) :
    mapFound f (first.andThen rest) = (mapFound f first).andThen (mapFound f rest) := by
  rcases first with ⟨found,_ | e⟩
  · simp only [andThen,mapFound,map_append]
  · rfl

theorem mapFound_each (f : φ → ψ) (walk : α → Walk φ ε) (items : List α) :
    mapFound f (each walk items) = each (fun a => mapFound f (walk a)) items := by
  induction items with
  | nil => rfl
  | cons a rest ih => rw [each,each,mapFound_andThen,ih]

theorem mapFound_once (f : φ → ψ) (step : Except ε (Option φ)) :
    mapFound f (once step) = once (Option.map f <$> step) := by
  cases step with
  | error e => rfl
  | ok found => cases found <;> rfl

/-- Where the walk ends: in a state, or in its failure. -/
def result (walk : Walk φ ε) (s : σ) : Except ε σ :=
  match walk.2 with
  | none => .ok s
  | some e => .error e

end Walk

def Follows (round : σ → Except ε (Turn σ ω)) (value : φ → ω) (s : σ) (walk : Walk φ ε) (t : σ) :
    Prop :=
  Leads round s (walk.1.map value) (walk.result t)

namespace Follows

variable {round : σ → Except ε (Turn σ ω)} {value : φ → ω} {s t u : σ} {walk rest : Walk φ ε}

theorem refl (s : σ) : Follows round value s Walk.nil s := Leads.refl s

theorem andThen (first : Follows round value s walk t) (next : Follows round value t rest u) :
    Follows round value s (walk.andThen rest) u := by
  rcases walk with ⟨found,_ | e⟩
  · have hboth:=Leads.trans first next
    rw [← map_append] at hboth
    exact hboth
  · exact first

theorem next (step : round s = .ok (.next t)) (next : Follows round value t walk u) :
    Follows round value s walk u :=
  Leads.next step next

theorem fail {e : ε} (step : round s = .error e) : Follows round value s (Walk.fail e) u :=
  Leads.fail step

theorem emit (found : φ) (step : round s = .ok (.emit (value found) t))
    (next : Follows round value t walk u) :
    Follows round value s (Walk.andThen ([found],none) walk) u :=
  Leads.emit step next

theorem offer {found : Except ε (Option ω)} {walk : Walk ω ε}
    (step : round s = Turn.offer t <$> found) (next : Follows round id t walk u) :
    Follows round id s ((Walk.once found).andThen walk) u := by
  cases found with
  | error e => exact Follows.fail step
  | ok found =>
    cases found with
    | none => exact Follows.next step next
    | some out => exact Follows.emit out step next

theorem drains {walk : Walk ω ε} (h : Follows round id s walk t) (done : round t = .ok .done) :
    Drains round s walk.1 walk.2 := by
  rcases walk with ⟨outs,_ | e⟩
  · have hdrain:=Leads.drain h fun u hu => by
      obtain rfl := Except.ok.inj hu
      exact done
    rw [map_id] at hdrain
    exact hdrain
  · have hdrain:=Leads.drain h fun u hu => by cases hu
    rw [map_id] at hdrain
    exact hdrain

end Follows

end Zeppelin.Machine
