/-!
# Forward simulations

A system takes a step for every event, and an abstract state moves beside it where `move` allows.  `Follows` is a whole run
of both in which every state shows its abstract one; a simulation relation gives it for every run whose steps are allowed.
-/

namespace Simulation

variable {σ ε α : Type}

section Runs

variable (step : σ → ε → σ)

/-- A run whose steps are all allowed. -/
def AllAllowed (allowed : σ → ε → Prop) : σ → List ε → Prop
  | _, [] => True
  | s, e :: es => allowed s e ∧ AllAllowed allowed (step s e) es

/-- A run with its abstract states: every step moves the abstract state, and every state shows its own. -/
inductive Follows (move : σ → ε → α → α → Prop) (shows : σ → α → Prop) : σ → α → List ε → Prop
  | nil {s a} (h : shows s a) : Follows move shows s a []
  | cons {s a e a' es} (h : shows s a) (hm : move s e a a') (hr : Follows move shows (step s e) a' es) :
      Follows move shows s a (e :: es)

/-- `R` relates the states of a run to abstract ones. -/
structure Simulates (allowed : σ → ε → Prop) (move : σ → ε → α → α → Prop) (shows : σ → α → Prop) (R : σ → α → Prop) :
    Prop where
  shown : ∀ {s a}, R s a → shows s a
  step : ∀ {s a e}, R s a → allowed s e → ∃ a', move s e a a' ∧ R (step s e) a'

end Runs

variable {step : σ → ε → σ} {allowed : σ → ε → Prop} {move : σ → ε → α → α → Prop} {shows shows' : σ → α → Prop}
  {R : σ → α → Prop} {s : σ} {a : α} {es : List ε}

theorem AllAllowed.append {fs : List ε} (h : AllAllowed step allowed s (es ++ fs)) :
    AllAllowed step allowed s es ∧ AllAllowed step allowed (es.foldl step s) fs := by
  induction es generalizing s with
  | nil => exact ⟨trivial, h⟩
  | cons e es ih =>
    obtain ⟨h1, h2⟩ := ih h.2
    exact ⟨⟨h.1, h1⟩, h2⟩

/-- A simulation relation gives the abstract run. -/
theorem Simulates.follows (h : Simulates step allowed move shows R) (hR : R s a) (ha : AllAllowed step allowed s es) :
    Follows step move shows s a es := by
  induction es generalizing s a with
  | nil => exact .nil (h.shown hR)
  | cons e es ih =>
    obtain ⟨a', hm, hR'⟩ := h.step hR ha.1
    exact .cons (h.shown hR) hm (ih hR' ha.2)

/-- What a simulation relation leaves at the end of a run, with what every move keeps. -/
theorem Simulates.run (h : Simulates step allowed move shows R) {T : α → α → Prop} (hrefl : ∀ a, T a a)
    (htrans : ∀ {a b c}, T a b → T b c → T a c) (hmove : ∀ {s e a a'}, move s e a a' → T a a') (hR : R s a)
    (ha : AllAllowed step allowed s es) : ∃ a', R (es.foldl step s) a' ∧ T a a' := by
  induction es generalizing s a with
  | nil => exact ⟨a, hR, hrefl a⟩
  | cons e es ih =>
    obtain ⟨a₁, hm, hR₁⟩ := h.step hR ha.1
    obtain ⟨a', hR', hT⟩ := ih hR₁ ha.2
    exact ⟨a', hR', htrans (hmove hm) hT⟩

end Simulation
