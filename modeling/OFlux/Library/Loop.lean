import Mathlib.Data.Option.Basic

/-!
# Loops that may go on for ever

A loop is the function that one turn computes: it goes around again, leaves the loop
with a result, or fails an assertion.  {lit}`runLoop` takes a bounded number of turns;
a loop returns what some number of turns gives.

Main results:

- Theorem {lit}`Returns.unique`: a loop returns one result at most.
- Theorem {lit}`not_returns_of_invariant`: a loop whose turns keep what makes them
  go around again never ends.
-/

namespace OFlux
namespace Library

universe u v w

variable {ε : Type u} {σ : Type v} {β : Type w}

/-- What one turn of a loop comes to. -/
inductive Turn (ε : Type u) (σ : Type v) (β : Type w) where
  | again (s : σ)
  | done (s : σ) (result : β)
  | fail (assertion : ε)

/-- At most that many turns of a loop. -/
def runLoop (body : σ → Turn ε σ β) : Nat → σ → Option (Except ε (σ × β))
  | 0, _ => none
  | turns + 1, s =>
      match body s with
      | .again t => runLoop body turns t
      | .done t result => some (.ok (t, result))
      | .fail assertion => some (.error assertion)

/-- The loop ends, with that result. -/
def Returns (body : σ → Turn ε σ β) (s : σ) (r : Except ε (σ × β)) : Prop :=
  ∃ turns, runLoop body turns s = some r

namespace Returns

variable {body : σ → Turn ε σ β} {s t : σ} {r r' : Except ε (σ × β)}

/-- A loop whose first turn is done returns. -/
theorem done {result : β} (h : body s = .done t result) : Returns body s (.ok (t, result)) :=
  ⟨1, by simp [runLoop, h]⟩

/-- A loop whose first turn fails, fails. -/
theorem fail {assertion : ε} (h : body s = .fail assertion) :
    Returns body s (.error assertion) :=
  ⟨1, by simp [runLoop, h]⟩

/-- A loop returns what it returns from its next turn. -/
theorem again_iff (h : body s = .again t) : Returns body s r ↔ Returns body t r := by
  constructor
  · rintro ⟨turns, hrun⟩
    cases turns with
    | zero => cases hrun
    | succ turns => exact ⟨turns, by simpa [runLoop, h] using hrun⟩
  · rintro ⟨turns, hrun⟩
    exact ⟨turns + 1, by simpa [runLoop, h] using hrun⟩

/-- A loop that returns from its next turn returns. -/
theorem again (h : body s = .again t) (hrest : Returns body t r) : Returns body s r :=
  (again_iff h).mpr hrest

/-- A loop has one result. -/
theorem unique (h : Returns body s r) (h' : Returns body s r') : r = r' := by
  obtain ⟨turns, hrun⟩ := h
  obtain ⟨turns', hrun'⟩ := h'
  induction turns generalizing s turns' with
  | zero => cases hrun
  | succ turns ih =>
      cases turns' with
      | zero => cases hrun'
      | succ turns' =>
          simp only [runLoop] at hrun hrun'
          split at hrun
          next hbody =>
            rw [hbody] at hrun'
            exact ih hrun turns' hrun'
          next hbody =>
            rw [hbody] at hrun'
            exact Option.some_injective _ (hrun.symm.trans hrun')
          next hbody =>
            rw [hbody] at hrun'
            exact Option.some_injective _ (hrun.symm.trans hrun')

end Returns

/-- A loop never ends if what makes a turn go around again still holds after it. -/
theorem not_returns_of_invariant {body : σ → Turn ε σ β} {P : σ → Prop}
    (hagain : ∀ s, P s → ∃ t, body s = .again t ∧ P t) {s : σ} (hs : P s)
    (r : Except ε (σ × β)) : ¬ Returns body s r := by
  rintro ⟨turns, hrun⟩
  induction turns generalizing s with
  | zero => cases hrun
  | succ turns ih =>
      obtain ⟨t, hbody, ht⟩ := hagain s hs
      exact ih ht (by simpa [runLoop, hbody] using hrun)

/-- A turn that goes around again without a change never ends. -/
theorem not_returns_of_stuck {body : σ → Turn ε σ β} {s : σ} (h : body s = .again s)
    (r : Except ε (σ × β)) : ¬ Returns body s r :=
  not_returns_of_invariant (P := (· = s)) (fun _ ht => ⟨s, ht ▸ h, rfl⟩) rfl r

end Library
end OFlux
