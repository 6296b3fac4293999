import Mathlib.Logic.Basic
import Mathlib.Data.List.Basic
import Mathlib.Logic.Relation

/-!
# Labelled transition systems

A small library for reasoning about whole runs.  A system is an initial
predicate and a labelled step relation; a run is the list of labels taken
together with the states they lead to.

Main results:

- Theorem {lit}`TransitionSystem.Reachable.invariant`: a predicate that holds
  initially and is kept by every step holds of every reachable state.
- Theorem {lit}`TransitionSystem.statesMeet_iff_stepsMeet`: when one step keeps
  a property exactly under a condition on the step, a whole run keeps it exactly
  when each of its steps meets that condition.
-/

namespace OFlux
namespace Library

universe u v

/-- An initial predicate and a labelled step relation. -/
structure TransitionSystem (σ : Type u) (α : Type v) where
  init : σ → Prop
  step : σ → α → σ → Prop

namespace TransitionSystem

variable {σ : Type u} {α : Type v} (T : TransitionSystem σ α)

/-- States that some sequence of steps reaches from an initial state. -/
inductive Reachable : σ → Prop where
  | init {s : σ} : T.init s → Reachable s
  | step {s t : σ} {a : α} : Reachable s → T.step s a t → Reachable t

/-- Some sequence of steps leads from one state to the other. -/
def Leads : σ → σ → Prop :=
  Relation.ReflTransGen fun s t => ∃ a, T.step s a t

/-- The system in which only the steps that meet a condition remain. -/
def restrict (C : σ → α → σ → Prop) : TransitionSystem σ α where
  init := T.init
  step s a t := T.step s a t ∧ C s a t

/-- A run from {lit}`s`, as the labels taken and the states reached. -/
inductive Run : σ → List (α × σ) → Prop where
  | nil (s : σ) : Run s []
  | cons {s t : σ} {a : α} {rest : List (α × σ)} :
      T.step s a t → Run t rest → Run s ((a, t) :: rest)

/-- Every state of a run satisfies {lit}`P` (the first state aside). -/
def StatesMeet (P : σ → Prop) (path : List (α × σ)) : Prop :=
  ∀ p ∈ path, P p.2

/-- Every step of a run satisfies {lit}`C`. -/
def StepsMeet (C : σ → α → σ → Prop) : σ → List (α × σ) → Prop
  | _, [] => True
  | s, (a, t) :: rest => C s a t ∧ StepsMeet C t rest

instance {C : σ → α → σ → Prop} [hC : ∀ s a t, Decidable (C s a t)] (s : σ) :
    (path : List (α × σ)) → Decidable (StepsMeet C s path)
  | [] => .isTrue trivial
  | (a, t) :: rest => @instDecidableAnd _ _ (hC s a t) (instDecidableStepsMeet t rest)

/-- The last state of a run. -/
def lastState : σ → List (α × σ) → σ
  | s, [] => s
  | _, (_, t) :: rest => lastState t rest

@[simp]
theorem statesMeet_nil (P : σ → Prop) : StatesMeet (α := α) P [] := by
  simp [StatesMeet]

@[simp]
theorem statesMeet_cons (P : σ → Prop) (a : α) (t : σ) (rest : List (α × σ)) :
    StatesMeet P ((a, t) :: rest) ↔ P t ∧ StatesMeet P rest := by
  simp [StatesMeet]

@[simp]
theorem stepsMeet_nil (C : σ → α → σ → Prop) (s : σ) : StepsMeet C s [] :=
  trivial

@[simp]
theorem stepsMeet_cons (C : σ → α → σ → Prop) (s t : σ) (a : α)
    (rest : List (α × σ)) :
    StepsMeet C s ((a, t) :: rest) ↔ C s a t ∧ StepsMeet C t rest :=
  Iff.rfl

variable {T}

/-- A step and what it leads to. -/
theorem Leads.head {s t u : σ} {a : α} (h : T.step s a t) (hrest : T.Leads t u) :
    T.Leads s u :=
  Relation.ReflTransGen.head ⟨a, h⟩ hrest

/-- What a reachable state leads to is reachable. -/
theorem Reachable.leads {s t : σ} (h : T.Reachable s) (hleads : T.Leads s t) :
    T.Reachable t := by
  induction hleads with
  | refl => exact h
  | tail _ hstep ih => exact ih.step hstep.choose_spec

/-- What holds at the start and is kept by steps holds of every reachable state. -/
theorem Reachable.invariant {P : σ → Prop} (hinit : ∀ s, T.init s → P s)
    (hstep : ∀ s a t, P s → T.step s a t → P t) {s : σ} (h : T.Reachable s) :
    P s := by
  induction h with
  | init h0 => exact hinit _ h0
  | step _ hs ih => exact hstep _ _ _ ih hs

/-- The states of a run that starts at a reachable state are reachable. -/
theorem Run.statesMeet_reachable {s : σ} {path : List (α × σ)}
    (hs : T.Reachable s) (h : T.Run s path) : StatesMeet T.Reachable path := by
  induction h with
  | nil s => simp
  | cons hstep _ ih =>
      have ht := hs.step hstep
      exact (statesMeet_cons _ _ _ _).mpr ⟨ht, ih ht⟩

/-- A run from a reachable state ends in one. -/
theorem Run.reachable_lastState {s : σ} {path : List (α × σ)}
    (hs : T.Reachable s) (h : T.Run s path) : T.Reachable (lastState s path) := by
  induction h with
  | nil s => exact hs
  | cons hstep _ ih => exact ih (hs.step hstep)

/-- A run leads to its last state. -/
theorem Run.leads_lastState {s : σ} {path : List (α × σ)} (h : T.Run s path) :
    T.Leads s (lastState s path) := by
  induction h with
  | nil s => exact .refl
  | cons hstep _ ih => exact ih.head hstep

/-- A run whose steps all meet a condition is one of the restricted system. -/
theorem Run.restrict {C : σ → α → σ → Prop} {s : σ} {path : List (α × σ)} (h : T.Run s path)
    (hc : StepsMeet C s path) : (T.restrict C).Run s path := by
  induction h with
  | nil s => exact .nil s
  | cons hstep _ ih => exact .cons ⟨hstep, hc.1⟩ (ih hc.2)

/-- What each step establishes from an invariant holds along the whole run. -/
theorem Run.stepsMeet {I : σ → Prop} {C : σ → α → σ → Prop}
    (hI : ∀ s a t, I s → T.step s a t → I t)
    (hC : ∀ s a t, I s → T.step s a t → C s a t)
    {s : σ} {path : List (α × σ)} (hs : I s) (h : T.Run s path) :
    StepsMeet C s path := by
  induction h with
  | nil s => trivial
  | cons hstep _ ih => exact ⟨hC _ _ _ hs hstep, ih (hI _ _ _ hs hstep)⟩

/-- A predicate kept by each step that meets {lit}`C` holds along a run of such steps. -/
theorem Run.statesMeet_of_stepsMeet {I P : σ → Prop} {C : σ → α → σ → Prop}
    (hI : ∀ s a t, I s → T.step s a t → I t)
    (hP : ∀ s a t, I s → P s → T.step s a t → C s a t → P t)
    {s : σ} {path : List (α × σ)} (hs : I s) (hp : P s) (h : T.Run s path)
    (hc : StepsMeet C s path) : StatesMeet P path := by
  induction h with
  | nil s => simp
  | cons hstep _ ih =>
      have ht := hP _ _ _ hs hp hstep hc.1
      exact (statesMeet_cons _ _ _ _).mpr ⟨ht, ih (hI _ _ _ hs hstep) ht hc.2⟩

/-- Two step conditions that agree under an invariant agree along every run. -/
theorem Run.stepsMeet_congr {I : σ → Prop} {C D : σ → α → σ → Prop}
    (hI : ∀ s a t, I s → T.step s a t → I t)
    (hCD : ∀ s a t, I s → T.step s a t → (C s a t ↔ D s a t))
    {s : σ} {path : List (α × σ)} (hs : I s) (h : T.Run s path) :
    StepsMeet C s path ↔ StepsMeet D s path := by
  induction h with
  | nil s => simp
  | cons hstep _ ih =>
      simp only [stepsMeet_cons]
      rw [hCD _ _ _ hs hstep, ih (hI _ _ _ hs hstep)]

/-- The same if the invariant survives only the steps that meet the second condition. -/
theorem Run.stepsMeet_congr_of_kept {I : σ → Prop} {C D : σ → α → σ → Prop}
    (hI : ∀ s a t, I s → T.step s a t → D s a t → I t)
    (hCD : ∀ s a t, I s → T.step s a t → (C s a t ↔ D s a t))
    {s : σ} {path : List (α × σ)} (hs : I s) (h : T.Run s path) :
    StepsMeet C s path ↔ StepsMeet D s path := by
  induction h with
  | nil s => simp
  | cons hstep _ ih =>
      simp only [stepsMeet_cons]
      rw [hCD _ _ _ hs hstep]
      exact and_congr_right fun hd => ih (hI _ _ _ hs hstep hd)

/-- If one step from a good state reaches a good state exactly when it meets
{lit}`C`, a run from a good state stays good exactly when its steps meet {lit}`C`.
The invariant has to survive only such steps. -/
theorem Run.statesMeet_iff_stepsMeet_of_kept {I P : σ → Prop} {C : σ → α → σ → Prop}
    (hI : ∀ s a t, I s → P s → T.step s a t → C s a t → I t)
    (hPC : ∀ s a t, I s → P s → T.step s a t → (P t ↔ C s a t))
    {s : σ} {path : List (α × σ)} (hs : I s) (hp : P s) (h : T.Run s path) :
    StatesMeet P path ↔ StepsMeet C s path := by
  induction h with
  | nil s => simp
  | cons hstep _ ih =>
      simp only [statesMeet_cons, stepsMeet_cons]
      have hstep_iff := hPC _ _ _ hs hp hstep
      constructor
      · intro ⟨ht, hrest⟩
        have hc := hstep_iff.mp ht
        exact ⟨hc, (ih (hI _ _ _ hs hp hstep hc) ht).mp hrest⟩
      · intro ⟨hc, hrest⟩
        have ht := hstep_iff.mpr hc
        exact ⟨ht, (ih (hI _ _ _ hs hp hstep hc) ht).mpr hrest⟩

/-- States meet a property along a run when each step keeps it. -/
theorem Run.statesMeet_iff_stepsMeet {I P : σ → Prop} {C : σ → α → σ → Prop}
    (hI : ∀ s a t, I s → T.step s a t → I t)
    (hPC : ∀ s a t, I s → P s → T.step s a t → (P t ↔ C s a t))
    {s : σ} {path : List (α × σ)} (hs : I s) (hp : P s) (h : T.Run s path) :
    StatesMeet P path ↔ StepsMeet C s path :=
  h.statesMeet_iff_stepsMeet_of_kept (fun s a t hs _ hstep _ => hI s a t hs hstep) hPC hs hp

/-! ## Systems that answer calls -/

/-- The system in which a function computes what a call comes to, if the call may be made. -/
def ofCalls (init : σ → Prop) (allowed : σ → α → Prop) (next : σ → α → σ) :
    TransitionSystem σ α where
  init := init
  step s a t := allowed s a ∧ t = next s a

/-- The run of some calls. -/
def runOf (next : σ → α → σ) (s : σ) : List α → List (α × σ)
  | [] => []
  | a :: calls => (a, next s a) :: runOf next (next s a) calls

/-- Each of the calls may be made when it is its turn. -/
def AllAllowed (allowed : σ → α → Prop) (next : σ → α → σ) (s : σ) : List α → Prop
  | [] => True
  | a :: calls => allowed s a ∧ AllAllowed allowed next (next s a) calls

/-- Two conditions on calls are one. -/
theorem allAllowed_and {P Q : σ → α → Prop} {next : σ → α → σ} {s : σ} {calls : List α} :
    AllAllowed (fun s a => P s a ∧ Q s a) next s calls ↔
      AllAllowed P next s calls ∧ AllAllowed Q next s calls := by
  induction calls generalizing s with
  | nil => simp [AllAllowed]
  | cons a calls ih =>
      simp only [AllAllowed, ih]
      exact and_and_and_comm

theorem run_runOf {init : σ → Prop} {allowed : σ → α → Prop} {next : σ → α → σ} {s : σ}
    {calls : List α} (h : AllAllowed allowed next s calls) :
    (ofCalls init allowed next).Run s (runOf next s calls) := by
  induction calls generalizing s with
  | nil => exact .nil s
  | cons a calls ih => exact .cons ⟨h.1, rfl⟩ (ih h.2)

/-- A call that makes something bigger can only be repeated as long as that is below a bound. -/
theorem AllAllowed.measure_lt {allowed : σ → α → Prop} {next : σ → α → σ} {a : α} {s : σ} {m : Nat}
    (h : AllAllowed allowed next s (List.replicate (m + 1) a)) (measure : σ → Nat) {bound : Nat}
    (hnext : ∀ s, measure (next s a) = measure s + 1)
    (hallowed : ∀ s, allowed s a → measure s + 1 < bound) : measure s + m + 1 < bound := by
  induction m generalizing s with
  | zero => exact hallowed s h.1
  | succ m ih =>
      have hrest := ih h.2
      rw [hnext] at hrest
      omega

end TransitionSystem

end Library
end OFlux
