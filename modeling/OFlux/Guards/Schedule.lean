import OFlux.Guards.Order
import OFlux.Guards.System

/-!
# Schedules

A schedule names the next step of a system of events; performing it computes the next
state, with the stable sort where the source calls {lit}`qsort`.

Main results:

- Theorem {lit}`State.step_of_perform`: what a command performs is a step.
- Theorem {lit}`State.run_runOf`: what a schedule computes is a run.
-/

namespace OFlux
namespace Guards

open Library

variable {I K D : Type} [LinearOrder K] [Inhabited K] {guards : GuardId → Guard}

/-- The next step, as a scheduler would choose it. -/
inductive Command (guards : GuardId → Guard) (I K D : Type) where
  | create (node : Node guards I K D) (input : I)
  | getKeysSort (e : EventId)
  | visit (e : EventId) (i : Nat)
  | ready (e : EventId) (i : Nat)
  | start (e : EventId)
  | write (x : Execution) (i : Nat) (d : Option D)
  | beginRelease (x : Execution) (isLast : Bool)
  | releaseAt (x : Execution) (i : Nat)
  | endRelease (x : Execution)

/-- The label of the step that a command asks for. -/
def Command.action : Command guards I K D → Action
  | .create _ _ => .create
  | .getKeysSort e => .getKeysSort e
  | .visit e i => .visit e i
  | .ready e _ => .ready e
  | .start e => .start e
  | .write x i _ => .write x.event i
  | .beginRelease x _ => .beginRelease x.event
  | .releaseAt x i => .releaseAt x.event i
  | .endRelease x => .endRelease x.event

/-- Does the command change the data of an atomic? -/
def Command.assigns : Command guards I K D → Bool
  | .write _ _ _ => true
  | _ => false

namespace State

/-- The next state, when the command is a step. -/
def perform (s : State I K D) : Command guards I K D → Option (State I K D)
  | .create node input => some { s with
      store := s.store.setEvent s.created (node.newEvent input),
      created := s.created + 1,
      acquiring := (s.created, 0) :: s.acquiring }
  | .getKeysSort e =>
      if (e, 0) ∈ s.acquiring ∧ (s.store.events e).isSortedAndKeyed = false then
        match s.store.getKeysSort guards e with
        | .error _ => none
        | .ok st => some { s with store := st }
      else none
  | .visit e i =>
      if (e, i) ∈ s.acquiring ∧ (s.store.events e).isSortedAndKeyed = true ∧
          i < (s.store.events e).holders.length then
        match s.store.visit guards e i with
        | .error _ => none
        | .ok (st, true) =>
            some { s with store := st, acquiring := (e, i + 1) :: s.acquiring.erase (e, i) }
        | .ok (st, false) => some { s with store := st, acquiring := s.acquiring.erase (e, i) }
      else none
  | .ready e i =>
      if (e, i) ∈ s.acquiring ∧ (s.store.events e).isSortedAndKeyed = true ∧
          (s.store.events e).holders.length ≤ i then
        some { s with
          acquiring := s.acquiring.erase (e, i),
          runnable := s.runnable ++ [e] }
      else none
  | .start e =>
      if e ∈ s.runnable then
        some { s with
          runnable := s.runnable.erase e,
          executing := { event := e } :: s.executing }
      else none
  | .write x i d =>
      match (s.store.events x.event).holders[i]? with
      | some { haveit := true, atom := some p, .. } =>
          if x ∈ s.executing ∧ x.releasing = none then
            some { s with store := s.store.setData p d }
          else none
      | _ => none
  | .beginRelease x isLast =>
      if x ∈ s.executing ∧ x.releasing = none then
        some { s with executing := { x with
          releasing := some (s.store.events x.event).holders.length,
          isLast := isLast } :: s.executing.erase x }
      else none
  | .releaseAt x i =>
      if x ∈ s.executing ∧ x.releasing = some (i + 1) then
        match s.store.releaseAt guards x.event i with
        | .error _ => none
        | .ok (st, released) => some { s with
            store := st,
            executing := { x with releasing := some i } :: s.executing.erase x,
            acquiring := released.map (fun r => (r, (st.events r).workingOn)) ++ s.acquiring }
      else none
  | .endRelease x =>
      if x ∈ s.executing ∧ x.releasing = some 0 then
        if x.isLast then
          some { s with
            executing := s.executing.erase x,
            finished := x.event :: s.finished }
        else
          some { s with executing :=
            { x with releasing := none, released := true } :: s.executing.erase x }
      else none

/-- The steps that a schedule takes, as long as its commands are steps. -/
def runOf (s : State I K D) : List (Command guards I K D) → List (Action × State I K D)
  | [] => []
  | command :: rest =>
      match s.perform command with
      | none => []
      | some t => (command.action, t) :: t.runOf rest

variable {s t : State I K D}
  (hmagic : ∀ g g', (guards g).magicNumber = (guards g').magicNumber → g = g')
include hmagic

/-- A command that can be performed is a step. -/
theorem step_of_perform {command : Command guards I K D}
    (h : s.perform command = some t) : Step guards s command.action t := by
  cases command with
  | create node input =>
      cases h
      exact Step.create s node input
  | getKeysSort e =>
      simp only [perform] at h
      split at h
      next hcall =>
        split at h
        · cases h
        next st hkeysSort =>
          cases h
          simp only [Store.getKeysSort] at hkeysSort
          split at hkeysSort
          · cases hkeysSort
          next st0 hkeys =>
            cases hkeysSort
            refine Step.getKeysSort hcall.1 hcall.2 hkeys ?_
            by_cases hcompletely : (st0.events e).isCompletelySorted = true
            · simp [Store.acquisitionOrder, hcompletely]
            · simp only [Store.acquisitionOrder, hcompletely, Bool.false_eq_true, if_false]
              exact HeldAtomic.sortedOrder_insertionSort hmagic _
      · cases h
  | visit e i =>
      simp only [perform] at h
      split at h
      next hcall =>
        split at h
        · cases h
        next st hvisit =>
          cases h
          exact Step.acquired hcall.1 hcall.2.1 hcall.2.2 hvisit
        next st hvisit =>
          cases h
          exact Step.queued hcall.1 hcall.2.1 hcall.2.2 hvisit
      · cases h
  | ready e i =>
      simp only [perform] at h
      split at h
      next hcall =>
        cases h
        exact Step.ready hcall.1 hcall.2.1 hcall.2.2
      · cases h
  | start e =>
      simp only [perform] at h
      split at h
      next hrunnable =>
        cases h
        exact Step.start hrunnable
      · cases h
  | write x i d =>
      simp only [perform] at h
      split at h
      next hi =>
        split at h
        next hx =>
          cases h
          exact Step.write hx.1 hx.2 hi rfl rfl d
        · cases h
      · cases h
  | beginRelease x isLast =>
      simp only [perform] at h
      split at h
      next hx =>
        cases h
        exact Step.beginRelease hx.1 hx.2 isLast
      · cases h
  | releaseAt x i =>
      simp only [perform] at h
      split at h
      next hx =>
        split at h
        · cases h
        next st released hrelease =>
          cases h
          exact Step.releaseAt hx.1 hx.2 hrelease
      · cases h
  | endRelease x =>
      simp only [perform] at h
      split at h
      next hx =>
        split at h
        next hlast =>
          cases h
          exact Step.finish hx.1 hx.2 hlast
        next hlast =>
          cases h
          exact Step.releasedEarly hx.1 hx.2 (by simpa using hlast)
      · cases h

/-- What a schedule computes is a run. -/
theorem run_runOf (s : State I K D) (commands : List (Command guards I K D)) :
    (system I K D guards).Run s (s.runOf commands) := by
  induction commands generalizing s with
  | nil => exact .nil s
  | cons command rest ih =>
      rw [runOf]
      cases hperform : s.perform command with
      | none => exact .nil s
      | some t => exact .cons (step_of_perform hmagic hperform) (ih t)

/-- Commands reach the states of their run. -/
theorem reachable_of_mem_runOf {commands : List (Command guards I K D)}
    {step : Action × State I K D} (hs : (system I K D guards).Reachable s)
    (hstep : step ∈ s.runOf commands) : (system I K D guards).Reachable step.2 :=
  (run_runOf hmagic s commands).statesMeet_reachable hs step hstep

end State

/-! ## Before the first event -/

section Empty

variable [Inhabited I]

/-- The state without events, for a flow whose guards have neither atomics nor
resources of their own. -/
def State.empty (I K D : Type) [Inhabited I] [Inhabited K] : State I K D where
  store := {
    atomics := fun _ => .free none
    allocated := 0
    wrappers := fun _ => { data := none, pool := 0 }
    wrapped := 0
    maps := fun _ => []
    pools := fun _ => {}
    events := fun _ => { input := default, holders := [], isCompletelySorted := true }
    madeFor := fun _ => (0, default) }

omit [LinearOrder K] in
theorem initial_empty (hnone : ∀ g a, (guards g).amap ≠ .trivial a) :
    Initial guards (State.empty I K D) where
  wellFormed := {
    entry := fun _ _ _ h => nomatch h
    trivialAtom := fun g a h => absurd h (hnone g a)
    wrapper := fun w h => absurd h (Nat.not_lt_zero w)
    idle := fun _ _ h => nomatch h
    next := fun w _ h => absurd h (Nat.not_lt_zero w)
    poolLike := fun p h => by cases p <;> exact absurd h (Nat.not_lt_zero _)
    fresh := fun _ _ => rfl }
  queues q := by cases q <;> rfl
  collected := rfl
  events _ := rfl
  created := rfl
  acquiring := rfl
  runnable := rfl
  executing := rfl
  finished := rfl

/-- Guards that each have a keyed map and are not collected. -/
def keyedGuards (cls : AtomicClass) : GuardId → Guard :=
  fun g => { magicNumber := g, amap := .std cls, isGC := false }

/-- The guards of the examples have different magic numbers. -/
theorem keyedGuards_injective (cls : AtomicClass) (g g' : GuardId)
    (h : (keyedGuards cls g).magicNumber = (keyedGuards cls g').magicNumber) : g = g' :=
  h

omit [LinearOrder K] in
/-- The empty state of the examples is initial. -/
theorem initial_empty_keyedGuards (cls : AtomicClass) :
    Initial (keyedGuards cls) (State.empty I K D) :=
  initial_empty fun g a => by simp [keyedGuards]

end Empty

end Guards
end OFlux
