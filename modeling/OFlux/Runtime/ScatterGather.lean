import Mathlib.Algebra.Group.Nat.Defs
import OFlux.Library.ReferenceCount
import OFlux.Library.TransitionSystem

/-!
# Scattered objects

A {lit}`Scatter` handle shares an object that counts its handles itself.  Cloning adds a handle,
and an assignment passes the object of one handle on to another, which leaves the first one empty.
There is no copy constructor, so that a copy shares the object without an increment.

Main results:

- Theorem {lit}`Scatters.exact_call`: every call but a copy is a move of a reference count.
- Theorem {lit}`Scatters.countsExact_iff`: the counts stay exact in the runs that never copy a
  handle of an object.
-/

namespace OFlux
namespace Runtime

open Library

/-! ## Handles and objects -/

namespace Gatherable

/-- {lit}`incr`; there are not as many addresses for handles as a {lit}`size_t` can count. -/
def incr (refCount : Nat) : Nat := refCount + 1

/-- {lit}`decr`, which goes around below zero. -/
def decr (refCount : Nat) : Nat := if refCount = 0 then 2 ^ 64 - 1 else refCount - 1

end Gatherable

/-- The {lit}`Scatter` handles that are alive with the pointers in them, and the objects with their
counts.  Whether an object has ever had a handle, and how often it has been deleted, are history
variables. -/
structure Scatters (H O : Type) where
  live : Finset H
  p : H → Option O
  refCount : O → Nat
  owned : Finset O
  deletions : O → Nat

/-- What is done to handles. -/
inductive ScatterCall (H O : Type) where
  | scatter (x : H)
  | scatterOf (x : H) (o : O)
  | copy (x sp : H)
  | clone (x sp : H)
  | assign (x sp : H)
  | destroy (x : H)

namespace Scatters

variable {H O : Type} [DecidableEq H] [DecidableEq O]

/-- The constructor with an object; a handle of the same object may exist already. -/
def hold (s : Scatters H O) (x : H) (o : O) : Scatters H O :=
  { s with
    p := Function.update s.p x (some o)
    refCount := Function.update s.refCount o (Gatherable.incr (s.refCount o))
    owned := insert o s.owned }

/-- A handle leaves its object, and deletes it if that has no handles any more. -/
def disown (s : Scatters H O) (x : H) : Scatters H O :=
  match s.p x with
  | none => s
  | some o =>
      let refCount := Function.update s.refCount o (Gatherable.decr (s.refCount o))
      { s with
        p := Function.update s.p x none
        refCount := refCount
        deletions := if refCount o = 0 then Function.update s.deletions o (s.deletions o + 1)
          else s.deletions }

/-- A handle that has just come to life. -/
def enter (s : Scatters H O) (x : H) (p : Option O) : Scatters H O :=
  { s with live := insert x s.live, p := Function.update s.p x p }

/-- What each call does to the handles and the objects that they share. -/
def call (s : Scatters H O) : ScatterCall H O → Scatters H O
  | .scatter x => s.enter x none
  | .scatterOf x o => (s.enter x none).hold x o
  | .copy x sp => s.enter x (s.p sp)
  | .clone x sp =>
      if s.p x = s.p sp then s
      else
        let s := s.disown x
        match s.p sp with
        | none => s
        | some o => s.hold x o
  | .assign x sp =>
      let s := s.disown x
      { s with p := Function.update (Function.update s.p x (s.p sp)) sp none }
  | .destroy x =>
      let s := s.disown x
      { s with live := s.live.erase x }

/-- New handles are new, others are alive, and an object that is handed in still exists. -/
def Allowed (s : Scatters H O) : ScatterCall H O → Prop
  | .scatter x => x ∉ s.live
  | .scatterOf x o => x ∉ s.live ∧ s.deletions o = 0
  | .copy x sp => x ∉ s.live ∧ sp ∈ s.live
  | .clone x sp => x ∈ s.live ∧ sp ∈ s.live
  | .assign x sp => x ∈ s.live ∧ sp ∈ s.live
  | .destroy x => x ∈ s.live

/-- No handle is alive, and no object has had one. -/
structure Initial (s : Scatters H O) : Prop where
  live : s.live = ∅
  refCount : ∀ o, s.refCount o = 0
  owned : s.owned = ∅
  deletions : ∀ o, s.deletions o = 0

variable (H O) in
/-- The calls as a transition system. -/
def system : TransitionSystem (Scatters H O) (ScatterCall H O) :=
  .ofCalls Initial Allowed call

/-- The handles on an object. -/
def handles (s : Scatters H O) (o : O) : Finset H :=
  s.live.filter fun x => s.p x = some o

/-- The count of an object is the number of its handles; it has been deleted once if its last handle
has gone, and not at all otherwise. -/
structure CountsExact (s : Scatters H O) : Prop where
  refCount_eq : ∀ o, s.refCount o = (s.handles o).card
  deletions_eq : ∀ o, s.deletions o = if o ∈ s.owned ∧ s.handles o = ∅ then 1 else 0

/-- The handle that is copied has no object. -/
def CopiesEmpty (s : Scatters H O) (a : ScatterCall H O) (_ : Scatters H O) : Prop :=
  match a with
  | .copy _ sp => s.p sp = none
  | _ => True

omit [DecidableEq H] in
@[simp]
theorem mem_handles {s : Scatters H O} {o : O} {x : H} :
    x ∈ s.handles o ↔ x ∈ s.live ∧ s.p x = some o :=
  Finset.mem_filter

/-! ## The reference counts -/

/-- The handles and the counts, without what wraps. -/
def references (s : Scatters H O) : References H O where
  live := s.live
  target := s.p
  count o := s.refCount o
  owned := s.owned
  deletions := s.deletions

/-- Exact references have exact counts. -/
theorem CountsExact.of_exact {s : Scatters H O} (h : s.references.Exact) : s.CountsExact :=
  ⟨fun o => Int.ofNat_inj.mp (h.count_eq o), h.deletions_eq⟩

/-- Holding an object is pointing to it. -/
theorem references_hold (s : Scatters H O) (x : H) (o : O) :
    (s.hold x o).references = s.references.point x o := by
  have hcount : (fun o' => ((s.hold x o).refCount o' : Int)) =
      Function.update (fun o' => (s.refCount o' : Int)) o ((s.refCount o : Int) + 1) := by
    funext o'
    by_cases heq : o' = o
    · subst heq
      simp [hold, Gatherable.incr]
    · simp [hold, heq]
  simp only [references, References.point, hcount]
  rfl

/-- A count of an object with a handle is not zero, so that it does not wrap. -/
theorem references_disown {s : Scatters H O} {x : H} (hexact : s.references.Exact)
    (hx : x ∈ s.live) : (s.disown x).references = s.references.drop x := by
  cases hp : s.p x with
  | none => simp [disown, References.drop, references, hp]
  | some o =>
      have hmem : x ∈ s.handles o := mem_handles.mpr ⟨hx, hp⟩
      have hpos : s.refCount o ≠ 0 := by
        rw [(CountsExact.of_exact hexact).refCount_eq o]
        exact Finset.card_ne_zero_of_mem hmem
      have hdecr : ((Gatherable.decr (s.refCount o) : Nat) : Int) = (s.refCount o : Int) - 1 := by
        rw [Gatherable.decr, if_neg hpos]
        omega
      have hzero : Gatherable.decr (s.refCount o) = 0 ↔ (s.refCount o : Int) - 1 = 0 := by
        omega
      simp only [References.drop, references, disown, hp, Function.update_self]
      congr 1
      · funext o'
        by_cases heq : o' = o
        · subst heq
          simp [hdecr]
        · simp [heq]
      · exact if_congr hzero rfl rfl

theorem p_disown_self {s : Scatters H O} {x : H} : (s.disown x).p x = none := by
  unfold disown
  split
  next hnone => exact hnone
  next => exact Function.update_self _ _ _

/-- Disowning ends no handle. -/
theorem live_disown {s : Scatters H O} {x : H} : (s.disown x).live = s.live := by
  unfold disown
  split
  · rfl
  · rfl

/-! ## Calls -/

section

variable {s : Scatters H O} (hexact : s.references.Exact)
include hexact

/-- Disowning keeps the counts exact. -/
theorem exact_disown {x : H} (hx : x ∈ s.live) : (s.disown x).references.Exact := by
  rw [references_disown hexact hx]
  exact hexact.drop hx

/-- Holding an object that was not deleted keeps the counts exact. -/
theorem exact_hold {x : H} {o : O} (hx : x ∈ s.live) (hnone : s.p x = none)
    (hkept : s.deletions o = 0) : (s.hold x o).references.Exact := by
  rw [references_hold]
  exact hexact.point hx hnone hkept

/-- Only the copy of a handle with an object breaks the counts. -/
theorem exact_call {a : ScatterCall H O} {t : Scatters H O} (hallowed : s.Allowed a)
    (hcopy : s.CopiesEmpty a t) : (s.call a).references.Exact := by
  cases a with
  | scatter x => exact hexact.enter hallowed
  | scatterOf x o =>
      obtain ⟨hfresh, hkept⟩ := hallowed
      have henter : (s.enter x none).references.Exact := hexact.enter hfresh
      exact exact_hold henter (Finset.mem_insert_self _ _) (Function.update_self _ _ _) hkept
  | copy x sp =>
      change (s.enter x (s.p sp)).references.Exact
      rw [show s.p sp = none from hcopy]
      exact hexact.enter hallowed.1
  | clone x sp =>
      have hdisown := exact_disown hexact hallowed.1
      simp only [Allowed, ← live_disown (s := s) (x := x)] at hallowed
      simp only [call]
      split
      · exact hexact
      · split
        · exact hdisown
        next o ho =>
          have hkept := hdisown.deletions_eq_zero hallowed.2 ho
          exact exact_hold hdisown hallowed.1 p_disown_self hkept
  | assign x sp =>
      have hdisown := exact_disown hexact hallowed.1
      simp only [Allowed, ← live_disown (s := s) (x := x)] at hallowed
      exact hdisown.pass hallowed.1 hallowed.2 p_disown_self
  | destroy x => exact (exact_disown hexact hallowed).leave p_disown_self

/-- The copy of a handle with an object is one that the object does not count. -/
theorem countsExact_call_iff {a : ScatterCall H O} {t : Scatters H O} (hallowed : s.Allowed a) :
    (s.call a).CountsExact ↔ s.CopiesEmpty a t := by
  constructor
  · intro hcounts
    cases a with
    | copy x sp =>
        obtain ⟨hfresh, hsp⟩ := hallowed
        change s.p sp = none
        by_contra hne
        obtain ⟨o, ho⟩ := Option.ne_none_iff_exists'.mp hne
        have hhandles : (s.call (.copy x sp)).handles o = insert x (s.handles o) := by
          ext x'
          rw [mem_handles, Finset.mem_insert, mem_handles]
          by_cases heq : x' = x
          · subst heq
            simp [call, enter, ho]
          · simp [call, enter, heq]
        have hcard : (insert x (s.handles o)).card = (s.handles o).card + 1 :=
          Finset.card_insert_of_notMem fun hmem => hfresh (mem_handles.mp hmem).1
        have hold := (CountsExact.of_exact hexact).refCount_eq o
        have hnew : s.refCount o = _ := hcounts.refCount_eq o
        rw [hhandles, hcard] at hnew
        omega
    | scatter x => exact trivial
    | scatterOf x o => exact trivial
    | clone x sp => exact trivial
    | assign x sp => exact trivial
    | destroy x => exact trivial
  · intro hcopy
    exact CountsExact.of_exact (exact_call hexact hallowed hcopy)

end

theorem exact_initial {s : Scatters H O} (h : s.Initial) : s.references.Exact :=
  References.exact_of_empty h.live (fun o => congrArg Int.ofNat (h.refCount o)) h.owned h.deletions

/-- The counts are exact in all states of a run, and every object is deleted once when its last
handle goes, if and only if no call copies a handle that has an object. -/
theorem countsExact_iff {s : Scatters H O} {path : List (ScatterCall H O × Scatters H O)}
    (hinit : s.Initial) (hrun : (system H O).Run s path) :
    TransitionSystem.StatesMeet CountsExact path ↔
      TransitionSystem.StepsMeet CopiesEmpty s path := by
  refine hrun.statesMeet_iff_stepsMeet_of_kept (I := fun s => s.references.Exact) ?_ ?_
    (exact_initial hinit) (CountsExact.of_exact (exact_initial hinit))
  · rintro s a t hexact - ⟨hallowed, rfl⟩ hcopy
    exact exact_call hexact hallowed hcopy
  · rintro s a t hexact - ⟨hallowed, rfl⟩
    exact countsExact_call_iff hexact hallowed

/-! ## Error events -/

/-- No handles and no objects with handles. -/
def empty : Scatters Nat Nat where
  live := ∅
  p := fun _ => none
  refCount := fun _ => 0
  owned := ∅
  deletions := fun _ => 0

theorem initial_empty : empty.Initial :=
  ⟨rfl, fun _ => rfl, rfl, fun _ => rfl⟩

/-- An object is scattered to three handles; one passes it on to itself, and the others go. -/
def clones : List (ScatterCall Nat Nat) :=
  [.scatterOf 0 5, .scatter 1, .clone 1 0, .scatter 2, .clone 2 1, .assign 1 1, .destroy 0,
    .destroy 2]

theorem countsExact_clones :
    TransitionSystem.StatesMeet CountsExact (TransitionSystem.runOf call empty clones) := by
  have hallowed : TransitionSystem.AllAllowed Allowed call empty clones := by
    simp [clones, TransitionSystem.AllAllowed, Allowed, call, enter, hold, disown, empty,
      Gatherable.incr, Gatherable.decr]
  exact (countsExact_iff initial_empty (TransitionSystem.run_runOf hallowed)).mpr
    ⟨trivial, trivial, trivial, trivial, trivial, trivial, trivial, trivial, trivial⟩

/-- The input of an error event is a copy of the input of the event that failed. -/
def errorInput : List (ScatterCall Nat Nat) := [.scatterOf 0 5, .copy 1 0]

theorem exists_not_countsExact :
    ¬ ∀ (s : Scatters Nat Nat) (path : List (ScatterCall Nat Nat × Scatters Nat Nat)),
      s.Initial → (system Nat Nat).Run s path →
      TransitionSystem.StatesMeet CountsExact path := by
  intro hall
  have hrun : (system Nat Nat).Run empty (TransitionSystem.runOf call empty errorInput) :=
    TransitionSystem.run_runOf (by
      simp [errorInput, TransitionSystem.AllAllowed, Allowed, call, enter, hold, empty])
  have hcounts := hall empty _ initial_empty hrun _ (List.mem_of_getElem? (i := 1) rfl)
  have hone := hcounts.refCount_eq 5
  revert hone
  decide

end Scatters

end Runtime
end OFlux
