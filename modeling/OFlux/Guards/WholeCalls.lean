import OFlux.Guards.HandOff
import OFlux.Guards.Order

/-!
# Whole calls

The calls of the run time, as the source has them, are sequences of the steps of the
system, so what holds of every reachable state holds between whole calls.

Main results:

- Theorem {lit}`acquireAllOrWait_leads`: {lit}`acquire_all_or_wait` as steps.
- Theorem {lit}`release_leads`: {lit}`release` as steps.
-/

namespace OFlux
namespace Guards

open Library

variable {I K D : Type} [LinearOrder K] [Inhabited K] {guards : GuardId → Guard}
  {s : State I K D}

/-- The state after a call of {lit}`acquire_all_or_wait`. -/
def State.afterAcquire (s : State I K D) (e : EventId) (rest : List (EventId × Nat))
    (st : Store I K D) (res : Bool) : State I K D :=
  { s with
    store := st,
    acquiring := rest,
    runnable := s.runnable ++ if res then [e] else [] }

/-- The steps of a call lead to the state that it returns. -/
theorem acquireFrom_leads {e : EventId} {rest : List (EventId × Nat)} {st : Store I K D}
    {res : Bool} (left i : Nat) (hinv : Invariant guards s)
    (hcall : s.acquiring = (e, i) :: rest)
    (hsorted : (s.store.events e).isSortedAndKeyed = true)
    (hlen : i + left = (s.store.events e).holders.length)
    (h : s.store.acquireFrom guards e i left = .ok (st, res)) :
    (system I K D guards).Leads s (s.afterAcquire e rest st res) := by
  induction left generalizing s i with
  | zero =>
      cases h
      have hmem : (e, i) ∈ s.acquiring := by simp [hcall]
      have hstep : Step guards s (.ready e) _ := Step.ready hmem hsorted (by omega)
      rw [hcall, List.erase_cons_head] at hstep
      exact TransitionSystem.Leads.head hstep Relation.ReflTransGen.refl
  | succ left ih =>
      have hmem : (e, i) ∈ s.acquiring := by simp [hcall]
      have hlt : i < (s.store.events e).holders.length := by omega
      simp only [Store.acquireFrom] at h
      split at h
      · cases h
      next st1 hvisit =>
        have hstep := Step.acquired hmem hsorted hlt hvisit
        have hinv1 := hinv.step hstep
        rw [hcall, List.erase_cons_head] at hstep hinv1
        have hchanged := (hinv.typed.visited hlt hvisit).changed
        have hrest := ih (i + 1) hinv1 rfl (hchanged.isSortedAndKeyed.trans hsorted)
          (by show i + 1 + left = (st1.events e).holders.length; rw [hchanged.length]; omega) h
        exact TransitionSystem.Leads.head hstep hrest
      next st1 hvisit =>
        cases h
        have hstep := Step.queued hmem hsorted hlt hvisit
        rw [hcall, List.erase_cons_head] at hstep
        refine TransitionSystem.Leads.head hstep ?_
        have hsame : { s with store := st, acquiring := rest } =
            s.afterAcquire e rest st false := by
          simp [State.afterAcquire]
        rw [hsame]
        exact Relation.ReflTransGen.refl

/-- A call of {lit}`acquire_all_or_wait` is a sequence of steps. -/
theorem acquireAllOrWait_leads
    (hmagic : ∀ g g', (guards g).magicNumber = (guards g').magicNumber → g = g')
    {e : EventId} {rest : List (EventId × Nat)} {st : Store I K D} {res : Bool}
    (hinv : Invariant guards s)
    (hcall : s.acquiring = (e, (s.store.events e).workingOn) :: rest)
    (h : s.store.acquireAllOrWait guards e = .ok (st, res)) :
    (system I K D guards).Leads s (s.afterAcquire e rest st res) := by
  have hmem : (e, (s.store.events e).workingOn) ∈ s.acquiring := by simp [hcall]
  have hok := hinv.status e (.acquiring (s.store.events e).workingOn) hmem
  simp only [Store.acquireAllOrWait] at h
  split at h
  next hsorted =>
    have hle := hok.2.1
    exact acquireFrom_leads _ _ hinv hcall hsorted (by omega) h
  next hunsorted =>
    simp only [Bool.not_eq_true] at hunsorted
    split at h
    · cases h
    next st1 hkeysSort =>
      have hzero := hok.2.2.1 hunsorted
      rw [hzero] at hmem
      simp only [Store.getKeysSort] at hkeysSort
      split at hkeysSort
      · cases hkeysSort
      next st0 hkeys =>
        simp only [Except.ok.injEq] at hkeysSort
        subst hkeysSort
        have hstep : Step guards s (.getKeysSort e) { s with
            store := st0.setSorted e (Store.acquisitionOrder guards (st0.events e)) } := by
          refine Step.getKeysSort hmem hunsorted hkeys ?_
          by_cases hcompletely : (st0.events e).isCompletelySorted = true
          · simp [Store.acquisitionOrder, hcompletely]
          · simp only [Store.acquisitionOrder, hcompletely, Bool.false_eq_true, if_false]
            exact HeldAtomic.sortedOrder_insertionSort hmagic _
        have hinv1 := hinv.step hstep
        have hok1 := hinv1.status e (.acquiring 0) hmem
        have hwork := Nat.le_zero.mp hok1.1
        have hlen : ((st0.setSorted e (Store.acquisitionOrder guards (st0.events e))).events
            e).workingOn = 0 := hwork
        refine TransitionSystem.Leads.head hstep ?_
        rw [hlen] at h
        exact acquireFrom_leads _ 0 hinv1 (by rw [← hzero]; exact hcall)
          (by simp [Store.setSorted]) (by simp) h

/-- The loop of a release is a sequence of steps, and hands the released events on. -/
theorem releaseFrom_leads {x : Execution} {others : List Execution} {st : Store I K D}
    {released : List EventId} (left : Nat) (hinv : Invariant guards s)
    (hexecuting : s.executing = x :: others) (hleft : x.releasing = some left)
    (h : s.store.releaseFrom guards x.event left = .ok (st, released)) :
    ∃ t : State I K D, (system I K D guards).Leads s t ∧ t.store = st ∧
      t.executing = { x with releasing := some 0 } :: others ∧
      t.runnable = s.runnable ∧ t.finished = s.finished ∧ t.created = s.created ∧
      (t.acquiring.map Prod.fst).Perm (released ++ s.acquiring.map Prod.fst) := by
  induction left generalizing s x released with
  | zero =>
      cases h
      have hx : { x with releasing := some 0 } = x := by rw [← hleft]
      exact ⟨s, Relation.ReflTransGen.refl, rfl, by rw [hx]; exact hexecuting, rfl, rfl, rfl,
        List.Perm.refl _⟩
  | succ i ih =>
      have hmem : x ∈ s.executing := by simp [hexecuting]
      simp only [Store.releaseFrom] at h
      split at h
      · cases h
      next st1 first hfirst =>
        split at h
        · cases h
        next st2 more hmore =>
          cases h
          have hstep := Step.releaseAt hmem hleft hfirst
          have hinv1 := hinv.step hstep
          rw [hexecuting, List.erase_cons_head] at hstep hinv1
          rcases ih hinv1 rfl rfl hmore with
            ⟨t, hleads, hstore, hexec, hrunnable, hfinished, hcreated, hacquiring⟩
          refine ⟨t, TransitionSystem.Leads.head hstep hleads, hstore, hexec, hrunnable,
            hfinished, hcreated, hacquiring.trans ?_⟩
          have hfst : (first.map fun r => (r, (st1.events r).workingOn)).map Prod.fst = first := by
            simp [Function.comp_def]
          rw [List.map_append, hfst, ← List.append_assoc, List.append_assoc first]
          exact List.Perm.append_right _ List.perm_append_comm |>.trans
            (by rw [List.append_assoc])

/-- A call of {lit}`release` by an event that executes is a sequence of steps. -/
theorem release_leads {x : Execution} {others : List Execution} {st : Store I K D}
    {released : List EventId} (hinv : Invariant guards s)
    (hexecuting : s.executing = x :: others) (hrunning : x.releasing = none) (isLast : Bool)
    (h : s.store.release guards x.event = .ok (st, released)) :
    ∃ t : State I K D, (system I K D guards).Leads s t ∧ t.store = st ∧
      t.executing = { x with releasing := some 0, isLast := isLast } :: others ∧
      t.runnable = s.runnable ∧ t.finished = s.finished ∧ t.created = s.created ∧
      (t.acquiring.map Prod.fst).Perm (released ++ s.acquiring.map Prod.fst) := by
  have hmem : x ∈ s.executing := by simp [hexecuting]
  have hstep : Step guards s (.beginRelease x.event) _ :=
    Step.beginRelease hmem hrunning isLast
  have hinv1 := hinv.step hstep
  rw [hexecuting, List.erase_cons_head] at hstep hinv1
  rcases releaseFrom_leads _ hinv1 rfl rfl h with ⟨t, hleads, hrest⟩
  exact ⟨t, TransitionSystem.Leads.head hstep hleads, hrest⟩

end Guards
end OFlux
