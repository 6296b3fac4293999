import OFlux.Guards.Schedule

/-!
# The hand-off of guards

The working position of an event, the queues of the atomics, the release loop and the
early release agree in every reachable state, whatever the order of the steps.

Main results:

- Theorem {lit}`Invariant.step`: what one step keeps.
- Theorem {lit}`Invariant.releaseAt_spec`: a release finds each event that it hands back
  at its working position.
- Theorem {lit}`Invariant.live_cases`: every live event is in exactly one place.
-/

namespace OFlux
namespace Guards

open Library

variable {I K D : Type}

/-! ## The status of an event -/

/-- What an event is doing, with the details that its place records. -/
inductive Status where
  | acquiring (i : Nat)
  | waiting (q : Queue)
  | runnable
  | executing (x : Execution)
  | finished

/-- The list that an event with that status is in. -/
def Status.place : Status → Place
  | .acquiring _ => .acquiring
  | .waiting q => .queue q
  | .runnable => .runnable
  | .executing _ => .executing
  | .finished => .finished

namespace State

/-- The event has that status. -/
def has (s : State I K D) (e : EventId) : Status → Prop
  | .acquiring i => (e, i) ∈ s.acquiring
  | .waiting q => e ∈ s.store.queue q
  | .runnable => e ∈ s.runnable
  | .executing x => x ∈ s.executing ∧ x.event = e
  | .finished => e ∈ s.finished

/-- An event is where its status says. -/
theorem mem_contents_of_has {s : State I K D} {e : EventId} {σ : Status} (h : s.has e σ) :
    e ∈ s.contents σ.place := by
  cases σ with
  | acquiring i => exact List.mem_map.mpr ⟨(e, i), h, rfl⟩
  | waiting q => exact h
  | runnable => exact h
  | executing x => exact List.mem_map.mpr ⟨x, h.1, h.2⟩
  | finished => exact h

/-- An event at a place has a status there. -/
theorem exists_has_of_mem_contents {s : State I K D} {e : EventId} {p : Place}
    (h : e ∈ s.contents p) : ∃ σ, s.has e σ ∧ σ.place = p := by
  cases p with
  | acquiring =>
      rcases List.mem_map.mp h with ⟨⟨e', i⟩, hmem, rfl⟩
      exact ⟨.acquiring i, hmem, rfl⟩
  | runnable => exact ⟨.runnable, h, rfl⟩
  | executing =>
      rcases List.mem_map.mp h with ⟨x, hmem, hx⟩
      exact ⟨.executing x, ⟨hmem, hx⟩, rfl⟩
  | finished => exact ⟨.finished, h, rfl⟩
  | queue q => exact ⟨.waiting q, h, rfl⟩

/-- Whoever waits is read off the queues. -/
theorem has_waiting_of_queue {s t : State I K D} {e : EventId} {q : Queue}
    (hq : t.store.queue q = s.store.queue q) :
    t.has e (.waiting q) ↔ s.has e (.waiting q) := by
  simp only [has, hq]

end State

/-- Every reference below a position is held or skipped. -/
def HeldBelow (ev : Event I K D) (n : Nat) : Prop :=
  ∀ j ha, j < n → ev.holders[j]? = some ha → ha.HeldOrSkipped

/-- No reference from a position on is held. -/
def FreeFrom (ev : Event I K D) (n : Nat) : Prop :=
  ∀ j ha, n ≤ j → ev.holders[j]? = some ha → ha.haveit = false

/-- What the status of an event says about its atomics holder. -/
def StatusOk (st : Store I K D) (ev : Event I K D) : Status → Prop
  | .acquiring i =>
      ev.workingOn ≤ i ∧ i ≤ ev.holders.length ∧ (ev.isSortedAndKeyed = false → i = 0) ∧
        HeldBelow ev i ∧ FreeFrom ev i
  | .waiting q =>
      ev.isSortedAndKeyed = true ∧ HeldBelow ev ev.workingOn ∧ FreeFrom ev ev.workingOn ∧
        st.WaitsAt ev q
  | .runnable =>
      ev.workingOn ≤ ev.holders.length ∧ ∀ ha ∈ ev.holders, ha.HeldOrSkipped
  | .executing x =>
      (ev.workingOn ≤ ev.holders.length ∧ ∀ ha ∈ ev.holders, ha.HeldOrSkipped) ∧
        (∀ k, x.releasing = some k → k ≤ ev.holders.length ∧
          ∀ j ha, k ≤ j → ev.holders[j]? = some ha → ha.atom = none) ∧
        (x.released = true → ∀ ha ∈ ev.holders, ha.atom = none)
  | .finished => True

/-- What every run keeps. -/
structure Invariant [Inhabited K] (guards : GuardId → Guard) (s : State I K D) : Prop where
  typed : Store.Typed guards s.store
  located : ∃ place, Located s.contents place ∧ ∀ e, place e ≠ none ↔ e < s.created
  status : ∀ e σ, s.has e σ → StatusOk s.store (s.store.events e) σ

variable [Inhabited K] {guards : GuardId → Guard} {s t : State I K D}

theorem StatusOk.mono {st st' : Store I K D} {e : EventId} {σ : Status}
    (h : StatusOk st (st.events e) σ) (htyped : Store.Typed guards st)
    (hwf : Store.WellFormed guards st') (hext : st.Extends st') :
    StatusOk st' (st.events e) σ := by
  cases σ with
  | waiting q => exact ⟨h.1, h.2.1, h.2.2.1, h.2.2.2.mono htyped hwf hext⟩
  | acquiring i => exact h
  | runnable => exact h
  | executing x => exact h
  | finished => exact h

namespace Invariant

theorem nodup (h : Invariant guards s) (p : Place) : (s.contents p).Nodup := by
  rcases h.located with ⟨place, hlocated, -⟩
  exact hlocated.nodup p

/-- An event has one status. -/
theorem status_unique (h : Invariant guards s) {e : EventId} {σ σ' : Status}
    (hσ : s.has e σ) (hσ' : s.has e σ') : σ = σ' := by
  rcases h.located with ⟨place, hlocated, -⟩
  have hplace : σ.place = σ'.place := Option.some_injective _
    ((hlocated.mem_iff.mp (State.mem_contents_of_has hσ)).symm.trans
      (hlocated.mem_iff.mp (State.mem_contents_of_has hσ')))
  cases σ with
  | acquiring i =>
      cases σ' <;> simp [Status.place] at hplace
      next j =>
        have hpair := List.inj_on_of_nodup_map (h.nodup .acquiring) hσ hσ' rfl
        cases hpair
        rfl
  | waiting q =>
      cases σ' <;> simp [Status.place] at hplace
      rw [hplace]
  | runnable =>
      cases σ' <;> simp [Status.place] at hplace
      rfl
  | executing x =>
      cases σ' <;> simp [Status.place] at hplace
      next y =>
        have hexec := List.inj_on_of_nodup_map (h.nodup .executing) hσ.1 hσ'.1
          (hσ.2.trans hσ'.2.symm)
        rw [hexec]
  | finished =>
      cases σ' <;> simp [Status.place] at hplace
      rfl

/-- Some events leave their status; every status that is new is right, and all others
were there before. -/
theorem of_moved (h : Invariant guards s) (moved new : EventId → Status → Prop)
    (hmoved : ∀ x σ, moved x σ → s.has x σ) (htyped : Store.Typed guards t.store)
    (hext : s.store.Extends t.store)
    (hlocated : ∃ place, Located t.contents place ∧ ∀ e, place e ≠ none ↔ e < t.created)
    (hothers : ∀ x, (∀ σ, ¬ moved x σ) → t.store.events x = s.store.events x)
    (hsplit : ∀ x σ, t.has x σ → new x σ ∨ s.has x σ ∧ ¬ moved x σ)
    (hnew : ∀ x σ, new x σ → StatusOk t.store (t.store.events x) σ) :
    Invariant guards t := by
  refine ⟨htyped, hlocated, fun x σ hx => ?_⟩
  rcases hsplit x σ hx with hn | ⟨hs, hstays⟩
  · exact hnew x σ hn
  · have hsame : t.store.events x = s.store.events x := by
      apply hothers
      intro σ' hσ'
      cases h.status_unique hs (hmoved x σ' hσ')
      exact hstays hσ'
    rw [hsame]
    exact (h.status x σ hs).mono h.typed htyped.wellFormed hext

/-- One event acts and leaves its status. -/
theorem of_acting (h : Invariant guards s) {e : EventId} {σ0 : Status} (h0 : s.has e σ0)
    (new : Status → Prop) (htyped : Store.Typed guards t.store)
    (hext : s.store.Extends t.store)
    (hlocated : ∃ place, Located t.contents place ∧ ∀ e, place e ≠ none ↔ e < t.created)
    (hothers : ∀ x, x ≠ e → t.store.events x = s.store.events x)
    (hsplit : ∀ x σ, t.has x σ → x = e ∧ new σ ∨ s.has x σ ∧ (x = e → σ ≠ σ0))
    (hnew : ∀ σ, new σ → StatusOk t.store (t.store.events e) σ) : Invariant guards t := by
  refine h.of_moved (fun x σ => x = e ∧ σ = σ0) (fun x σ => x = e ∧ new σ) ?_ htyped hext
    hlocated (fun x hx => hothers x fun heq => hx σ0 ⟨heq, rfl⟩) (fun x σ hσ => ?_) ?_
  · intro x σ ⟨hx, hσ⟩
    rw [hx, hσ]
    exact h0
  · rcases hsplit x σ hσ with hn | ⟨hs, hne⟩
    · exact Or.inl hn
    · exact Or.inr ⟨hs, fun hm => hne hm.1 hm.2⟩
  · intro x σ ⟨hx, hσ⟩
    rw [hx]
    exact hnew σ hσ

/-- Ending one call leaves the others acquiring. -/
theorem has_of_erase_acquiring (h : Invariant guards s) {x e : EventId} {j i : Nat}
    (hmem : (x, j) ∈ s.acquiring.erase (e, i)) :
    s.has x (.acquiring j) ∧ (x = e → Status.acquiring j ≠ .acquiring i) := by
  have hnodup : s.acquiring.Nodup := (h.nodup .acquiring).of_map _
  rcases hnodup.mem_erase_iff.mp hmem with ⟨hne, hmem'⟩
  refine ⟨hmem', fun hx hσ => hne ?_⟩
  cases hσ
  rw [hx]

/-- Starting one event leaves the others runnable. -/
theorem has_of_erase_runnable (h : Invariant guards s) {x e : EventId}
    (hmem : x ∈ s.runnable.erase e) :
    s.has x .runnable ∧ (x = e → Status.runnable ≠ .runnable) := by
  rcases (h.nodup .runnable).mem_erase_iff.mp hmem with ⟨hne, hmem'⟩
  exact ⟨hmem', fun hx => absurd hx hne⟩

/-- Ending one execution leaves the others. -/
theorem has_of_erase_executing (h : Invariant guards s) {x : EventId} {y z : Execution}
    (hmem : y ∈ s.executing.erase z) (hy : y.event = x) :
    s.has x (.executing y) ∧ (x = z.event → Status.executing y ≠ .executing z) := by
  have hnodup : s.executing.Nodup := (h.nodup .executing).of_map _
  rcases hnodup.mem_erase_iff.mp hmem with ⟨hne, hmem'⟩
  refine ⟨⟨hmem', hy⟩, fun _ hσ => hne ?_⟩
  cases hσ
  rfl

/-- The store of a state is consistent. -/
theorem consistent (h : Invariant guards s) : Store.Consistent guards s.store where
  toTyped := h.typed
  waiting q x hx := (h.status x (.waiting q) hx).2.2.2
  nodup q := h.nodup (.queue q)

/-- An event with a status was created. -/
theorem lt_created (h : Invariant guards s) {e : EventId} {σ : Status} (hσ : s.has e σ) :
    e < s.created := by
  rcases h.located with ⟨place, hlocated, hplace⟩
  apply (hplace e).mp
  rw [hlocated.mem_iff.mp (State.mem_contents_of_has hσ)]
  exact Option.some_ne_none _

/-! ## Locations -/

/-- Events that stay where they are stay located. -/
theorem located_of_perm (h : Invariant guards s) (hcreated : t.created = s.created)
    (hperm : ∀ p, (t.contents p).Perm (s.contents p)) :
    ∃ place, Located t.contents place ∧ ∀ e, place e ≠ none ↔ e < t.created := by
  rcases h.located with ⟨place, hlocated, hplace⟩
  exact ⟨place, hlocated.congr hperm, fun e => by rw [hplace e, hcreated]⟩

/-- Events that have a place move to another one. -/
theorem located_of_moveAll (h : Invariant guards s) (hcreated : t.created = s.created)
    (xs : List EventId) {p q : Place} (hne : p ≠ q)
    (hfrom : (s.contents p).Perm (xs ++ t.contents p))
    (hto : (t.contents q).Perm (xs ++ s.contents q))
    (hrest : ∀ r, r ≠ p → r ≠ q → (t.contents r).Perm (s.contents r)) :
    ∃ place, Located t.contents place ∧ ∀ e, place e ≠ none ↔ e < t.created := by
  rcases h.located with ⟨place, hlocated, hplace⟩
  refine ⟨_, hlocated.moveAll hne hfrom hto hrest, fun e => ?_⟩
  rw [hcreated, ← hplace e]
  by_cases he : e ∈ xs
  · have hat : place e = some p := hlocated.mem_iff.mp (hfrom.mem_iff.mpr (by simp [he]))
    simp [he, hat]
  · simp [he]

/-- Moving one event keeps the events located. -/
theorem located_of_move (h : Invariant guards s) (hcreated : t.created = s.created)
    {x : EventId} {p q : Place} (hne : p ≠ q)
    (hfrom : (s.contents p).Perm (x :: t.contents p))
    (hto : (t.contents q).Perm (x :: s.contents q))
    (hrest : ∀ r, r ≠ p → r ≠ q → (t.contents r).Perm (s.contents r)) :
    ∃ place, Located t.contents place ∧ ∀ e, place e ≠ none ↔ e < t.created :=
  h.located_of_moveAll hcreated [x] hne hfrom hto hrest

/-! ## One lemma for each step -/

/-- Creating an event keeps the invariant. -/
theorem create (h : Invariant guards s) (node : Node guards I K D) (input : I) :
    Invariant guards { s with
      store := s.store.setEvent s.created (node.newEvent input),
      created := s.created + 1,
      acquiring := (s.created, 0) :: s.acquiring } := by
  have hshape := Store.sameShape_setEvent s.store s.created (node.newEvent input)
  have hqueue : ∀ q, (s.store.setEvent s.created (node.newEvent input)).queue q =
      s.store.queue q := Store.queue_setEvent _ _ _
  refine ⟨?_, ?_, fun x σ hσ => ?_⟩
  · refine ⟨h.typed.wellFormed.of_sameShape hshape, fun x ha hha => ?_, fun x ha hha => ?_⟩
    · by_cases hx : x = s.created
      · subst hx
        rw [Store.events_setEvent_self] at hha
        rcases List.mem_map.mp hha with ⟨ref, -, rfl⟩
        intro p hp
        cases hp
      · rw [Store.events_setEvent_ne _ hx] at hha
        exact (h.typed.referred x ha hha).mono hshape.extends
    · by_cases hx : x = s.created
      · subst hx
        rw [Store.events_setEvent_self] at hha
        rcases List.mem_map.mp hha with ⟨ref, href, rfl⟩
        exact node.poolMode ref href
      · rw [Store.events_setEvent_ne _ hx] at hha
        exact h.typed.poolMode x ha hha
  · rcases h.located with ⟨place, hlocated, hplace⟩
    have hnew : place s.created = none := by
      by_contra hsome
      exact absurd ((hplace _).mp hsome) (lt_irrefl _)
    refine ⟨_, hlocated.enter (q := .acquiring) hnew ?_ ?_, fun e => ?_⟩
    · exact List.Perm.refl _
    · intro r hr
      cases r with
      | acquiring => exact absurd rfl hr
      | queue q => exact List.Perm.of_eq (hqueue q)
      | _ => exact List.Perm.refl _
    · by_cases he : e = s.created
      · subst he
        simp
      · rw [Function.update_of_ne he, hplace e]
        exact ⟨Nat.lt_succ_of_lt, fun hlt => Nat.lt_of_le_of_ne (Nat.lt_succ_iff.mp hlt) he⟩
  · have hold : s.has x σ ∨ x = s.created ∧ σ = .acquiring 0 := by
      cases σ with
      | acquiring i =>
          rcases List.mem_cons.mp hσ with heq | hmem
          · cases heq
            exact Or.inr ⟨rfl, rfl⟩
          · exact Or.inl hmem
      | waiting q => exact Or.inl ((State.has_waiting_of_queue (hqueue q)).mp hσ)
      | _ => exact Or.inl hσ
    rcases hold with hs | ⟨rfl, rfl⟩
    · have hx : x ≠ s.created := (h.lt_created hs).ne
      show StatusOk _ ((s.store.setEvent s.created (node.newEvent input)).events x) σ
      rw [Store.events_setEvent_ne _ hx]
      exact (h.status x σ hs).mono h.typed (h.typed.wellFormed.of_sameShape hshape)
        hshape.extends
    · show StatusOk _ ((s.store.setEvent s.created (node.newEvent input)).events s.created) _
      rw [Store.events_setEvent_self]
      refine ⟨le_rfl, Nat.zero_le _, fun _ => rfl, fun j ha hj => absurd hj (Nat.not_lt_zero j),
        fun j ha _ hj => ?_⟩
      rcases List.mem_map.mp (List.mem_of_getElem? hj) with ⟨ref, -, rfl⟩
      rfl

section Acquisition

variable [LinearOrder K]

omit [LinearOrder K] in
/-- A visit keeps the store typed. -/
theorem typed_of_visited (h : Invariant guards s) {e : EventId} {i : Nat}
    {st : Store I K D} {res : Bool} (hv : Store.Visited guards s.store e i st res) :
    Store.Typed guards st :=
  h.typed.of_event hv.wellFormed hv.extendsOld hv.others
    (Store.exists_ref_of_map_eq hv.changed.refs)
    (Store.forall_holders_of_changed hv.changed (h.typed.referred e)
      (fun _ hold => hold.mono hv.extendsOld) hv.referred)

/-- Computing and sorting the keys keeps the invariant. -/
theorem getKeysSort (h : Invariant guards s) {e : EventId} {st : Store I K D}
    {sorted : List (HeldAtomic I K D)} (hcall : (e, 0) ∈ s.acquiring)
    (hkeys : s.store.getKeys guards e (List.range (s.store.events e).holders.length) = .ok st)
    (hperm : sorted.Perm (st.events e).holders) :
    Invariant guards { s with store := st.setSorted e sorted } := by
  have hk := Store.keyed_of_getKeys _ h.typed.wellFormed (h.typed.referred e) hkeys
  have hshape : st.SameShape (st.setSorted e sorted) := Store.sameShape_setEvent _ _ _
  have hqueue : ∀ q, (st.setSorted e sorted).queue q = s.store.queue q := by
    intro q
    rw [Store.setSorted, Store.queue_setEvent, hk.queue q]
  have hothers : ∀ x, x ≠ e → (st.setSorted e sorted).events x = s.store.events x := by
    intro x hx
    rw [Store.setSorted, Store.events_setEvent_ne _ hx, hk.others x hx]
  have hevent : (st.setSorted e sorted).events e =
      { st.events e with holders := sorted, isSortedAndKeyed := true } :=
    Store.events_setEvent_self _
  have hmem : ∀ ha, ha ∈ ((st.setSorted e sorted).events e).holders ↔
      ha ∈ (st.events e).holders := by
    intro ha
    rw [hevent]
    exact hperm.mem_iff
  have hfree : ∀ ha ∈ (st.events e).holders, ha.haveit = false := by
    -- nothing was held before the keys were in
    intro ha hha
    have hmap : ha.haveit ∈ (s.store.events e).holders.map HeldAtomic.haveit := by
      rw [← hk.haveit]
      exact List.mem_map_of_mem hha
    rcases List.mem_map.mp hmap with ⟨ha0, hha0, hsame⟩
    rcases List.getElem?_of_mem hha0 with ⟨j, hj⟩
    rw [← hsame]
    exact (h.status e (.acquiring 0) hcall).2.2.2.2 j ha0 (Nat.zero_le j) hj
  have hcall' : s.has e (.acquiring 0) := hcall
  refine h.of_acting hcall' (fun σ => σ = .acquiring 0) ?_
    (hk.extendsOld.trans hshape.extends) ?_ hothers ?_ ?_
  · refine h.typed.of_event (hk.wellFormed.of_sameShape hshape)
      (hk.extendsOld.trans hshape.extends) hothers (fun ha hha => ?_) (fun ha hha => ?_)
    · exact Store.exists_ref_of_map_eq hk.refs ha ((hmem ha).mp hha)
    · exact (hk.referred ha ((hmem ha).mp hha)).mono hshape.extends
  · exact h.located_of_perm rfl fun p => by
      cases p with
      | queue q => exact List.Perm.of_eq (hqueue q)
      | _ => exact List.Perm.refl _
  · intro x σ hσ
    have hs : s.has x σ := by
      cases σ with
      | waiting q => exact (State.has_waiting_of_queue (hqueue q)).mp hσ
      | _ => exact hσ
    by_cases hx : x = e
    · subst hx
      exact Or.inl ⟨rfl, h.status_unique hs hcall'⟩
    · exact Or.inr ⟨hs, fun heq => absurd heq hx⟩
  · intro σ hσ
    subst hσ
    have hwork := (h.status e (.acquiring 0) hcall).1
    refine ⟨?_, Nat.zero_le _, fun _ => rfl, fun j ha hj => absurd hj (Nat.not_lt_zero j),
      fun j ha _ hj => hfree ha ((hmem ha).mp (List.mem_of_getElem? hj))⟩
    rw [hevent]
    show (st.events e).workingOn ≤ 0
    rw [hk.workingOn]
    exact hwork

/-- An acquired guard keeps the invariant. -/
theorem acquired (h : Invariant guards s) {e : EventId} {i : Nat} {st : Store I K D}
    (hcall : (e, i) ∈ s.acquiring) (hsorted : (s.store.events e).isSortedAndKeyed = true)
    (hlt : i < (s.store.events e).holders.length)
    (hvisit : s.store.visit guards e i = .ok (st, true)) :
    Invariant guards { s with
      store := st,
      acquiring := (e, i + 1) :: s.acquiring.erase (e, i) } := by
  have hv := h.typed.visited hlt hvisit
  have hgranted := hv.granted rfl
  have hcall' : s.has e (.acquiring i) := hcall
  have hok := h.status e (.acquiring i) hcall
  refine h.of_acting hcall' (fun σ => σ = .acquiring (i + 1))
    (h.typed_of_visited hv) hv.extendsOld ?_ hv.others ?_ ?_
  · exact h.located_of_perm rfl fun p => by
      cases p with
      | queue q => exact List.Perm.of_eq (hgranted.1 q)
      | acquiring => exact ((List.perm_cons_erase hcall).map Prod.fst).symm
      | _ => exact List.Perm.refl _
  · intro x σ hσ
    cases σ with
    | acquiring j =>
        rcases List.mem_cons.mp hσ with heq | hmem
        · cases heq
          exact Or.inl ⟨rfl, rfl⟩
        · exact Or.inr (h.has_of_erase_acquiring hmem)
    | waiting q =>
        exact Or.inr ⟨(State.has_waiting_of_queue (hgranted.1 q)).mp hσ, fun _ => by simp⟩
    | _ => exact Or.inr ⟨hσ, fun _ => by simp⟩
  · intro σ hσ
    subst hσ
    have hlen := hv.changed.length
    have hwork := hok.1
    refine ⟨?_, ?_, fun hno => ?_, ?_, ?_⟩
    · show (st.events e).workingOn ≤ i + 1
      rw [hv.workingOn]
      omega
    · show i + 1 ≤ (st.events e).holders.length
      omega
    · rw [hv.changed.isSortedAndKeyed, hsorted] at hno
      cases hno
    · -- the position just passed joins those below it
      intro k ha hk hget
      by_cases hki : k = i
      · subst hki
        exact hgranted.2 ha hget
      · rw [hv.changed.elsewhere k hki] at hget
        exact hok.2.2.2.1 k ha (by omega) hget
    · intro k ha hk hget
      rw [hv.changed.elsewhere k (by omega)] at hget
      exact hok.2.2.2.2 k ha (by omega) hget

/-- A guard that has to be waited for keeps the invariant. -/
theorem queued (h : Invariant guards s) {e : EventId} {i : Nat} {st : Store I K D}
    (hcall : (e, i) ∈ s.acquiring) (hsorted : (s.store.events e).isSortedAndKeyed = true)
    (hlt : i < (s.store.events e).holders.length)
    (hvisit : s.store.visit guards e i = .ok (st, false)) :
    Invariant guards { s with
      store := st,
      acquiring := s.acquiring.erase (e, i) } := by
  have hv := h.typed.visited hlt hvisit
  rcases hv.waits rfl with ⟨ha', p, hget, hp, hfree, hqueue⟩
  have hok := h.status e (.acquiring i) hcall
  have hwork : (st.events e).workingOn = i := by
    rw [hv.workingOn]
    have hle := hok.1
    omega
  have hcall' : s.has e (.acquiring i) := hcall
  refine h.of_acting hcall' (fun σ => σ = .waiting (st.queueOf p))
    (h.typed_of_visited hv) hv.extendsOld ?_ hv.others ?_ ?_
  · refine h.located_of_move (x := e) (p := .acquiring) (q := .queue (st.queueOf p)) rfl
      (by simp) ((List.perm_cons_erase hcall).map Prod.fst) ?_ ?_
    · show (st.queue (st.queueOf p)).Perm (e :: s.store.queue (st.queueOf p))
      rw [hqueue, if_pos rfl]
      exact List.perm_append_singleton e _
    · intro r hr hrq
      cases r with
      | acquiring => exact absurd rfl hr
      | queue q =>
          have hne : q ≠ st.queueOf p := fun heq => hrq (by rw [heq])
          exact List.Perm.of_eq ((hqueue q).trans (if_neg hne))
      | _ => exact List.Perm.refl _
  · intro x σ hσ
    cases σ with
    | acquiring j => exact Or.inr (h.has_of_erase_acquiring hσ)
    | waiting q =>
        have hmem : x ∈ st.queue q := hσ
        rw [hqueue q] at hmem
        split at hmem
        next hq =>
          subst hq
          rcases List.mem_append.mp hmem with hold | hnew
          · exact Or.inr ⟨hold, fun _ => by simp⟩
          · exact Or.inl ⟨List.mem_singleton.mp hnew, rfl⟩
        · exact Or.inr ⟨hmem, fun _ => by simp⟩
    | _ => exact Or.inr ⟨hσ, fun _ => by simp⟩
  · intro σ hσ
    subst hσ
    refine ⟨hv.changed.isSortedAndKeyed.trans hsorted, ?_, ?_, ha', p, ?_, hp, hfree, rfl⟩
    · intro k ha hk hgetk
      have hki : k < i := hwork ▸ hk
      rw [hv.changed.elsewhere k (by omega)] at hgetk
      exact hok.2.2.2.1 k ha hki hgetk
    · intro k ha hk hgetk
      have hki : i ≤ k := hwork ▸ hk
      by_cases hk' : k = i
      · subst hk'
        cases hget.symm.trans hgetk
        exact hfree
      · rw [hv.changed.elsewhere k hk'] at hgetk
        exact hok.2.2.2.2 k ha hki hgetk
    · show (st.events e).holders[(st.events e).workingOn]? = some ha'
      rw [hwork]
      exact hget

omit [LinearOrder K] in
/-- An event with all its guards becomes runnable. -/
theorem ready (h : Invariant guards s) {e : EventId} {i : Nat}
    (hcall : (e, i) ∈ s.acquiring) (hend : (s.store.events e).holders.length ≤ i) :
    Invariant guards { s with
      acquiring := s.acquiring.erase (e, i),
      runnable := s.runnable ++ [e] } := by
  have hcall' : s.has e (.acquiring i) := hcall
  have hok := h.status e (.acquiring i) hcall
  refine h.of_acting hcall' (fun σ => σ = .runnable) h.typed
    (Store.Extends.refl _) ?_ (fun _ _ => rfl) ?_ ?_
  · refine h.located_of_move (x := e) (p := .acquiring) (q := .runnable) rfl (by simp)
      ((List.perm_cons_erase hcall).map Prod.fst) (List.perm_append_singleton e _) ?_
    intro r hr hrq
    cases r with
    | acquiring => exact absurd rfl hr
    | runnable => exact absurd rfl hrq
    | _ => exact List.Perm.refl _
  · intro x σ hσ
    cases σ with
    | acquiring j => exact Or.inr (h.has_of_erase_acquiring hσ)
    | runnable =>
        rcases List.mem_append.mp hσ with hold | hnew
        · exact Or.inr ⟨hold, fun _ => by simp⟩
        · exact Or.inl ⟨List.mem_singleton.mp hnew, rfl⟩
    | _ => exact Or.inr ⟨hσ, fun _ => by simp⟩
  · intro σ hσ
    subst hσ
    refine ⟨hok.1.trans hok.2.1, fun ha hha => ?_⟩
    rcases List.getElem?_of_mem hha with ⟨j, hj⟩
    exact hok.2.2.2.1 j ha (lt_of_lt_of_le (List.getElem?_eq_some_iff.mp hj).1 hend) hj

end Acquisition

/-- Starting an event keeps the invariant. -/
theorem start (h : Invariant guards s) {e : EventId} (hrunnable : e ∈ s.runnable) :
    Invariant guards { s with
      runnable := s.runnable.erase e,
      executing := { event := e } :: s.executing } := by
  have hcall' : s.has e .runnable := hrunnable
  refine h.of_acting hcall' (fun σ => σ = .executing { event := e }) h.typed
    (Store.Extends.refl _) ?_ (fun _ _ => rfl) ?_ ?_
  · refine h.located_of_move (x := e) (p := .runnable) (q := .executing) rfl (by simp)
      (List.perm_cons_erase hrunnable) (List.Perm.refl _) ?_
    intro r hr hrq
    cases r with
    | runnable => exact absurd rfl hr
    | executing => exact absurd rfl hrq
    | _ => exact List.Perm.refl _
  · intro x σ hσ
    cases σ with
    | runnable => exact Or.inr (h.has_of_erase_runnable hσ)
    | executing y =>
        rcases hσ with ⟨hy, rfl⟩
        rcases List.mem_cons.mp hy with rfl | hmem
        · exact Or.inl ⟨rfl, rfl⟩
        · exact Or.inr ⟨⟨hmem, rfl⟩, fun _ => by simp⟩
    | _ => exact Or.inr ⟨hσ, fun _ => by simp⟩
  · intro σ hσ
    subst hσ
    exact ⟨h.status e .runnable hrunnable, fun k hk => by simp at hk, fun hno => by simp at hno⟩

/-- Writing data keeps the invariant. -/
theorem write (h : Invariant guards s) (p : AtomicPtr) (d : Option D) :
    Invariant guards { s with store := s.store.setData p d } := by
  have hshape := Store.sameShape_setData s.store p d
  have hevents : (s.store.setData p d).events = s.store.events := Store.events_setData p d
  have hqueue : ∀ q, (s.store.setData p d).queue q = s.store.queue q :=
    Store.queue_setData _ p d
  refine h.of_moved (fun _ _ => False) (fun _ _ => False) (fun _ _ hno => hno.elim) ?_
    hshape.extends ?_ (fun x _ => congrFun hevents x) (fun x σ hσ => Or.inr ⟨?_, id⟩)
    fun _ _ hno => hno.elim
  · exact h.typed.of_refersAs (h.typed.wellFormed.of_sameShape hshape) hshape.extends
      fun x => by rw [hevents]; exact Store.RefersAs.refl _
  · exact h.located_of_perm rfl fun r => by
      cases r with
      | queue q => exact List.Perm.of_eq (hqueue q)
      | _ => exact List.Perm.refl _
  · cases σ with
    | waiting q => exact (State.has_waiting_of_queue (hqueue q)).mp hσ
    | _ => exact hσ

/-! ## Steps of a release -/

/-- An execution changes its record, and the events stay where they are. -/
theorem setExecution (h : Invariant guards s) {x x' : Execution} (hx : x ∈ s.executing)
    (hevent : x'.event = x.event)
    (hok : StatusOk s.store (s.store.events x.event) (.executing x')) :
    Invariant guards { s with executing := x' :: s.executing.erase x } := by
  have hcall' : s.has x.event (.executing x) := ⟨hx, rfl⟩
  refine h.of_acting hcall' (fun σ => σ = .executing x') h.typed (Store.Extends.refl _) ?_
    (fun _ _ => rfl) ?_ ?_
  · exact h.located_of_perm rfl fun p => by
      cases p with
      | executing =>
          have hperm := (List.perm_cons_erase hx).map Execution.event
          rw [List.map_cons, ← hevent] at hperm
          exact hperm.symm
      | _ => exact List.Perm.refl _
  · intro y σ hσ
    cases σ with
    | executing z =>
        rcases hσ with ⟨hz, hy⟩
        rcases List.mem_cons.mp hz with rfl | hmem
        · exact Or.inl ⟨hy.symm.trans hevent, rfl⟩
        · exact Or.inr (h.has_of_erase_executing hmem hy)
    | _ => exact Or.inr ⟨hσ, fun _ => by simp⟩
  · intro σ hσ
    subst hσ
    exact hok

/-- Beginning to release keeps the invariant. -/
theorem beginRelease (h : Invariant guards s) {x : Execution} (hx : x ∈ s.executing)
    (isLast : Bool) :
    Invariant guards { s with
      executing := { x with
        releasing := some (s.store.events x.event).holders.length,
        isLast := isLast } :: s.executing.erase x } := by
  have hold := h.status x.event (.executing x) ⟨hx, rfl⟩
  refine h.setExecution hx rfl ⟨hold.1, fun k hk => ?_, hold.2.2⟩
  cases hk
  refine ⟨le_rfl, fun j ha hj hget => ?_⟩
  have hlt := (List.getElem?_eq_some_iff.mp hget).1
  omega

/-- An event with no guard left to release keeps the invariant. -/
theorem releasedEarly (h : Invariant guards s) {x : Execution} (hx : x ∈ s.executing)
    (hleft : x.releasing = some 0) :
    Invariant guards { s with
      executing := { x with releasing := none, released := true } :: s.executing.erase x } := by
  have hold := h.status x.event (.executing x) ⟨hx, rfl⟩
  refine h.setExecution hx rfl ⟨hold.1, fun k hk => by simp at hk, fun _ ha hha => ?_⟩
  rcases List.getElem?_of_mem hha with ⟨j, hj⟩
  exact (hold.2.1 0 hleft).2 j ha (Nat.zero_le j) hj

/-- Ending an execution keeps the invariant. -/
theorem finish (h : Invariant guards s) {x : Execution} (hx : x ∈ s.executing) :
    Invariant guards { s with
      executing := s.executing.erase x,
      finished := x.event :: s.finished } := by
  have hcall' : s.has x.event (.executing x) := ⟨hx, rfl⟩
  refine h.of_acting hcall' (fun σ => σ = .finished) h.typed (Store.Extends.refl _) ?_
    (fun _ _ => rfl) ?_ ?_
  · refine h.located_of_move (x := x.event) (p := .executing) (q := .finished) rfl (by simp)
      ((List.perm_cons_erase hx).map Execution.event) (List.Perm.refl _) ?_
    intro r hr hrq
    cases r with
    | executing => exact absurd rfl hr
    | finished => exact absurd rfl hrq
    | _ => exact List.Perm.refl _
  · intro y σ hσ
    cases σ with
    | executing z => exact Or.inr (h.has_of_erase_executing hσ.1 hσ.2)
    | finished =>
        rcases List.mem_cons.mp hσ with rfl | hmem
        · exact Or.inl ⟨rfl, rfl⟩
        · exact Or.inr ⟨hmem, fun _ => by simp⟩
    | _ => exact Or.inr ⟨hσ, fun _ => by simp⟩
  · intro σ hσ
    subst hσ
    trivial

omit [Inhabited K] in
/-- A waiting event that takes the atomic over goes on behind it. -/
theorem statusOk_taken {st st' : Store I K D} {ev : Event I K D} {q : Queue}
    (h : StatusOk st ev (.waiting q)) :
    StatusOk st' ev.taken (.acquiring ev.taken.workingOn) := by
  rcases h with ⟨hsorted, hbelow, hfree, ha, p, hget, -, -⟩
  have hlt := (List.getElem?_eq_some_iff.mp hget).1
  have htaken : ev.taken = { ev with
      holders := ev.holders.set ev.workingOn { ha with haveit := true },
      workingOn := ev.workingOn + 1 } := by
    simp [Event.taken, hget]
  rw [htaken]
  refine ⟨le_rfl, ?_, fun hno => ?_, fun j hj hlt' hget' => ?_,
    fun j hj hle hget' => ?_⟩
  · simp only [List.length_set]
    exact hlt
  · simp [hsorted] at hno
  · by_cases hjw : j = ev.workingOn
    · subst hjw
      simp [hlt] at hget'
      rw [← hget']
      exact Or.inl rfl
    · simp only [List.getElem?_set_ne (Ne.symm hjw)] at hget'
      refine hbelow j hj ?_ hget'
      simp only at hlt'
      omega
  · simp only at hle
    simp only [List.getElem?_set_ne (show ev.workingOn ≠ j by omega)] at hget'
    exact hfree j hj (by omega) hget'

omit [Inhabited K] in
/-- The releasing event has one position less to release. -/
theorem statusOk_released {st st' : Store I K D} {ev : Event I K D} {x : Execution} {i : Nat}
    {ha' : HeldAtomic I K D} (h : StatusOk st ev (.executing x))
    (hleft : x.releasing = some (i + 1)) (hatom : ha'.atom = none) :
    StatusOk st' { ev with holders := ev.holders.set i ha' }
      (.executing { x with releasing := some i }) := by
  have hset : ∀ ha ∈ ev.holders.set i ha', ha.atom = none ∨ ha ∈ ev.holders := by
    intro ha hmem
    rcases List.mem_or_eq_of_mem_set hmem with hold | rfl
    · exact Or.inr hold
    · exact Or.inl hatom
  refine ⟨⟨by simpa using h.1.1, fun ha hmem => ?_⟩, fun k hk => ?_, fun hrel ha hmem => ?_⟩
  · rcases hset ha hmem with hnone | hold
    · exact Or.inr hnone
    · exact h.1.2 ha hold
  · cases hk
    have hlen := (h.2.1 (i + 1) hleft).1
    refine ⟨by simp only [List.length_set]; omega, fun j ha hle hget => ?_⟩
    by_cases hji : j = i
    · subst hji
      rcases List.getElem?_eq_some_iff.mp hget with ⟨hlt, rfl⟩
      simp [hatom]
    · simp only [List.getElem?_set_ne (Ne.symm hji)] at hget
      exact (h.2.1 (i + 1) hleft).2 j ha (by omega) hget
  · rcases hset ha hmem with hnone | hold
    · exact hnone
    · exact h.2.2 hrel ha hold

section Release

variable [LinearOrder K]

/-- What one turn of a release needs to know holds in every reachable state. -/
theorem releaseAt_spec (h : Invariant guards s) {x : Execution} {i : Nat}
    (hx : x ∈ s.executing) (hleft : x.releasing = some (i + 1)) :
    (∃ st released, s.store.releaseAt guards x.event i = .ok (st, released) ∧
      Store.Released guards s.store x.event i st released) ∨
    s.store.releaseAt guards x.event i = .error .collectsOtherAtomic ∧
      Store.CollectsOther guards s.store x.event i := by
  have hcall' : s.has x.event (.executing x) := ⟨hx, rfl⟩
  have hold := h.status x.event (.executing x) hcall'
  refine Store.releaseAt_spec h.consistent (hold.2.1 (i + 1) hleft).1 hold.1.1 hold.1.2
    fun q hq => ?_
  have hwaits : s.has x.event (.waiting q) := hq
  cases h.status_unique hcall' hwaits

/-- What a release of one guard does. -/
theorem released_of_releaseAt (h : Invariant guards s) {x : Execution} {i : Nat}
    {st : Store I K D} {released : List EventId} (hx : x ∈ s.executing)
    (hleft : x.releasing = some (i + 1))
    (hrelease : s.store.releaseAt guards x.event i = .ok (st, released)) :
    Store.Released guards s.store x.event i st released := by
  rcases h.releaseAt_spec hx hleft with ⟨st', released', hok, heffect⟩ | herr
  · cases hok.symm.trans hrelease
    exact heffect
  · rw [herr.1] at hrelease
    cases hrelease

omit [LinearOrder K] in
/-- What waits after a turn of a release waited before, and is not handed the atomic. -/
theorem waiting_of_released (h : Invariant guards s) {e : EventId} {i : Nat}
    {st : Store I K D} {released : List EventId}
    (heffect : Store.Released guards s.store e i st released) {y : EventId} {q : Queue}
    (hy : y ∈ st.queue q) : s.has y (.waiting q) ∧ y ∉ released := by
  rcases heffect.queue with ⟨q0, hq0, hqueue⟩
  have hwaited : ∀ r ∈ released, s.has r (.waiting q0) := by
    intro r hr
    show r ∈ s.store.queue q0
    rw [hq0]
    exact List.mem_append_left _ hr
  by_cases hq : q = q0
  · subst hq
    have hnodup := h.nodup (.queue q)
    simp only [State.contents, hq0] at hnodup
    refine ⟨?_, fun hmem => List.disjoint_of_nodup_append hnodup hmem hy⟩
    show y ∈ s.store.queue q
    rw [hq0]
    exact List.mem_append_right _ hy
  · have hs : s.has y (.waiting q) := by
      show y ∈ s.store.queue q
      rwa [← hqueue q hq]
    refine ⟨hs, fun hmem => hq ?_⟩
    cases h.status_unique hs (hwaited y hmem)
    rfl

/-- Releasing a guard keeps the invariant. -/
theorem releaseAt (h : Invariant guards s) {x : Execution} {i : Nat} {st : Store I K D}
    {released : List EventId} (hx : x ∈ s.executing) (hleft : x.releasing = some (i + 1))
    (hrelease : s.store.releaseAt guards x.event i = .ok (st, released)) :
    Invariant guards { s with
      store := st,
      executing := { x with releasing := some i } :: s.executing.erase x,
      acquiring := released.map (fun r => (r, (st.events r).workingOn)) ++ s.acquiring } := by
  have hcall' : s.has x.event (.executing x) := ⟨hx, rfl⟩
  have hold := h.status x.event (.executing x) hcall'
  have heffect := h.released_of_releaseAt hx hleft hrelease
  rcases heffect.event with ⟨ha, ha', hget, hevent, href, hhave, hatom⟩
  rcases heffect.queue with ⟨q0, hq0, hqueue⟩
  have hwaited : ∀ r ∈ released, s.has r (.waiting q0) := by
    intro r hr
    show r ∈ s.store.queue q0
    rw [hq0]
    exact List.mem_append_left _ hr
  have hnotself : x.event ∉ released := by
    intro hmem
    cases h.status_unique (hwaited _ hmem) hcall'
  refine h.of_moved
    (fun y σ => y = x.event ∧ σ = .executing x ∨ y ∈ released ∧ σ = .waiting q0)
    (fun y σ => y = x.event ∧ σ = .executing { x with releasing := some i } ∨
      y ∈ released ∧ σ = .acquiring (st.events y).workingOn) ?_ ?_ heffect.extendsOld ?_ ?_ ?_ ?_
  · rintro y σ (⟨rfl, rfl⟩ | ⟨hy, rfl⟩)
    · exact hcall'
    · exact hwaited y hy
  · refine h.typed.of_refersAs heffect.wellFormed heffect.extendsOld fun y => ?_
    by_cases hy : y = x.event
    · subst hy
      show Store.RefersAs _ (st.events x.event)
      rw [hevent]
      exact Store.RefersAs.of_set hget href (Or.inl hatom)
    · show Store.RefersAs _ (st.events y)
      rw [heffect.others y hy]
      split
      · exact Store.refersAs_taken _
      · exact Store.RefersAs.refl _
  · refine h.located_of_moveAll rfl released (p := .queue q0) (q := .acquiring) (by simp)
      (List.Perm.of_eq hq0) (List.Perm.of_eq ?_) ?_
    · simp [State.contents, Function.comp_def]
    · intro r hr hra
      cases r with
      | acquiring => exact absurd rfl hra
      | executing => exact ((List.perm_cons_erase hx).map Execution.event).symm
      | queue q =>
          have hne : q ≠ q0 := fun heq => hr (by rw [heq])
          exact List.Perm.of_eq (hqueue q hne)
      | _ => exact List.Perm.refl _
  · intro y hy
    have hne : y ≠ x.event := fun heq => hy (.executing x) (Or.inl ⟨heq, rfl⟩)
    have hnot : y ∉ released := fun hmem => hy (.waiting q0) (Or.inr ⟨hmem, rfl⟩)
    exact (heffect.others y hne).trans (if_neg hnot)
  · intro y σ hσ
    cases σ with
    | acquiring j =>
        rcases List.mem_append.mp hσ with hmem | hmem
        · rcases List.mem_map.mp hmem with ⟨r, hr, heq⟩
          cases heq
          exact Or.inl (Or.inr ⟨hr, rfl⟩)
        · exact Or.inr ⟨hmem, by simp⟩
    | waiting q =>
        have hs := h.waiting_of_released heffect hσ
        refine Or.inr ⟨hs.1, ?_⟩
        rintro (⟨-, hno⟩ | ⟨hy, -⟩)
        · cases hno
        · exact hs.2 hy
    | executing z =>
        rcases hσ with ⟨hz, hzy⟩
        rcases List.mem_cons.mp hz with rfl | hmem
        · exact Or.inl (Or.inl ⟨hzy.symm, rfl⟩)
        · have hs := h.has_of_erase_executing hmem hzy
          refine Or.inr ⟨hs.1, ?_⟩
          rintro (⟨hy, heq⟩ | ⟨-, hno⟩)
          · exact hs.2 hy heq
          · cases hno
    | _ => exact Or.inr ⟨hσ, by simp⟩
  · rintro y σ (⟨rfl, rfl⟩ | ⟨hy, rfl⟩)
    · show StatusOk st (st.events x.event) _
      rw [hevent]
      exact statusOk_released hold hleft hatom
    · have hne : y ≠ x.event := fun heq => hnotself (heq ▸ hy)
      have htaken : st.events y = (s.store.events y).taken :=
        (heffect.others y hne).trans (if_pos hy)
      show StatusOk st (st.events y) (.acquiring (st.events y).workingOn)
      rw [htaken]
      exact statusOk_taken (h.status y (.waiting q0) (hwaited y hy))

end Release

/-! ## Runs -/

section Runs

variable [LinearOrder K]

theorem step {a : Action} (h : Invariant guards s) (hstep : Step guards s a t) :
    Invariant guards t := by
  cases hstep with
  | create node input => exact h.create node input
  | getKeysSort hcall hnew hkeys hsort =>
      apply h.getKeysSort hcall hkeys
      split at hsort
      · exact List.Perm.of_eq hsort
      · exact hsort.1
  | acquired hcall hsorted hlt hvisit => exact h.acquired hcall hsorted hlt hvisit
  | queued hcall hsorted hlt hvisit => exact h.queued hcall hsorted hlt hvisit
  | ready hcall hsorted hend => exact h.ready hcall hend
  | start hrunnable => exact h.start hrunnable
  | write hx hrunning hi hheld hp d => exact h.write _ d
  | beginRelease hx hrunning isLast => exact h.beginRelease hx isLast
  | releaseAt hx hleft hrelease => exact h.releaseAt hx hleft hrelease
  | releasedEarly hx hleft hlast => exact h.releasedEarly hx hleft
  | finish hx hleft hlast => exact h.finish hx

omit [LinearOrder K] in
theorem of_initial (h : Initial guards s) : Invariant guards s := by
  refine ⟨⟨h.wellFormed, fun x ha hha => ?_, fun x ha hha => ?_⟩, ⟨fun _ => none, ?_, ?_⟩, ?_⟩
  · rw [h.events] at hha
    cases hha
  · rw [h.events] at hha
    cases hha
  · intro e p
    have hempty : s.contents p = [] := by
      cases p <;> simp [State.contents, h.acquiring, h.runnable, h.executing, h.finished, h.queues]
    simp [hempty]
  · simp [h.created]
  · intro e σ hσ
    have hmem := State.mem_contents_of_has hσ
    cases σ <;>
      simp [State.contents, Status.place, h.acquiring, h.runnable, h.executing, h.finished,
        h.queues] at hmem

theorem of_reachable (h : (system I K D guards).Reachable s) : Invariant guards s := by
  have hkeep : ∀ s a t, Invariant guards s → (system I K D guards).step s a t →
      Invariant guards t := fun _ _ _ hs hstep => Invariant.step hs hstep
  exact TransitionSystem.Reachable.invariant (fun _ hinit => of_initial hinit) hkeep h

end Runs

/-- Every created event is at exactly one place. -/
theorem existsUnique_place (h : Invariant guards s) {e : EventId} (he : e < s.created) :
    ∃! p, e ∈ s.contents p := by
  rcases h.located with ⟨place, hlocated, hplace⟩
  exact hlocated.existsUnique ((hplace e).mpr he)

/-- The references that a live event has passed are held or skipped. -/
theorem heldBelow (h : Invariant guards s) {e : EventId} (he : e < s.created)
    (hlive : e ∉ s.finished) :
    HeldBelow (s.store.events e) (s.store.events e).workingOn := by
  rcases h.existsUnique_place he with ⟨p, hp, -⟩
  rcases State.exists_has_of_mem_contents hp with ⟨σ, hσ, -⟩
  have hok := h.status e σ hσ
  have hall : (∀ ha ∈ (s.store.events e).holders, ha.HeldOrSkipped) →
      HeldBelow (s.store.events e) (s.store.events e).workingOn :=
    fun hheld j ha _ hget => hheld ha (List.mem_of_getElem? hget)
  cases σ with
  | acquiring i =>
      intro j ha hj hget
      exact hok.2.2.2.1 j ha (lt_of_lt_of_le hj hok.1) hget
  | waiting q => exact hok.2.1
  | runnable => exact hall hok.2
  | executing x => exact hall hok.1.2
  | finished => exact absurd hσ hlive

/-- With no call of {lit}`acquire_all_or_wait` in progress a live event is runnable,
executes, or waits in exactly one queue. -/
theorem live_cases (h : Invariant guards s) {e : EventId} (he : e < s.created)
    (hlive : e ∉ s.finished) (hquiet : s.acquiring = []) :
    e ∈ s.runnable ∨ e ∈ s.executing.map Execution.event ∨ ∃! q, e ∈ s.store.queue q := by
  rcases h.existsUnique_place he with ⟨p, hp, huniq⟩
  cases p with
  | acquiring => simp [State.contents, hquiet] at hp
  | runnable => exact Or.inl hp
  | executing => exact Or.inr (Or.inl hp)
  | finished => exact absurd hp hlive
  | queue q =>
      refine Or.inr (Or.inr ⟨q, hp, fun q' hq' => ?_⟩)
      have heq := huniq (.queue q') hq'
      cases heq
      rfl

end Invariant

end Guards
end OFlux
