import OFlux.Guards.HandOff
import OFlux.Library.Acyclic

/-!
# Deadlock freedom of guard acquisition

An event waits for another one when it is queued on an atomic that the other one
holds.  Acquisition in one order of guards and keys rules out cycles.  The sort of
{lit}`HeldAtomic::compare` puts the guards into one order, but not the keys of a guard,
because it looks at the mode, and at whether a key is late, before it looks at the keys.

Main results:

- Theorem {lit}`no_wait_cycle_of_inOrder`: in a run in which all events ask for the keys
  of a guard in one order, no state has a cycle.
- Theorem {lit}`exists_wait_cycle`: two events that each read one key and write another
  can wait for each other.
-/

namespace OFlux
namespace Guards

open Library

variable {I K D : Type}

/-! ## Waiting for each other -/

/-- The event holds an atomic, or a resource of a pool, with that queue. -/
def State.Holds (s : State I K D) (e : EventId) (q : Queue) : Prop :=
  ∃ ha ∈ (s.store.events e).holders, ha.haveit = true ∧ ha.atom.map s.store.queueOf = some q

/-- The first event is queued on an atomic that the second one holds. -/
def State.WaitsFor (s : State I K D) (e e' : EventId) : Prop :=
  ∃ q, e ∈ s.store.queue q ∧ s.Holds e' q

/-- No cycle of events waits, each for the next one. -/
def State.NoWaitCycle (s : State I K D) : Prop :=
  Acyclic s.WaitsFor

/-- The references of each event resolve to pairwise distinct atomics. -/
def State.DistinctAtomics (s : State I K D) : Prop :=
  ∀ e, e < s.created → ((s.store.events e).holders.filterMap HeldAtomic.atom).Nodup

/-- Where an event visits a reference, the keys of its earlier references to the same
guard come before its key. -/
def InOrder [LinearOrder K] [Inhabited K] (guards : GuardId → Guard)
    (before : Nat → K → K → Prop) (s : State I K D) : Action → Prop
  | .visit e i => ∀ lock ∈ s.store.lockAt guards e i,
      ∀ ha ∈ (s.store.events e).holders.take i, ha.skipit = false → ∀ key ∈ ha.key,
        (guards ha.ref.guard).magicNumber = (guards lock.1).magicNumber →
          before (guards lock.1).magicNumber key lock.2
  | _ => True

instance [LinearOrder K] [Inhabited K] (guards : GuardId → Guard) (before : Nat → K → K → Prop)
    [∀ m k k', Decidable (before m k k')] (s : State I K D) (a : Action) :
    Decidable (InOrder guards before s a) := by
  cases a <;> simp only [InOrder] <;> infer_instance

instance (s : State I K D) (e : EventId) (q : Queue) : Decidable (s.Holds e q) :=
  inferInstanceAs (Decidable (∃ ha ∈ (s.store.events e).holders, _ ∧ _))

instance (s : State I K D) : Decidable s.DistinctAtomics :=
  inferInstanceAs (Decidable (∀ e, e < s.created → _))

/-! ## The order of the locks -/

/-- What the sort leaves of an event: its guards are in the order of their numbers. -/
def MagicSorted (guards : GuardId → Guard) (ev : Event I K D) : Prop :=
  ev.holders.Pairwise fun left right =>
    (guards left.ref.guard).magicNumber ≤ (guards right.ref.guard).magicNumber

/-- The place of an atomic in the order of acquisition: its guard, and its key. -/
def lockRank (guards : GuardId → Guard) (st : Store I K D) (p : AtomicPtr) : Nat × K :=
  ((guards (st.madeFor p).1).magicNumber, (st.madeFor p).2)

/-- The order of the guards by their magic numbers, with one order of the keys for each. -/
def LockBefore (before : Nat → K → K → Prop) (l l' : Nat × K) : Prop :=
  l.1 < l'.1 ∨ l.1 = l'.1 ∧ before l.1 l.2 l'.2

instance {before : Nat → K → K → Prop} [hstrict : ∀ m, IsStrictOrder K (before m)] :
    IsStrictOrder (Nat × K) (LockBefore before) where
  irrefl l h := by
    rcases h with hlt | ⟨-, hkey⟩
    · exact lt_irrefl _ hlt
    · exact (hstrict l.1).irrefl _ hkey
  trans l1 l2 l3 h h' := by
    rcases h with hlt | ⟨heq, hkey⟩
    · rcases h' with hlt' | ⟨heq', -⟩
      · exact Or.inl (hlt.trans hlt')
      · exact Or.inl (hlt.trans_eq heq')
    · rcases h' with hlt' | ⟨heq', hkey'⟩
      · exact Or.inl (heq.trans_lt hlt')
      · rw [← heq] at hkey'
        exact Or.inr ⟨heq.trans heq', (hstrict l1.1).trans _ _ _ hkey hkey'⟩

variable [LinearOrder K] [Inhabited K] {guards : GuardId → Guard}
  {before : Nat → K → K → Prop} {s t : State I K D}

/-- Waiting events hold lower locks only. -/
structure Ascending (guards : GuardId → Guard) (before : Nat → K → K → Prop)
    (s : State I K D) : Prop where
  sorted : ∀ e, MagicSorted guards (s.store.events e)
  waiting : ∀ e q, e ∈ s.store.queue q → ∀ ha p,
    (s.store.events e).holders[(s.store.events e).workingOn]? = some ha → ha.atom = some p →
    ∀ j ha' p', j < (s.store.events e).workingOn →
      (s.store.events e).holders[j]? = some ha' → ha'.atom = some p' →
      LockBefore before (lockRank guards s.store p') (lockRank guards s.store p)

/-- The rank of a waiting event is the lock that it waits for. -/
def waitRank (guards : GuardId → Guard) (s : State I K D) (e : EventId) : Nat × K :=
  match (s.store.events e).holders[(s.store.events e).workingOn]?.bind HeldAtomic.atom with
  | some p => lockRank guards s.store p
  | none => (0, default)

omit [LinearOrder K] in
theorem waitRank_eq {e : EventId} {ha : HeldAtomic I K D} {p : AtomicPtr}
    (hget : (s.store.events e).holders[(s.store.events e).workingOn]? = some ha)
    (hp : ha.atom = some p) : waitRank guards s e = lockRank guards s.store p := by
  simp [waitRank, hget, hp]

omit [LinearOrder K] in
/-- Waiting leads to higher and higher locks. -/
theorem noWaitCycle_of_ascending [∀ m, IsStrictOrder K (before m)] (h : Invariant guards s)
    (hup : Ascending guards before s) : s.NoWaitCycle := by
  refine acyclic_of_rank (LockBefore before) (fun e => ∃ q, e ∈ s.store.queue q) (waitRank guards s)
    (fun a b ⟨q, hq, _⟩ => ⟨q, hq⟩) ?_
  intro a b ⟨q, hq, ha, hmem, hhave, hatom⟩ ⟨q', hq'⟩
  rcases Option.map_eq_some_iff.mp hatom with ⟨p, hp, hqueue⟩
  rcases h.consistent.waiting q a hq with ⟨haA, pA, hgetA, hpA, -, hqueueA⟩
  rcases h.consistent.waiting q' b hq' with ⟨haB, pB, hgetB, hpB, -, -⟩
  rcases List.getElem?_of_mem hmem with ⟨j, hj⟩
  have hbelow : j < (s.store.events b).workingOn := by
    by_contra hge
    have hfree := (h.status b (.waiting q') hq').2.2.1 j ha (Nat.le_of_not_lt hge) hj
    rw [hhave] at hfree
    cases hfree
  have hsame : s.store.madeFor pA = s.store.madeFor p :=
    h.typed.wellFormed.madeFor_eq_of_queueOf_eq
      (h.typed.referred a haA (List.mem_of_getElem? hgetA) pA hpA).1
      (h.typed.referred b ha hmem p hp).1 (hqueueA.trans hqueue.symm)
  have hrank : lockRank guards s.store pA = lockRank guards s.store p := by
    rw [lockRank, lockRank, hsame]
  rw [waitRank_eq hgetA hpA, waitRank_eq hgetB hpB, hrank]
  exact hup.waiting b q' hq' haB pB hgetB hpB j ha p hbelow hj hp

/-! ## Steps -/

omit [LinearOrder K] [Inhabited K] in
/-- Being sorted by magic numbers depends on the references. -/
theorem magicSorted_iff (ev : Event I K D) :
    MagicSorted guards ev ↔ (ev.holders.map HeldAtomic.ref).Pairwise fun left right =>
      (guards left.guard).magicNumber ≤ (guards right.guard).magicNumber := by
  rw [List.pairwise_map]
  rfl

omit [LinearOrder K] [Inhabited K] in
/-- The same references stay sorted. -/
theorem MagicSorted.of_refs {ev ev' : Event I K D} (h : MagicSorted guards ev)
    (hrefs : ev'.holders.map HeldAtomic.ref = ev.holders.map HeldAtomic.ref) :
    MagicSorted guards ev' := by
  rw [magicSorted_iff, hrefs]
  exact (magicSorted_iff ev).mp h

omit [Inhabited K] in
/-- References sorted as the code does are sorted by magic numbers. -/
theorem magicSorted_of_compare {ev : Event I K D}
    (h : ev.holders.Pairwise fun left right => left.compare guards right false ≤ 0) :
    MagicSorted guards ev := by
  refine h.imp fun hle => ?_
  rcases (HeldAtomic.compare_nonpos_iff _ _).mp hle with hlt | ⟨heq, -⟩
  · exact hlt.le
  · exact heq.le

theorem magicSorted_step {a : Action} (h : Invariant guards s) (hstep : Step guards s a t)
    (hsorted : ∀ e, MagicSorted guards (s.store.events e)) (e : EventId) :
    MagicSorted guards (t.store.events e) := by
  cases hstep with
  | create node input =>
      show MagicSorted guards ((s.store.setEvent s.created (node.newEvent input)).events e)
      by_cases he : e = s.created
      · subst he
        rw [Store.events_setEvent_self, magicSorted_iff]
        simpa [Node.newEvent, Function.comp_def] using node.ascending
      · rw [Store.events_setEvent_ne _ he]
        exact hsorted e
  | @getKeysSort x st sorted hcall hnew hkeys hsort =>
      have hk := Store.keyed_of_getKeys _ h.typed.wellFormed (h.typed.referred x) hkeys
      show MagicSorted guards ((st.setSorted x sorted).events e)
      by_cases he : e = x
      · subst he
        rw [Store.setSorted, Store.events_setEvent_self]
        split at hsort
        · refine (hsorted e).of_refs ?_
          rw [← hk.refs, hsort]
        · exact magicSorted_of_compare hsort.2
      · rw [Store.setSorted, Store.events_setEvent_ne _ he, hk.others e he]
        exact hsorted e
  | @acquired x i st hcall hkeyed hlt hvisit =>
      have hv := h.typed.visited hlt hvisit
      by_cases he : e = x
      · subst he
        exact (hsorted e).of_refs hv.changed.refs
      · exact (hv.others e he) ▸ hsorted e
  | @queued x i st hcall hkeyed hlt hvisit =>
      have hv := h.typed.visited hlt hvisit
      by_cases he : e = x
      · subst he
        exact (hsorted e).of_refs hv.changed.refs
      · exact (hv.others e he) ▸ hsorted e
  | ready hcall hkeyed hend => exact hsorted e
  | start hrunnable => exact hsorted e
  | @write x i ha p hx hrunning hi hheld hp d =>
      have hevents : (s.store.setData p d).events = s.store.events := Store.events_setData p d
      exact (congrFun hevents e) ▸ hsorted e
  | beginRelease hx hrunning isLast => exact hsorted e
  | @releaseAt x i st released hx hleft hrelease =>
      have heffect := h.released_of_releaseAt hx hleft hrelease
      refine (hsorted e).of_refs ?_
      show (st.events e).holders.map HeldAtomic.ref = _
      by_cases he : e = x.event
      · subst he
        rcases heffect.event with ⟨ha, ha', hget, hevent, href, -⟩
        rw [hevent]
        exact (Event.Changed.of_set hget href).refs
      · rw [heffect.others e he]
        split
        · exact Store.taken_refs _
        · rfl
  | releasedEarly hx hleft hlast => exact hsorted e
  | finish hx hleft hlast => exact hsorted e

/-- After a step an event waits as it did before, or it was queued by the step. -/
theorem waiting_cases {a : Action} (h : Invariant guards s) (hstep : Step guards s a t)
    {e : EventId} {q : Queue} (hq : e ∈ t.store.queue q) :
    e ∈ s.store.queue q ∧ t.store.events e = s.store.events e ∨
      ∃ i, a = .visit e i ∧ (e, i) ∈ s.acquiring ∧ i < (s.store.events e).holders.length ∧
        s.store.visit guards e i = .ok (t.store, false) := by
  have hother : ∀ {x : EventId} {i : Nat}, (x, i) ∈ s.acquiring →
      e ∈ s.store.queue q → e ≠ x := by
    intro x i hcall hold heq
    subst heq
    have hs : s.has e (.waiting q) := hold
    have hs' : s.has e (.acquiring i) := hcall
    cases h.status_unique hs hs'
  cases hstep with
  | create node input =>
      have hqueue : (s.store.setEvent s.created (node.newEvent input)).queue q =
          s.store.queue q := Store.queue_setEvent _ _ _ q
      have hold : e ∈ s.store.queue q := hqueue ▸ hq
      have hs : s.has e (.waiting q) := hold
      exact Or.inl ⟨hold, Store.events_setEvent_ne _ (h.lt_created hs).ne⟩
  | @getKeysSort x st sorted hcall hnew hkeys hsort =>
      have hk := Store.keyed_of_getKeys _ h.typed.wellFormed (h.typed.referred x) hkeys
      have hqueue : (st.setSorted x sorted).queue q = s.store.queue q := by
        rw [Store.setSorted, Store.queue_setEvent, hk.queue q]
      have hold : e ∈ s.store.queue q := hqueue ▸ hq
      have hne := hother hcall hold
      exact Or.inl ⟨hold, (Store.events_setEvent_ne _ hne).trans (hk.others e hne)⟩
  | @acquired x i st hcall hkeyed hlt hvisit =>
      have hv := h.typed.visited hlt hvisit
      have hold : e ∈ s.store.queue q := (hv.granted rfl).1 q ▸ hq
      exact Or.inl ⟨hold, hv.others e (hother hcall hold)⟩
  | @queued x i st hcall hkeyed hlt hvisit =>
      have hv := h.typed.visited hlt hvisit
      by_cases he : e = x
      · subst he
        exact Or.inr ⟨i, rfl, hcall, hlt, hvisit⟩
      · rcases hv.waits rfl with ⟨ha', p, -, -, -, hqueue⟩
        have hmem : e ∈ st.queue q := hq
        rw [hqueue q] at hmem
        refine Or.inl ⟨?_, hv.others e he⟩
        split at hmem
        · rcases List.mem_append.mp hmem with hold | hnew
          · exact hold
          · exact absurd (List.mem_singleton.mp hnew) he
        · exact hmem
  | ready hcall hkeyed hend => exact Or.inl ⟨hq, rfl⟩
  | start hrunnable => exact Or.inl ⟨hq, rfl⟩
  | @write x i ha p hx hrunning hi hheld hp d =>
      have hevents : (s.store.setData p d).events = s.store.events := Store.events_setData p d
      have hqueue : (s.store.setData p d).queue q = s.store.queue q := Store.queue_setData _ p d q
      exact Or.inl ⟨hqueue ▸ hq, congrFun hevents e⟩
  | beginRelease hx hrunning isLast => exact Or.inl ⟨hq, rfl⟩
  | @releaseAt x i st released hx hleft hrelease =>
      have heffect := h.released_of_releaseAt hx hleft hrelease
      have hs := h.waiting_of_released heffect hq
      have hne : e ≠ x.event := by
        intro heq
        have hs' : s.has e (.executing x) := ⟨hx, heq.symm⟩
        cases h.status_unique hs.1 hs'
      exact Or.inl ⟨hs.1, (heffect.others e hne).trans (if_neg hs.2)⟩
  | releasedEarly hx hleft hlast => exact Or.inl ⟨hq, rfl⟩
  | finish hx hleft hlast => exact Or.inl ⟨hq, rfl⟩

theorem extends_of_step {a : Action} (h : Invariant guards s) (hstep : Step guards s a t) :
    s.store.Extends t.store := by
  cases hstep with
  | create node input => exact (Store.sameShape_setEvent _ _ _).extends
  | @getKeysSort x st sorted hcall hnew hkeys hsort =>
      have hk := Store.keyed_of_getKeys _ h.typed.wellFormed (h.typed.referred x) hkeys
      exact hk.extendsOld.trans (Store.sameShape_setEvent _ _ _).extends
  | @acquired x i st hcall hkeyed hlt hvisit =>
      exact (h.typed.visited hlt hvisit).extendsOld
  | @queued x i st hcall hkeyed hlt hvisit =>
      exact (h.typed.visited hlt hvisit).extendsOld
  | ready hcall hkeyed hend => exact Store.Extends.refl _
  | start hrunnable => exact Store.Extends.refl _
  | write hx hrunning hi hheld hp d => exact (Store.sameShape_setData _ _ d).extends
  | beginRelease hx hrunning isLast => exact Store.Extends.refl _
  | releaseAt hx hleft hrelease => exact (h.released_of_releaseAt hx hleft hrelease).extendsOld
  | releasedEarly hx hleft hlast => exact Store.Extends.refl _
  | finish hx hleft hlast => exact Store.Extends.refl _

omit [LinearOrder K] [Inhabited K] in
/-- An allocated lock keeps its rank. -/
theorem lockRank_extends {st st' : Store I K D} (hext : st.Extends st') {p : AtomicPtr}
    (hp : st.Allocated p) : lockRank guards st' p = lockRank guards st p := by
  rw [lockRank, lockRank, (hext p hp).2]

/-- A step that asks for the keys of one guard in their order keeps the waiting events
above what they hold. -/
theorem Ascending.step {a : Action} (hup : Ascending guards before s)
    (h : Invariant guards s) (hstep : Step guards s a t) (horder : InOrder guards before s a) :
    Ascending guards before t := by
  refine ⟨magicSorted_step h hstep hup.sorted, fun e q hq ha p hget hp j ha' p' hj hget' hp' => ?_⟩
  have hext := extends_of_step h hstep
  rcases waiting_cases h hstep hq with ⟨hold, hsame⟩ | ⟨i, rfl, hcall, hlt, hvisit⟩
  · rw [hsame] at hget hget' hj
    rw [lockRank_extends hext (h.typed.referred e ha' (List.mem_of_getElem? hget') p' hp').1,
      lockRank_extends hext (h.typed.referred e ha (List.mem_of_getElem? hget) p hp).1]
    exact hup.waiting e q hold ha p hget hp j ha' p' hj hget' hp'
  · have hv := h.typed.visited hlt hvisit
    have hwork : (t.store.events e).workingOn = i := by
      have hle := (h.status e (.acquiring i) hcall).1
      rw [hv.workingOn]
      omega
    rw [hwork] at hget hj
    -- the earlier references are as they were before the visit
    rw [hv.changed.elsewhere j (by omega)] at hget'
    have hmade := h.typed.referred e ha' (List.mem_of_getElem? hget') p' hp'
    have hmade' := hv.referred ha hget p hp
    have hlock := hv.lock ha p hget hp
    rw [lockRank_extends hv.extendsOld hmade.1, lockRank, lockRank]
    have hmagic : (guards ha'.ref.guard).magicNumber ≤ (guards ha.ref.guard).magicNumber := by
      rcases List.getElem?_eq_some_iff.mp hget with ⟨hi, rfl⟩
      have hget'' := hget'
      rw [← hv.changed.elsewhere j (by omega)] at hget''
      rcases List.getElem?_eq_some_iff.mp hget'' with ⟨hj', rfl⟩
      exact (List.pairwise_iff_getElem.mp (magicSorted_step h hstep hup.sorted e)) j i hj' hi hj
    rw [hmade.2.1]
    rw [← hmade'.2.1] at hmagic
    rcases Nat.lt_or_eq_of_le hmagic with hlt' | heq
    · exact Or.inl hlt'
    · refine Or.inr ⟨heq, ?_⟩
      have htake : ha' ∈ ((s.store.events e).holders.take i) :=
        List.mem_of_getElem? ((List.getElem?_take_of_lt hj).trans hget')
      have hkeys := horder _ hlock ha' htake (by simp [HeldAtomic.skipit, hp']) _ hmade.2.2 heq
      exact heq ▸ hkeys

omit [LinearOrder K] in
theorem magicSorted_of_initial (h : Initial guards s) (e : EventId) :
    MagicSorted guards (s.store.events e) := by
  rw [MagicSorted, h.events]
  exact List.Pairwise.nil

omit [LinearOrder K] in
theorem ascending_of_initial (h : Initial guards s) : Ascending guards before s := by
  refine ⟨magicSorted_of_initial h, fun e q hq => ?_⟩
  rw [h.queues] at hq
  cases hq

/-- In a run in which all visits ask for the keys of a guard in one order, no state has a
cycle of events that wait for each other. -/
theorem no_wait_cycle_of_inOrder (before : Nat → K → K → Prop)
    [∀ m, IsStrictOrder K (before m)] {path : List (Action × State I K D)}
    (hinit : Initial guards s) (hrun : (system I K D guards).Run s path)
    (horder : TransitionSystem.StepsMeet (fun s a _ => InOrder guards before s a) s path) :
    TransitionSystem.StatesMeet State.NoWaitCycle path := by
  have hkeep : ∀ s a t, Invariant guards s → (system I K D guards).step s a t →
      Invariant guards t := fun _ _ _ hs hstep => Invariant.step hs hstep
  have hup : ∀ s a t, Invariant guards s → Ascending guards before s →
      (system I K D guards).step s a t → InOrder guards before s a →
      Ascending guards before t :=
    fun _ _ _ hs hup hstep horder => hup.step hs hstep horder
  have hinv := Invariant.of_initial hinit
  have hall := TransitionSystem.Run.statesMeet_of_stepsMeet hkeep hup hinv
    (ascending_of_initial hinit) hrun horder
  have hreach := hrun.statesMeet_reachable (.init hinit)
  intro x hx
  exact noWaitCycle_of_ascending (Invariant.of_reachable (hreach x hx)) (hall x hx)

theorem magicSorted_of_reachable (h : (system I K D guards).Reachable s) (e : EventId) :
    MagicSorted guards (s.store.events e) := by
  have hkeep : ∀ s a t, (Invariant guards s ∧ ∀ e, MagicSorted guards (s.store.events e)) →
      (system I K D guards).step s a t →
        Invariant guards t ∧ ∀ e, MagicSorted guards (t.store.events e) :=
    fun s a t hs hstep => ⟨hs.1.step hstep, magicSorted_step hs.1 hstep hs.2⟩
  refine (TransitionSystem.Reachable.invariant (fun s hinit => ?_) hkeep h).2 e
  exact ⟨Invariant.of_initial hinit, magicSorted_of_initial hinit⟩

/-- When an event comes to a reference, the references with lower numbers are behind it. -/
theorem heldOrSkipped_of_magicNumber_lt (h : (system I K D guards).Reachable s) {e : EventId}
    {i : Nat} {ha ha' : HeldAtomic I K D} (hcall : s.has e (.acquiring i))
    (hi : (s.store.events e).holders[i]? = some ha) (hmem : ha' ∈ (s.store.events e).holders)
    (hlt : (guards ha'.ref.guard).magicNumber < (guards ha.ref.guard).magicNumber) :
    ∃ j < i, (s.store.events e).holders[j]? = some ha' ∧ ha'.HeldOrSkipped := by
  have hsorted := magicSorted_of_reachable h e
  obtain ⟨j, hj⟩ := List.getElem?_of_mem hmem
  have hji : j < i := by
    by_contra hge
    rcases Nat.lt_or_eq_of_le (Nat.le_of_not_lt hge) with hij | rfl
    · obtain ⟨hi', rfl⟩ := List.getElem?_eq_some_iff.mp hi
      obtain ⟨hj', rfl⟩ := List.getElem?_eq_some_iff.mp hj
      have hle := List.pairwise_iff_getElem.mp hsorted i j hi' hj' hij
      omega
    · cases hi.symm.trans hj
      exact lt_irrefl _ hlt
  have hheld := ((Invariant.of_reachable h).status e (.acquiring i) hcall).2.2.2.1
  exact ⟨j, hji, hj, hheld j ha' hji hj⟩

/-! ## Runs of nodes with one keyed guard -/

/-- A reference whose key is a part of the input. -/
def keyedRef (wtype : Nat) (key : Nat × Nat → Nat) (lexicalIndex : Nat) :
    GuardReference (Nat × Nat) Nat Unit where
  guard := 0
  guardFn := some fun input _ => some (key input)
  wtype := wtype
  isLate := false
  lexicalIndex := lexicalIndex

/-- A node that writes the first key of its input. -/
def writeNode : Node (keyedGuards .readWrite) (Nat × Nat) Nat Unit where
  guardRefs := [keyedRef WType.write Prod.fst 1]
  ascending := by simp
  poolMode := by simp [keyedGuards]

/-- A node that reads the first key of its input and writes the second one. -/
def readWriteNode : Node (keyedGuards .readWrite) (Nat × Nat) Nat Unit where
  guardRefs := [keyedRef WType.read Prod.fst 1, keyedRef WType.write Prod.snd 2]
  ascending := by simp [keyedRef]
  poolMode := by simp [keyedGuards]

/-- Two events queue for what they read, and each is handed that before it writes what the
other one reads. -/
def crossingSchedule : List (Command (keyedGuards .readWrite) (Nat × Nat) Nat Unit) := [
  .create writeNode (1, 0), .getKeysSort 0, .visit 0 0, .ready 0 1, .start 0,
  .create writeNode (2, 0), .getKeysSort 1, .visit 1 0, .ready 1 1, .start 1,
  .create readWriteNode (1, 2), .getKeysSort 2, .visit 2 0,
  .create readWriteNode (2, 1), .getKeysSort 3, .visit 3 0,
  .beginRelease { event := 0 } true,
  .releaseAt { event := 0, releasing := some 1, isLast := true } 0, .visit 2 1,
  .beginRelease { event := 1 } true,
  .releaseAt { event := 1, releasing := some 1, isLast := true } 0, .visit 3 1]

/-- The schedule up to the step at which an event, handed what it reads, writes a larger key. -/
theorem no_wait_cycle_of_inOrder_crossingSchedule :
    TransitionSystem.StatesMeet State.NoWaitCycle
      ((State.empty (Nat × Nat) Nat Unit).runOf (crossingSchedule.take 19)) :=
  no_wait_cycle_of_inOrder (fun _ => (· < ·)) (initial_empty_keyedGuards .readWrite)
    (State.run_runOf (keyedGuards_injective _) _ _) (by decide)

/-- Each event reads and writes distinct atomics of one guard, and two of them wait for
each other. -/
theorem exists_wait_cycle :
    ¬ ∀ (guards : GuardId → Guard) (s : State (Nat × Nat) Nat Unit)
        (path : List (Action × State (Nat × Nat) Nat Unit)), Initial guards s →
      (system (Nat × Nat) Nat Unit guards).Run s path →
      TransitionSystem.StatesMeet State.DistinctAtomics path →
      TransitionSystem.StatesMeet State.NoWaitCycle path := by
  intro hall
  have hdistinct : ∀ step ∈ (State.empty (Nat × Nat) Nat Unit).runOf crossingSchedule,
      step.2.DistinctAtomics := by decide
  have hcycle : ∃ step ∈ (State.empty (Nat × Nat) Nat Unit).runOf crossingSchedule,
      (2 ∈ step.2.store.queue (.atomic 1) ∧ step.2.Holds 3 (.atomic 1)) ∧
        (3 ∈ step.2.store.queue (.atomic 0) ∧ step.2.Holds 2 (.atomic 0)) := by decide
  rcases hcycle with ⟨step, hstep, h23, h32⟩
  have hnone := hall (keyedGuards .readWrite) _ _ (initial_empty_keyedGuards _)
    (State.run_runOf (keyedGuards_injective _) _ crossingSchedule) hdistinct step hstep
  have hforth : step.2.WaitsFor 2 3 := ⟨_, h23⟩
  have hback : step.2.WaitsFor 3 2 := ⟨_, h32⟩
  exact hnone 2 (Relation.TransGen.tail (Relation.TransGen.single hforth) hback)

end Guards
end OFlux
