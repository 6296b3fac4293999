import OFlux.Guards.AtomicsHolder

/-!
# What one turn of an acquisition does

Everything that the invariants of a run need to know about building a reference and
about one turn of the loop of {lit}`acquire_all_or_wait`: what becomes of the acting
event, that no other event changes, and which queue grows.

Main results:

- Theorem {lit}`built_of_build`: building a reference finds the guard and key that
  {lit}`lockAt` names and leaves the queues alone.
- Theorem {lit}`visited_of_visit`: one turn takes or skips the reference, or leaves
  the event in the queue of its atomic.
-/

namespace OFlux
namespace Guards

variable {I K D : Type}

/-- A reference that needs nothing more: held, or not to be acquired. -/
def HeldAtomic.HeldOrSkipped (ha : HeldAtomic I K D) : Prop :=
  ha.haveit = true ∨ ha.atom = none

/-- The flags say whether a guard is held or skipped. -/
theorem HeldAtomic.heldOrSkipped_iff (ha : HeldAtomic I K D) :
    ha.HeldOrSkipped ↔ (ha.haveit || ha.skipit) = true := by
  simp [HeldOrSkipped, skipit]

/-- The change of one held atomic, which keeps its reference. -/
structure Event.Changed (i : Nat) (ev ev' : Event I K D) : Prop where
  input : ev'.input = ev.input
  isSortedAndKeyed : ev'.isSortedAndKeyed = ev.isSortedAndKeyed
  isCompletelySorted : ev'.isCompletelySorted = ev.isCompletelySorted
  refs : ev'.holders.map HeldAtomic.ref = ev.holders.map HeldAtomic.ref
  elsewhere : ∀ j, j ≠ i → ev'.holders[j]? = ev.holders[j]?

namespace Event.Changed

variable {i : Nat} {ev ev' ev'' : Event I K D}

theorem refl (i : Nat) (ev : Event I K D) : Event.Changed i ev ev :=
  ⟨rfl, rfl, rfl, rfl, fun _ _ => rfl⟩

theorem trans (h : Event.Changed i ev ev') (h' : Event.Changed i ev' ev'') :
    Event.Changed i ev ev'' :=
  ⟨h'.input.trans h.input, h'.isSortedAndKeyed.trans h.isSortedAndKeyed,
    h'.isCompletelySorted.trans h.isCompletelySorted, h'.refs.trans h.refs,
    fun j hj => (h'.elsewhere j hj).trans (h.elsewhere j hj)⟩

/-- A change keeps the number of guards. -/
theorem length (h : Event.Changed i ev ev') : ev'.holders.length = ev.holders.length := by
  simpa using congrArg List.length h.refs

/-- Assigning a held atomic with the same reference. -/
theorem of_set {ha ha' : HeldAtomic I K D} (hi : ev.holders[i]? = some ha)
    (href : ha'.ref = ha.ref) :
    Event.Changed i ev { ev with holders := ev.holders.set i ha' } := by
  refine ⟨rfl, rfl, rfl, ?_, fun j hj => ?_⟩
  · apply List.ext_getElem?
    intro j
    by_cases hj : j = i
    · subst hj
      rcases List.getElem?_eq_some_iff.mp hi with ⟨hlt, hget⟩
      simp [hlt, hget, href]
    · simp [List.getElem?_set_ne (Ne.symm hj)]
  · simp [List.getElem?_set_ne (Ne.symm hj)]

end Event.Changed

namespace Store

variable {st st' : Store I K D} {e : EventId} {i : Nat}

/-! ## Reading events -/

@[simp]
theorem events_setEvent_self (event : Event I K D) :
    (st.setEvent e event).events e = event := by
  simp [setEvent]

theorem events_setEvent_ne {x : EventId} (event : Event I K D) (h : x ≠ e) :
    (st.setEvent e event).events x = st.events x := by
  simp [setEvent, h]

@[simp]
theorem events_setHeld_self (ha : HeldAtomic I K D) :
    (st.setHeld e i ha).events e =
      { st.events e with holders := (st.events e).holders.set i ha } := by
  simp [setHeld]

theorem events_setHeld_ne {x : EventId} (ha : HeldAtomic I K D) (h : x ≠ e) :
    (st.setHeld e i ha).events x = st.events x :=
  events_setEvent_ne _ h

@[simp]
theorem events_setData (p : AtomicPtr) (d : Option D) :
    (st.setData p d).events = st.events := by
  cases p <;> rfl

/-- Returning a wrapper changes no event. -/
theorem events_poolPut {w : PooledId} (h : st.poolPut w = .ok st') :
    st'.events = st.events := by
  simp only [poolPut] at h
  split at h
  · split at h <;> cases h
    rfl
  · cases h
    rfl

@[simp]
theorem events_acquireAtomic (p : AtomicPtr) (ev : EventId) (wtype : Nat) :
    (st.acquireAtomic p ev wtype).1.events = st.events := by
  cases p with
  | plain a => rfl
  | pooled w =>
      rw [acquireAtomic]
      cases hdq : (st.pools (st.wrappers w).pool).dq <;> rfl

/-- Releasing an atomic changes no event. -/
theorem events_releaseAtomic {p : AtomicPtr} {evs : List EventId}
    (h : st.releaseAtomic p = .ok (st', evs)) : st'.events = st.events := by
  cases p with
  | plain a =>
      cases h
      rfl
  | pooled w =>
      simp only [releaseAtomic, releasePooled] at h
      split at h
      · split at h
        · cases h
        · cases h
          simp [setWrapper, setPool]
      · cases hput : ((st.setPool (st.wrappers w).pool
            { st.pools (st.wrappers w).pool with
              dq := (st.pools (st.wrappers w).pool).dq ++ (st.wrappers w).data.toList }).setWrapper
            w { st.wrappers w with data := none }).poolPut w with
        | error err => rw [hput] at h; cases h
        | ok st1 =>
            rw [hput] at h
            cases h
            exact (events_poolPut hput).trans rfl

/-- Giving an atomic up changes no event. -/
theorem events_relinquish {p : AtomicPtr} {should : Bool}
    (h : st.relinquish p should = .ok st') : st'.events = st.events := by
  cases p with
  | plain a =>
      cases h
      rfl
  | pooled w =>
      cases should with
      | false =>
          cases h
          rfl
      | true =>
          simp only [relinquish] at h
          exact (events_poolPut h).trans rfl

/-! ## Building and visiting -/

/-- What a held atomic points to was made for the guard and key that it names. -/
def Referred (st : Store I K D) (ha : HeldAtomic I K D) : Prop :=
  ∀ p, ha.atom = some p →
    st.Allocated p ∧ (st.madeFor p).1 = ha.ref.guard ∧ ha.key = some (st.madeFor p).2

theorem Referred.mono {ha : HeldAtomic I K D} (hext : st.Extends st')
    (h : st.Referred ha) : st'.Referred ha := by
  intro p hp
  have hold := h p hp
  have hnew := hext p hold.1
  rw [hnew.2]
  exact ⟨hnew.1, hold.2⟩

section Lookups

variable [Inhabited K] {guards : GuardId → Guard}

/-- Taking a wrapper changes no event and no queue. -/
theorem poolGet_frame {g : GuardId} {w : PooledId} (h : st.poolGet g = .ok (st', w)) :
    st'.events = st.events ∧ ∀ q, st'.queue q = st.queue q := by
  simp only [poolGet] at h
  split at h
  · split at h
    · cases h
    · cases h
      refine ⟨rfl, fun q => ?_⟩
      simp only [queue_setWrapper, queue_setPool]
      split
      next hq => rw [hq, queue]
      · rfl
  · cases h
    exact ⟨rfl, fun q => by cases q <;> rfl⟩

/-- Looking an atomic up changes no event and no queue. -/
theorem getAtomic_frame [LinearOrder K] (hwf : WellFormed guards st) {g : GuardId}
    {key key' : K} {p : AtomicPtr} (h : st.getAtomic guards g key = .ok (st', p, key')) :
    st'.events = st.events ∧ ∀ q, st'.queue q = st.queue q := by
  simp only [getAtomic] at h
  split at h
  · cases h
    exact ⟨rfl, fun _ => rfl⟩
  next cls hcls =>
    split at h
    · cases h
      exact ⟨rfl, fun _ => rfl⟩
    · cases h
      refine ⟨rfl, fun q => ?_⟩
      cases q with
      | atomic a =>
          -- the number of the new atomic was free, so nothing waited there
          have hq := queue_setAtomic st st.allocated cls.new (.atomic a)
          refine hq.trans ?_
          split
          next heq =>
            cases heq
            simp [queue, hwf.fresh st.allocated le_rfl]
          · rfl
      | pool f => rfl
  · cases hres : st.poolGet g with
    | error err =>
        rw [hres] at h
        cases h
    | ok result =>
        rw [hres] at h
        cases h
        exact poolGet_frame hres

variable [LinearOrder K]

/-- The key under which a guard keeps the atomic for a key: only the keyed maps tell
keys apart. -/
def keyFor (guard : Guard) (key : K) : K :=
  match guard.amap with
  | .std _ => key
  | .trivial _ | .pool => default

/-- The guard and key that a reference stands for, or would when it was built now. -/
def lockAt (guards : GuardId → Guard) (st : Store I K D) (e : EventId) (i : Nat) :
    Option (GuardId × K) :=
  (st.events e).holders[i]?.bind fun ha =>
    match ha.atom with
    | some _ => ha.key.map fun key => (ha.ref.guard, key)
    | none =>
        (ha.ref.resolve (st.events e).input (st.getDataLexical e)).map fun key =>
          (ha.ref.guard, keyFor (guards ha.ref.guard) key)

/-- The key that the look-up returns. -/
theorem getAtomic_key {g : GuardId} {key key' : K} {p : AtomicPtr}
    (h : st.getAtomic guards g key = .ok (st', p, key')) :
    key' = keyFor (guards g) key := by
  simp only [getAtomic] at h
  split at h
  next a ha =>
    cases h
    simp [keyFor, ha]
  next cls hcls =>
    split at h <;> cases h <;> simp [keyFor, hcls]
  next hpool =>
    cases hres : st.poolGet g with
    | error err =>
        rw [hres] at h
        cases h
    | ok result =>
        rw [hres] at h
        cases h
        simp [keyFor, hpool]

/-- All that building a held atomic can do. -/
theorem build_cases {allowLate : Bool} (h : st.build guards e i allowLate = .ok st') :
    st' = st ∨ ∃ ha, (st.events e).holders[i]? = some ha ∧ ha.atom = none ∧
      (allowLate = true ∨ ha.ref.late guards = false) ∧
      ((ha.ref.resolve (st.events e).input (st.getDataLexical e) = none ∧
          st' = st.setHeld e i { ha with key := none }) ∨
        ∃ key st1 p key', ha.ref.resolve (st.events e).input (st.getDataLexical e) = some key ∧
          st.getAtomic guards ha.ref.guard key = .ok (st1, p, key') ∧
          st' = st1.setHeld e i
            { ha with atom := some p, key := some key', keyOwner := some p }) := by
  simp only [build] at h
  split at h
  · cases h
    exact Or.inl rfl
  next ha hha =>
    split at h
    · cases h
    · split at h
      next hnew =>
        simp only [Bool.and_eq_true, Bool.or_eq_true, Bool.not_eq_true', Option.isNone_iff_eq_none]
          at hnew
        refine Or.inr ⟨ha, hha, hnew.2, hnew.1, ?_⟩
        split at h
        next hnone =>
          cases h
          exact Or.inl ⟨hnone, rfl⟩
        next key hkey =>
          split at h
          · cases h
          next st1 p key' hget =>
            cases h
            exact Or.inr ⟨key, st1, p, key', hkey, hget, rfl⟩
      · cases h
        exact Or.inl rfl

/-- What building a held atomic leaves behind. -/
structure Built (guards : GuardId → Guard) (st : Store I K D) (e : EventId) (i : Nat)
    (st' : Store I K D) : Prop where
  wellFormed : WellFormed guards st'
  extendsOld : st.Extends st'
  queue : ∀ q, st'.queue q = st.queue q
  others : ∀ x, x ≠ e → st'.events x = st.events x
  changed : Event.Changed i (st.events e) (st'.events e)
  workingOn : (st'.events e).workingOn = (st.events e).workingOn
  held : ∀ ha', (st'.events e).holders[i]? = some ha' →
    st'.Referred ha' ∧ ∃ ha, (st.events e).holders[i]? = some ha ∧ ha'.haveit = ha.haveit ∧
      (ha.atom ≠ none → ha' = ha)
  lock : ∀ ha' p, (st'.events e).holders[i]? = some ha' → ha'.atom = some p →
    st.lockAt guards e i = some (st'.madeFor p)

/-- What building a reference does. -/
theorem built_of_build {allowLate : Bool} (hwf : WellFormed guards st)
    (href : ∀ ha, (st.events e).holders[i]? = some ha → st.Referred ha)
    (h : st.build guards e i allowLate = .ok st') : Built guards st e i st' := by
  rcases build_cases h with rfl | ⟨ha, hha, hatom, -, ⟨-, rfl⟩ | ⟨key, st1, p, key', hkey, hget, rfl⟩⟩
  · refine ⟨hwf, Extends.refl _, fun _ => rfl, fun _ _ => rfl, Event.Changed.refl _ _, rfl,
      fun ha' hha' => ⟨href ha' hha', ha', hha', rfl, fun _ => rfl⟩, fun ha' p hha' hp => ?_⟩
    have hmade := href ha' hha' p hp
    simp [lockAt, hha', hp, hmade.2.2, ← hmade.2.1]
  · have hshape := sameShape_setHeld st e i { ha with key := none }
    have hlt := (List.getElem?_eq_some_iff.mp hha).1
    refine ⟨hwf.of_sameShape hshape, hshape.extends, fun q => by simp,
      fun x hx => events_setHeld_ne _ hx, ?_, by simp, ?_, ?_⟩
    · rw [events_setHeld_self]
      exact Event.Changed.of_set hha rfl
    · intro ha' hha'
      simp [hlt] at hha'
      subst hha'
      exact ⟨fun q hq => by simp [hatom] at hq, ha, hha, rfl, fun hne => absurd hatom hne⟩
    · intro ha' q hha' hq
      simp [hlt] at hha'
      subst hha'
      simp [hatom] at hq
  · have hnew := hwf.getAtomic hget
    have hframe := getAtomic_frame hwf hget
    have hshape := sameShape_setHeld st1 e i
      { ha with atom := some p, key := some key', keyOwner := some p }
    have hlt := (List.getElem?_eq_some_iff.mp hha).1
    refine ⟨hnew.1.of_sameShape hshape, hnew.2.1.trans hshape.extends,
      fun q => by simp [hframe.2 q], fun x hx => by rw [events_setHeld_ne _ hx, hframe.1], ?_,
      by simp [hframe.1], ?_, ?_⟩
    · rw [events_setHeld_self, hframe.1]
      exact Event.Changed.of_set hha rfl
    · intro ha' hha'
      simp [hframe.1, hlt] at hha'
      subst hha'
      refine ⟨fun q hq => ?_, ha, hha, rfl, fun hne => absurd hatom hne⟩
      cases hq
      exact ⟨(hshape.extends p hnew.2.2.1).1, by simp [setHeld, setEvent, hnew.2.2.2]⟩
    · intro ha' q hha' hq
      simp [hframe.1, hlt] at hha'
      subst hha'
      cases hq
      simp [lockAt, hha, hatom, hkey, setHeld, setEvent, hnew.2.2.2, getAtomic_key hget]

/-- What one turn of an acquisition leaves behind. -/
structure Visited (guards : GuardId → Guard) (st : Store I K D) (e : EventId) (i : Nat)
    (st' : Store I K D) (res : Bool) : Prop where
  wellFormed : WellFormed guards st'
  extendsOld : st.Extends st'
  others : ∀ x, x ≠ e → st'.events x = st.events x
  changed : Event.Changed i (st.events e) (st'.events e)
  workingOn : (st'.events e).workingOn = max (st.events e).workingOn i
  referred : ∀ ha', (st'.events e).holders[i]? = some ha' → st'.Referred ha'
  granted : res = true → (∀ q, st'.queue q = st.queue q) ∧
    ∀ ha', (st'.events e).holders[i]? = some ha' → ha'.HeldOrSkipped
  waits : res = false → ∃ ha' p, (st'.events e).holders[i]? = some ha' ∧
    ha'.atom = some p ∧ ha'.haveit = false ∧
    ∀ q, st'.queue q = if q = st'.queueOf p then st.queue q ++ [e] else st.queue q
  lock : ∀ ha' p, (st'.events e).holders[i]? = some ha' → ha'.atom = some p →
    st.lockAt guards e i = some (st'.madeFor p)

/-- What a request leaves behind: the reference records the answer, and the queue of
the atomic takes the event when the answer is no. -/
structure Requested (st : Store I K D) (e : EventId) (i : Nat) (ha : HeldAtomic I K D)
    (p : AtomicPtr) (st' : Store I K D) (res : Bool) : Prop where
  shape : st.SameShape st'
  others : ∀ x, x ≠ e → st'.events x = st.events x
  event : st'.events e =
    { st.events e with holders := (st.events e).holders.set i { ha with haveit := res } }
  queue : ∀ q, st'.queue q =
    if res = false ∧ q = st.queueOf p then st.queue q ++ [e] else st.queue q

omit [Inhabited K] [LinearOrder K] in
/-- What requesting an atomic does. -/
theorem requested_of_acquireOrWait {ha : HeldAtomic I K D} {res : Bool}
    (hallocated : ∀ p, ha.atom = some p → st.Allocated p)
    (h : st.acquireOrWait e i ha = .ok (st', res)) :
    ∃ p, ha.atom = some p ∧ Requested st e i ha p st' res := by
  simp only [acquireOrWait] at h
  split at h
  · cases h
  · cases h
  next key p hkey hp =>
    have hset := sameShape_setHeld st e i { ha with haveit := false }
    have hacquire := sameShape_acquireAtomic (hset.extends p (hallocated p hp)).1 e
      ha.ref.wtype
    have hqueue : ∀ q, ((st.setHeld e i { ha with haveit := false }).acquireAtomic p e
        ha.ref.wtype).1.queue q = _ := queue_acquireAtomic p e ha.ref.wtype
    have hqueueOf : (st.setHeld e i { ha with haveit := false }).queueOf p = st.queueOf p := by
      cases p <;> rfl
    refine ⟨p, hp, ?_⟩
    cases hgrant : ((st.setHeld e i { ha with haveit := false }).acquireAtomic p e
        ha.ref.wtype).2 with
    | true =>
        simp only [hgrant, if_true] at h hqueue
        cases h
        refine ⟨(hset.trans hacquire).trans (sameShape_setHeld _ e i _), fun x hx => ?_, ?_,
          fun q => ?_⟩
        · rw [events_setHeld_ne _ hx, events_acquireAtomic, events_setHeld_ne _ hx]
        · simp
        · simpa using hqueue q
    | false =>
        simp only [hgrant] at h hqueue
        cases h
        refine ⟨hset.trans hacquire, fun x hx => ?_, ?_, fun q => ?_⟩
        · simp [events_setHeld_ne _ hx]
        · simp
        · simpa [hqueueOf] using hqueue q

/-- What visiting a guard does. -/
theorem visited_of_visit {res : Bool} (hwf : WellFormed guards st)
    (href : ∀ ha, (st.events e).holders[i]? = some ha → st.Referred ha)
    (hlt : i < (st.events e).holders.length)
    (h : st.visit guards e i = .ok (st', res)) : Visited guards st e i st' res := by
  simp only [visit] at h
  split at h
  · cases h
  next st1 hbuild =>
    have hbuilt := built_of_build hwf href hbuild
    have hraise : st1.SameShape (st1.raiseWorkingOn e i) := sameShape_setEvent _ _ _
    have hevent : (st1.raiseWorkingOn e i).events e =
        { st1.events e with workingOn := max (st1.events e).workingOn i } := by
      simp [raiseWorkingOn]
    have hothers : ∀ x, x ≠ e → (st1.raiseWorkingOn e i).events x = st.events x := by
      intro x hx
      rw [raiseWorkingOn, events_setEvent_ne _ hx, hbuilt.others x hx]
    have hchanged : Event.Changed i (st.events e) ((st1.raiseWorkingOn e i).events e) := by
      rw [hevent]
      exact ⟨hbuilt.changed.input, hbuilt.changed.isSortedAndKeyed,
        hbuilt.changed.isCompletelySorted, hbuilt.changed.refs, hbuilt.changed.elsewhere⟩
    have hwork : ((st1.raiseWorkingOn e i).events e).workingOn =
        max (st.events e).workingOn i := by
      rw [hevent, ← hbuilt.workingOn]
    have hqueue : ∀ q, (st1.raiseWorkingOn e i).queue q = st.queue q := by
      intro q
      rw [raiseWorkingOn, queue_setEvent, hbuilt.queue q]
    have hwf2 := hbuilt.wellFormed.of_sameShape hraise
    have hext2 := hbuilt.extendsOld.trans hraise.extends
    have hlen := hchanged.length
    split at h
    next hnone =>
      rw [List.getElem?_eq_none_iff] at hnone
      omega
    next ha hha =>
      have hha1 : (st1.events e).holders[i]? = some ha := by
        rw [hevent] at hha
        exact hha
      have hreferred := ((hbuilt.held ha hha1).1).mono hraise.extends
      split at h
      next hdone =>
        cases h
        refine ⟨hwf2, hext2, hothers, hchanged, hwork, ?_, fun _ => ⟨hqueue, ?_⟩,
          fun hres => absurd hres (by simp), ?_⟩
        · intro ha' hha'
          cases hha.symm.trans hha'
          exact hreferred
        · intro ha' hha'
          cases hha.symm.trans hha'
          exact (HeldAtomic.heldOrSkipped_iff ha).mpr hdone
        · intro ha' p hha' hp
          cases hha.symm.trans hha'
          exact hbuilt.lock ha p hha1 hp
      next =>
        rcases requested_of_acquireOrWait (fun p hp => (hreferred p hp).1) h with
          ⟨p, hp, hrequested⟩
        have hat : ∀ ha', (st'.events e).holders[i]? = some ha' →
            ha' = { ha with haveit := res } := by
          intro ha' hha'
          rw [hrequested.event] at hha'
          simp [show i < ((st1.raiseWorkingOn e i).events e).holders.length by omega] at hha'
          exact hha'.symm
        have hself : (st'.events e).holders[i]? = some { ha with haveit := res } := by
          rw [hrequested.event]
          simp [show i < ((st1.raiseWorkingOn e i).events e).holders.length by omega]
        have hwf3 := hwf2.of_sameShape hrequested.shape
        refine ⟨hwf3, hext2.trans hrequested.shape.extends, ?_, ?_, ?_, ?_, fun hres => ⟨?_, ?_⟩,
          fun hres => ⟨{ ha with haveit := res }, p, hself, hp, hres, fun q => ?_⟩, ?_⟩
        · intro x hx
          rw [hrequested.others x hx, hothers x hx]
        · rw [hrequested.event]
          exact hchanged.trans (Event.Changed.of_set hha rfl)
        · rw [hrequested.event]
          exact hwork
        · intro ha' hha'
          rw [hat ha' hha']
          exact fun q hq => hreferred.mono hrequested.shape.extends q hq
        · intro q
          rw [hrequested.queue q, hres]
          simp [hqueue q]
        · intro ha' hha'
          rw [hat ha' hha']
          exact Or.inl hres
        · rw [hrequested.queue q, hres, hwf2.queueOf_extends hwf3 hrequested.shape.extends
            (hreferred p hp).1]
          simp [hqueue q]
        · intro ha' q hha' hq
          rw [hat ha' hha'] at hq
          rw [hbuilt.lock ha q hha1 hq, hrequested.shape.madeFor, hraise.madeFor]

/-- What building the references of an event one after another leaves behind. -/
structure Keyed (guards : GuardId → Guard) (st : Store I K D) (e : EventId)
    (st' : Store I K D) : Prop where
  wellFormed : WellFormed guards st'
  extendsOld : st.Extends st'
  queue : ∀ q, st'.queue q = st.queue q
  others : ∀ x, x ≠ e → st'.events x = st.events x
  isSortedAndKeyed : (st'.events e).isSortedAndKeyed = (st.events e).isSortedAndKeyed
  isCompletelySorted : (st'.events e).isCompletelySorted = (st.events e).isCompletelySorted
  workingOn : (st'.events e).workingOn = (st.events e).workingOn
  refs : (st'.events e).holders.map HeldAtomic.ref = (st.events e).holders.map HeldAtomic.ref
  haveit : (st'.events e).holders.map HeldAtomic.haveit =
    (st.events e).holders.map HeldAtomic.haveit
  referred : ∀ ha ∈ (st'.events e).holders, st'.Referred ha

omit [Inhabited K] [LinearOrder K] in
/-- A property of each held atomic survives when it holds of the one that changed and
carries over for the others. -/
theorem forall_holders_of_changed {ev ev' : Event I K D} {P P' : HeldAtomic I K D → Prop}
    (hchanged : Event.Changed i ev ev') (hold : ∀ ha ∈ ev.holders, P ha)
    (hmono : ∀ ha, P ha → P' ha) (hnew : ∀ ha', ev'.holders[i]? = some ha' → P' ha') :
    ∀ ha ∈ ev'.holders, P' ha := by
  intro ha hha
  rcases List.getElem?_of_mem hha with ⟨j, hj⟩
  by_cases hji : j = i
  · exact hnew ha (hji ▸ hj)
  · rw [hchanged.elsewhere j hji] at hj
    exact hmono ha (hold ha (List.mem_of_getElem? hj))

/-- What computing the keys does. -/
theorem keyed_of_getKeys (positions : List Nat) (hwf : WellFormed guards st)
    (href : ∀ ha ∈ (st.events e).holders, st.Referred ha)
    (h : st.getKeys guards e positions = .ok st') : Keyed guards st e st' := by
  induction positions generalizing st with
  | nil =>
      cases h
      exact ⟨hwf, Extends.refl _, fun _ => rfl, fun _ _ => rfl, rfl, rfl, rfl, rfl, rfl, href⟩
  | cons j rest ih =>
      simp only [getKeys] at h
      split at h
      · cases h
      next st1 hbuild =>
        have hbuilt := built_of_build hwf
          (fun ha hha => href ha (List.mem_of_getElem? hha)) hbuild
        have href1 : ∀ ha ∈ (st1.events e).holders, st1.Referred ha :=
          forall_holders_of_changed hbuilt.changed href
            (fun _ hold => hold.mono hbuilt.extendsOld) fun ha' hha' => (hbuilt.held ha' hha').1
        have hhave : (st1.events e).holders.map HeldAtomic.haveit =
            (st.events e).holders.map HeldAtomic.haveit := by
          apply List.ext_getElem?
          intro k
          simp only [List.getElem?_map]
          by_cases hk : k = j
          · subst hk
            cases hnew : (st1.events e).holders[k]? with
            | none =>
                rw [List.getElem?_eq_none_iff, hbuilt.changed.length] at hnew
                rw [List.getElem?_eq_none hnew]
            | some ha' =>
                rcases (hbuilt.held ha' hnew).2 with ⟨ha, hha, hsame, -⟩
                simp [hha, hsame]
          · rw [hbuilt.changed.elsewhere k hk]
        have hrest := ih hbuilt.wellFormed href1 h
        exact ⟨hrest.wellFormed, hbuilt.extendsOld.trans hrest.extendsOld,
          fun q => (hrest.queue q).trans (hbuilt.queue q),
          fun x hx => (hrest.others x hx).trans (hbuilt.others x hx),
          hrest.isSortedAndKeyed.trans hbuilt.changed.isSortedAndKeyed,
          hrest.isCompletelySorted.trans hbuilt.changed.isCompletelySorted,
          hrest.workingOn.trans hbuilt.workingOn, hrest.refs.trans hbuilt.changed.refs,
          hrest.haveit.trans hhave, hrest.referred⟩

end Lookups

end Store
end Guards
end OFlux
