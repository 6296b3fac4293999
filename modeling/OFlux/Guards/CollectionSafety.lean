import OFlux.Guards.Collection

/-!
# What is left of a collected guard instance

A release clears the atomic pointer of a reference and leaves the key pointer.  An
event that has released early and lives on has such key pointers, and another event may
collect what they point to.

Main results:

- Theorem {lit}`collectsAt_iff_collected`: when a turn of a release collects.
- Theorem {lit}`collectionSafe_iff`: along a run no live event refers to something that
  was collected exactly when no release collects a key object that another reference of
  a live event kept.
-/

namespace OFlux
namespace Guards

open Library

variable {I K D : Type} [LinearOrder K] [Inhabited K] {guards : GuardId → Guard}
  {s t : State I K D}

/-! ## When a release collects -/

namespace Store

variable {st st' : Store I K D} {e : EventId} {i : Nat}

/-- The release of a held reference leaves an atomic that is to be collected. -/
def collectsAt (guards : GuardId → Guard) (st : Store I K D) (ha : HeldAtomic I K D) : Bool :=
  match ha.atom, (guards ha.ref.guard).amap with
  | some (.plain a), .std _ =>
      let result := (st.atomics a).release
      ha.haveit && (guards ha.ref.guard).isGC && result.2.isEmpty && result.1.waiting.isEmpty &&
        result.1.held == 0 && (st.atomics a).data.isNone
  | _, _ => false

omit [LinearOrder K] [Inhabited K] in
/-- When a release collects the atomic. -/
theorem collectsAt_iff {ha : HeldAtomic I K D} :
    st.collectsAt guards ha = true ↔ ∃ a cls, ha.haveit = true ∧ ha.atom = some (.plain a) ∧
      (guards ha.ref.guard).amap = .std cls ∧ (guards ha.ref.guard).isGC = true ∧
      (st.atomics a).release.2 = [] ∧ (st.atomics a).release.1.waiting = [] ∧
      (st.atomics a).release.1.held = 0 ∧ (st.atomics a).data = none := by
  simp only [collectsAt]
  split
  next a cls hp hcls => simp [hp, hcls, and_assoc]
  next hnot =>
    refine iff_of_false (by simp) ?_
    rintro ⟨a, cls, -, hp, hcls, -⟩
    exact hnot a cls hp hcls

omit [Inhabited K] in
/-- A turn of a release collects exactly what {lit}`collectsAt` says. -/
theorem collectsAt_iff_collected {ha : HeldAtomic I K D} {released : List EventId}
    (hreferred : st.Referred ha) (htracked : st.Tracked guards ha)
    (hi : (st.events e).holders[i]? = some ha)
    (hrelease : st.releaseAt guards e i = .ok (st', released)) :
    st.collectsAt guards ha = true ↔ ∃ a, Collected guards st e i a st' := by
  rw [collectsAt_iff]
  constructor
  · rintro ⟨a, cls, hhave, hp, hcls, hgc, hnone, hwaiting, hheld, hdata⟩
    rcases sameEntries_or_collected hrelease with hsame | ⟨-, hcollected⟩
    · exfalso
      rcases releaseAt_cases hrelease with
        ⟨hpass, -, -⟩ | ⟨ha1, p, st1, st2, hi1, -, hp1, hatomic, hhand, hend⟩
      · rw [hpass ha hi hhave] at hp
        cases hp
      · cases hi.symm.trans hi1
        cases hp.symm.trans hp1
        cases hatomic
        rw [hnone] at hhand hend
        cases hhand
        have hkey := (hreferred _ hp).2.2
        have hlookup := htracked.found cls _ a hcls hkey (htracked.owner _ hp) (htracked.live a hp)
        have hcollect : ∃ st3, collect guards (st.setAtomic a (st.atomics a).release.1) ha
            (.plain a) [] = .ok (some st3) := by
          simp [collect, queueOf, queue, setAtomic, heldCount, dataOf, hwaiting, hheld, hdata,
            garbageCollect, hcls, hkey, hgc, hlookup, htracked.owner _ hp]
        rcases hend with ⟨st3, hsome, rfl⟩ | ⟨hno, -⟩
        · obtain ⟨-, -, -, -, b, k, -, -, -, -, -, rfl⟩ := collect_eq_some hsome
          have hlist : b :: st.collected = st.collected := hsame.collected
          simp at hlist
        · obtain ⟨st3, hsome⟩ := hcollect
          rw [hno] at hsome
          cases hsome
    · exact hcollected
  · rintro ⟨a, hcollected⟩
    rcases releaseAt_cases hrelease with
      ⟨-, rfl, -⟩ | ⟨ha1, p, st1, st2, hi1, hhave, hp, hatomic, hhand, hend⟩
    · have hlist := hcollected.collected
      simp at hlist
    · cases hi.symm.trans hi1
      rcases hend with ⟨st3, hsome, rfl⟩ | ⟨-, hrelinquish⟩
      · obtain ⟨rfl, hqueue, hheld, hdata, b, k, rfl, -, -, hgc, ⟨cls, hcls⟩, -⟩ :=
          collect_eq_some hsome
        simp only [releaseAtomic, Except.ok.injEq, Prod.mk.injEq] at hatomic
        obtain ⟨rfl, hnone⟩ := hatomic
        cases hhand
        refine ⟨b, cls, hhave, hp, hcls, hgc, hnone, ?_, ?_, ?_⟩
        · simpa [queueOf, queue, setAtomic] using hqueue
        · simpa [heldCount, setAtomic] using hheld
        · simpa [dataOf, setAtomic] using hdata
      · have hsame := ((sameEntries_releaseAtomic hatomic).trans
          (steady_handOverAll hhand).toSameEntries).trans ((steady_setHeld st2 e i _).trans
            (steady_relinquish hrelinquish)).toSameEntries
        have hlist := hcollected.collected
        rw [hsame.collected] at hlist
        simp at hlist

/-- A reference with a key has the atomic of that key, or had the key before. -/
def KeyFrom (ev : Event I K D) (ha : HeldAtomic I K D) : Prop :=
  ha.key ≠ none → ha.atom = ha.keyOwner ∨
    ∃ ha0 ∈ ev.holders, ha0.key = ha.key ∧ ha0.keyOwner = ha.keyOwner

omit [LinearOrder K] [Inhabited K] in
/-- A reference has the key of the event. -/
theorem keyFrom_of_mem {ev : Event I K D} {ha : HeldAtomic I K D} (h : ha ∈ ev.holders) :
    KeyFrom ev ha :=
  fun _ => Or.inr ⟨ha, h, rfl, rfl⟩

/-- Building a reference keeps the keys. -/
theorem keyFrom_build (hwf : WellFormed guards st) {ev : Event I K D} {allowLate : Bool}
    (hold : ∀ ha ∈ (st.events e).holders, KeyFrom ev ha)
    (h : st.build guards e i allowLate = .ok st') :
    ∀ ha ∈ (st'.events e).holders, KeyFrom ev ha := by
  rcases build_cases h with rfl | ⟨ha, -, -, -, ⟨-, rfl⟩ | ⟨key, st1, p, key', -, hget, rfl⟩⟩
  · exact hold
  · rw [events_setHeld_self]
    intro x hx
    rcases List.mem_or_eq_of_mem_set hx with hmem | rfl
    · exact hold x hmem
    · exact fun hkey => absurd rfl hkey
  · rw [events_setHeld_self, (getAtomic_frame hwf hget).1]
    intro x hx
    rcases List.mem_or_eq_of_mem_set hx with hmem | rfl
    · exact hold x hmem
    · exact fun _ => Or.inl rfl

/-- Computing the keys gives every reference its key. -/
theorem keyFrom_getKeys {positions : List Nat} (htyped : Typed guards st)
    (hfree : ∀ ha ∈ (st.events e).holders, ha.haveit = false)
    (hkeys : st.getKeys guards e positions = .ok st') :
    ∀ ha ∈ (st'.events e).holders, KeyFrom (st.events e) ha := by
  refine getKeys_induction (P := fun st1 => ∀ ha ∈ (st1.events e).holders,
    KeyFrom (st.events e) ha) (fun st1 st2 j htyped _ hbuild hold => ?_) htyped hfree hkeys
    fun ha hha => keyFrom_of_mem hha
  exact keyFrom_build htyped.wellFormed hold hbuild

/-- A visit keeps the keys. -/
theorem keyFrom_visit (htyped : Typed guards st) {res : Bool}
    (h : st.visit guards e i = .ok (st', res)) :
    ∀ ha ∈ (st'.events e).holders, KeyFrom (st.events e) ha := by
  simp only [visit] at h
  split at h
  · cases h
  next st1 hbuild =>
    have hbuilt : ∀ ha ∈ (st1.events e).holders, KeyFrom (st.events e) ha :=
      keyFrom_build htyped.wellFormed (fun ha hha => keyFrom_of_mem hha) hbuild
    have hraised : ∀ ha ∈ ((st1.raiseWorkingOn e i).events e).holders,
        KeyFrom (st.events e) ha := by
      rw [raiseWorkingOn, events_setEvent_self]
      exact hbuilt
    split at h
    · cases h
      exact hraised
    next ha hi =>
      split at h
      · cases h
        exact hraised
      next hnot =>
        have hi1 : (st1.events e).holders[i]? = some ha := by
          rwa [raiseWorkingOn, events_setEvent_self] at hi
        have hreferred := ((htyped.build hbuild).referred e ha (List.mem_of_getElem? hi1)).mono
          (sameShape_setEvent st1 e { st1.events e with
            workingOn := max (st1.events e).workingOn i }).extends
        obtain ⟨p, hp, hrequested⟩ :=
          requested_of_acquireOrWait (fun p hp => (hreferred p hp).1) h
        rw [hrequested.event]
        intro x hx
        rcases List.mem_or_eq_of_mem_set hx with hmem | rfl
        · exact hraised x hmem
        · exact hraised ha (List.mem_of_getElem? hi)

omit [LinearOrder K] [Inhabited K] in
/-- Taking a guard keeps the keys. -/
theorem keyFrom_taken {ev : Event I K D} :
    ∀ ha ∈ ev.taken.holders, KeyFrom ev ha := by
  intro ha hha
  rw [Event.taken] at hha
  split at hha
  · exact keyFrom_of_mem hha
  next ha0 hi =>
    rcases List.mem_or_eq_of_mem_set hha with hold | rfl
    · exact keyFrom_of_mem hold
    · exact fun _ => Or.inr ⟨ha0, List.mem_of_getElem? hi, rfl, rfl⟩

omit [LinearOrder K] in
/-- A release changes its own reference, and gives the atomic to those that are released. -/
theorem keyFrom_releaseAt {released : List EventId} {x : EventId}
    (h : Released guards st x i st' released) :
    ∀ ha ∈ (st'.events e).holders, KeyFrom (st.events e) ha := by
  intro ha hha
  by_cases he : e = x
  · subst he
    obtain ⟨ha0, ha', hi, hevent, -⟩ := h.event
    have hlt := (List.getElem?_eq_some_iff.mp hi).1
    have hpointers := h.pointers ha0 ha' hi (by rw [hevent]; simp [hlt])
    rw [hevent] at hha
    rcases List.mem_or_eq_of_mem_set hha with hold | rfl
    · exact keyFrom_of_mem hold
    · intro hkey
      have hsame := hpointers.2.resolve_left hkey
      exact Or.inr ⟨ha0, List.mem_of_getElem? hi, hsame.symm, hpointers.1.symm⟩
  · rw [h.others e he] at hha
    split at hha
    · exact keyFrom_taken ha hha
    · exact keyFrom_of_mem hha

/-! Only releases collect. -/

/-- Building a reference collects nothing. -/
theorem collected_build (hwf : WellFormed guards st) {allowLate : Bool}
    (h : st.build guards e i allowLate = .ok st') : st'.collected = st.collected := by
  rcases build_cases h with rfl | ⟨ha, -, -, -, ⟨-, rfl⟩ | ⟨key, st1, p, key', -, hget, rfl⟩⟩
  · rfl
  · rfl
  · show st1.collected = st.collected
    simp only [getAtomic] at hget
    split at hget
    · cases hget
      rfl
    · split at hget <;> cases hget <;> rfl
    · cases hres : st.poolGet ha.ref.guard with
      | error err =>
          rw [hres] at hget
          cases hget
      | ok result =>
          rw [hres] at hget
          cases hget
          exact (steady_poolGet hres).collected

/-- Computing the keys collects nothing. -/
theorem collected_getKeys {positions : List Nat} (htyped : Typed guards st)
    (hfree : ∀ ha ∈ (st.events e).holders, ha.haveit = false)
    (hkeys : st.getKeys guards e positions = .ok st') : st'.collected = st.collected :=
  getKeys_induction (P := fun st1 => st1.collected = st.collected)
    (fun _ _ _ htyped _ hbuild hold => (collected_build htyped.wellFormed hbuild).trans hold)
    htyped hfree hkeys rfl

/-- A visit collects nothing. -/
theorem collected_visit (htyped : Typed guards st) {res : Bool}
    (h : st.visit guards e i = .ok (st', res)) : st'.collected = st.collected := by
  simp only [visit] at h
  split at h
  · cases h
  next st1 hbuild =>
    have hbuilt := collected_build htyped.wellFormed hbuild
    split at h
    · cases h
      exact hbuilt
    next ha hi =>
      split at h
      · cases h
        exact hbuilt
      · simp only [acquireOrWait] at h
        split at h
        · cases h
        · cases h
        next key p hkey hp =>
          cases h
          have hrequest : ((((st1.raiseWorkingOn e i).setHeld e i
              { ha with haveit := false }).acquireAtomic p e ha.ref.wtype).1).collected =
              st1.collected := by
            cases p with
            | plain a => rfl
            | pooled w => exact (steady_acquirePooled _ w e _).collected
          split
          · exact hrequest.trans hbuilt
          · exact hrequest.trans hbuilt

end Store

/-- An event that has not come to its last release. -/
def State.Live (s : State I K D) (e : EventId) : Prop :=
  e < s.created ∧ e ∉ s.finished ∧
    ∀ x ∈ s.executing, x.event = e → x.releasing = none ∨ x.isLast = false

instance (s : State I K D) (e : EventId) : Decidable (s.Live e) :=
  inferInstanceAs (Decidable (_ ∧ _ ∧ _))

/-- No live event refers to an atomic or a key that was collected. -/
structure State.CollectionSafe (guards : GuardId → Guard) (s : State I K D) : Prop where
  atoms : ∀ e, e < s.created → ∀ ha ∈ (s.store.events e).holders, ∀ a,
    ha.atom = some (.plain a) → a ∉ s.store.collected
  keys : ∀ e, s.Live e → ∀ ha ∈ (s.store.events e).holders, ∀ a,
    ha.key ≠ none → ha.keyOwner = some (.plain a) → a ∉ s.store.collected
  unheld : ∀ a ∈ s.store.collected, s.store.queue (.atomic a) = [] ∧
    ∀ e, e < s.created → ¬ s.Holds e (.atomic a)
  -- the next turn of a release fires no assertion, and collects what nobody else has
  collects : ∀ x ∈ s.executing, ∀ i, x.releasing = some (i + 1) →
    ∃ st released, s.store.releaseAt guards x.event i = .ok (st, released) ∧
      ∀ a ∈ st.collected, a ∈ s.store.collected ∨ s.store.queue (.atomic a) = [] ∧
        ∀ e, e < s.created → e ≠ x.event → ¬ s.Holds e (.atomic a)

/-- The reference has the key of another one of that guard. -/
def State.HasKeyOf (s : State I K D) (ha : HeldAtomic I K D) (e : EventId) (j : Nat) : Prop :=
  ∃ ha' ∈ (s.store.events e).holders[j]?, ha'.ref.guard = ha.ref.guard ∧ ha'.key = ha.key

instance (s : State I K D) (ha : HeldAtomic I K D) (e : EventId) (j : Nat) :
    Decidable (s.HasKeyOf ha e j) :=
  inferInstanceAs (Decidable (∃ ha' ∈ (s.store.events e).holders[j]?, _ ∧ _))

/-- Where a release collects an atomic, no other reference of a live event has kept the
key. -/
def State.KeepsKeys (guards : GuardId → Guard) (s : State I K D) : Action → Prop
  | .releaseAt e i => ∀ ha ∈ (s.store.events e).holders[i]?,
      s.store.collectsAt guards ha = true →
      ∀ e', e' < s.created → s.Live e' → ∀ j, j < (s.store.events e').holders.length →
        s.HasKeyOf ha e' j → e' = e ∧ j = i
  | _ => True

instance (guards : GuardId → Guard) (s : State I K D) (a : Action) :
    Decidable (s.KeepsKeys guards a) :=
  match a with
  | .releaseAt e i => inferInstanceAs (Decidable (∀ ha ∈ (s.store.events e).holders[i]?,
      s.store.collectsAt guards ha = true →
      ∀ e', e' < s.created → s.Live e' → ∀ j, j < (s.store.events e').holders.length →
        s.HasKeyOf ha e' j → e' = e ∧ j = i))
  | .create | .getKeysSort _ | .visit _ _ | .ready _ | .start _ | .write _ _ | .beginRelease _
  | .endRelease _ => .isTrue trivial

namespace Collecting

omit [LinearOrder K] in
/-- What nobody holds or waits for. -/
theorem unheld_of_unreferred (hinv : Invariant guards s) {a : AtomicId} {e : EventId}
    (h : ∀ ha ∈ (s.store.events e).holders, ha.atom ≠ some (.plain a)) :
    ¬ s.Holds e (.atomic a) ∧ e ∉ s.store.queue (.atomic a) := by
  have hplain : ∀ p, s.store.queueOf p = .atomic a → p = .plain a := by
    intro p hp
    cases p with
    | plain b => simpa [Store.queueOf] using hp
    | pooled w => simp [Store.queueOf] at hp
  refine ⟨?_, fun hmem => ?_⟩
  · rintro ⟨ha, hha, -, hq⟩
    cases hp : ha.atom with
    | none => simp [hp] at hq
    | some p =>
        rw [hp] at hq
        rw [hplain p (Option.some.inj hq)] at hp
        exact h ha hha hp
  · obtain ⟨ha, p, hget, hp, -, hq⟩ := hinv.consistent.waiting _ e hmem
    rw [hplain p hq] at hp
    exact h ha (List.mem_of_getElem? hget) hp

/-- All but the key objects is safe in any case. -/
theorem collectionSafe_iff_keys (h : Collecting guards s) (hinv : Invariant guards s) :
    s.CollectionSafe guards ↔ ∀ e, s.Live e → ∀ ha ∈ (s.store.events e).holders, ∀ a,
      ha.key ≠ none → ha.keyOwner = some (.plain a) → a ∉ s.store.collected := by
  refine ⟨fun hsafe => hsafe.keys, fun hkeys => ?_⟩
  have hatoms : ∀ e, e < s.created → ∀ ha ∈ (s.store.events e).holders, ∀ a,
      ha.atom = some (.plain a) → a ∉ s.store.collected :=
    fun e he ha hha a hp => (h.tracking.tracked e he ha hha).live a hp
  refine ⟨hatoms, hkeys, fun a ha => ⟨?_, fun e he => ?_⟩, fun x hx i hleft => ?_⟩
  · refine List.eq_nil_iff_forall_not_mem.mpr fun e hmem => ?_
    have hwaits : s.has e (.waiting (.atomic a)) := hmem
    exact (unheld_of_unreferred hinv fun ha' hha' hp =>
      hatoms e (hinv.lt_created hwaits) ha' hha' a hp ha).2 hmem
  · exact (unheld_of_unreferred hinv fun ha' hha' hp => hatoms e he ha' hha' a hp ha).1
  · obtain ⟨st, released, hrelease, heffect⟩ := h.releaseAt_eq_ok hinv hx hleft
    refine ⟨st, released, hrelease, fun a ha => ?_⟩
    rcases Store.sameEntries_or_collected hrelease with hsame | ⟨rfl, b, hcollected⟩
    · rw [hsame.collected] at ha
      exact Or.inl ha
    · rw [hcollected.collected] at ha
      rcases List.mem_cons.mp ha with rfl | hold
      · have htyped : Store.Typed guards st := (hinv.releaseAt hx hleft hrelease).typed
        refine Or.inr ⟨?_, fun e he hne => ?_⟩
        · obtain ⟨q0, hq0, hrest⟩ := heffect.queue
          have hqueue := hcollected.queue
          by_cases heq : Queue.atomic a = q0
          · rw [heq] at hqueue ⊢
            rw [hq0, hqueue]
            rfl
          · rw [← hrest _ heq]
            exact hqueue
        · have hevent : st.events e = s.store.events e := by
            simpa using heffect.others e hne
          refine (unheld_of_unreferred hinv fun ha' hha' => ?_).1
          rw [← hevent] at hha'
          exact h.unreferred_of_collected hinv hx heffect hrelease hcollected htyped he hha'
      · exact Or.inl hold

omit [LinearOrder K] [Inhabited K] in
/-- The execution of an event goes on. -/
theorem live_of_replaced {e : EventId} {x y : Execution} (h : t.Live e)
    (hcreated : t.created = s.created) (hfinished : t.finished = s.finished)
    (hexec : t.executing = y :: s.executing.erase x) (hevent : y.event = x.event)
    (hlast : y.releasing = none ∨ y.isLast = false → x.releasing = none ∨ x.isLast = false) :
    s.Live e := by
  rcases h with ⟨hlt, hnot, hall⟩
  refine ⟨hcreated ▸ hlt, hfinished ▸ hnot, fun z hz hze => ?_⟩
  by_cases hzx : z = x
  · subst hzx
    exact hlast (hall y (by rw [hexec]; exact List.mem_cons_self) (hevent.trans hze))
  · refine hall z ?_ hze
    rw [hexec]
    exact List.mem_cons_of_mem _ ((List.mem_erase_of_ne hzx).mpr hz)

/-- What an event has after a step it had before, but for the atomics that it has found. -/
theorem keyFrom_of_step (hinv : Invariant guards s) {a : Action} (hstep : Step guards s a t)
    {e : EventId} (hlive : t.Live e) {ha : HeldAtomic I K D}
    (hha : ha ∈ (t.store.events e).holders) (hkey : ha.key ≠ none) :
    ha.atom = ha.keyOwner ∨ s.Live e ∧
      ∃ ha0 ∈ (s.store.events e).holders, ha0.key = ha.key ∧ ha0.keyOwner = ha.keyOwner := by
  have hsame : ∀ {st : Store I K D}, ha ∈ (st.events e).holders →
      st.events e = s.store.events e → s.Live e → ha.atom = ha.keyOwner ∨ s.Live e ∧
        ∃ ha0 ∈ (s.store.events e).holders, ha0.key = ha.key ∧ ha0.keyOwner = ha.keyOwner :=
    fun hmem hevent hs => Or.inr ⟨hs, ha, hevent ▸ hmem, rfl, rfl⟩
  have hfrom : s.Live e → Store.KeyFrom (s.store.events e) ha →
      ha.atom = ha.keyOwner ∨ s.Live e ∧
        ∃ ha0 ∈ (s.store.events e).holders, ha0.key = ha.key ∧ ha0.keyOwner = ha.keyOwner :=
    fun hs hfrom => (hfrom hkey).imp_right fun hold => ⟨hs, hold⟩
  have hvisited : ∀ {x i st res}, i < (s.store.events x).holders.length →
      s.store.visit guards x i = .ok (st, res) → ha ∈ (st.events e).holders → s.Live e →
      ha.atom = ha.keyOwner ∨ s.Live e ∧
        ∃ ha0 ∈ (s.store.events e).holders, ha0.key = ha.key ∧ ha0.keyOwner = ha.keyOwner := by
    intro x i st res hlt hvisit hmem hs
    by_cases he : e = x
    · subst he
      exact hfrom hs (Store.keyFrom_visit hinv.typed hvisit ha hmem)
    · exact hsame hmem ((hinv.typed.visited hlt hvisit).others e he) hs
  cases hstep with
  | create node input =>
      by_cases he : e = s.created
      · subst he
        have hmem : ha ∈ ((s.store.setEvent s.created (node.newEvent input)).events
            s.created).holders := hha
        rw [Store.events_setEvent_self] at hmem
        rcases List.mem_map.mp hmem with ⟨ref, -, rfl⟩
        exact absurd rfl hkey
      · refine hsame hha (Store.events_setEvent_ne _ he) ⟨?_, hlive.2⟩
        exact Nat.lt_of_le_of_ne (Nat.lt_succ_iff.mp hlive.1) he
  | @getKeysSort x st sorted hcall hnew hkeys hsort =>
      have hcall' : s.has x (.acquiring 0) := hcall
      have hperm : sorted.Perm (st.events x).holders := by
        split at hsort
        · exact List.Perm.of_eq hsort
        · exact hsort.1
      by_cases he : e = x
      · subst he
        have hmem : ha ∈ ((st.setSorted e sorted).events e).holders := hha
        rw [Store.setSorted, Store.events_setEvent_self] at hmem
        refine hfrom hlive (Store.keyFrom_getKeys hinv.typed (fun ha hha => ?_) hkeys ha
          (hperm.mem_iff.mp hmem))
        rcases List.getElem?_of_mem hha with ⟨j, hj⟩
        exact (hinv.status e _ hcall').2.2.2.2 j ha (Nat.zero_le j) hj
      · have hk := Store.keyed_of_getKeys _ hinv.typed.wellFormed (hinv.typed.referred x) hkeys
        exact hsame hha ((Store.events_setEvent_ne _ he).trans (hk.others e he)) hlive
  | @acquired x i st hcall hkeyed hlt hvisit => exact hvisited hlt hvisit hha hlive
  | @queued x i st hcall hkeyed hlt hvisit => exact hvisited hlt hvisit hha hlive
  | ready hcall hkeyed hend => exact hsame hha rfl hlive
  | start hrunnable =>
      refine hsame hha rfl ⟨hlive.1, hlive.2.1, fun y hy => ?_⟩
      exact hlive.2.2 y (List.mem_cons_of_mem _ hy)
  | @write x i ha0 p hx hrunning hi hheld hp d =>
      exact hsame hha (congrFun (Store.events_setData p d) e) hlive
  | @beginRelease x hx hrunning isLast =>
      exact hsame hha rfl (live_of_replaced hlive rfl rfl rfl rfl fun _ => Or.inl hrunning)
  | @releaseAt x i st released hx hleft hrelease =>
      have hs : s.Live e := live_of_replaced hlive rfl rfl rfl rfl
        fun h => Or.inr (by simpa using h)
      exact hfrom hs (Store.keyFrom_releaseAt (hinv.released_of_releaseAt hx hleft hrelease) ha hha)
  | @releasedEarly x hx hleft hlast =>
      exact hsame hha rfl (live_of_replaced hlive rfl rfl rfl rfl fun _ => Or.inr hlast)
  | @finish x hx hleft hlast =>
      have hnot : e ∉ x.event :: s.finished := hlive.2.1
      rw [List.mem_cons, not_or] at hnot
      refine hsame hha rfl ⟨hlive.1, hnot.2, fun z hz hze => ?_⟩
      have hzx : z ≠ x := fun heq => hnot.1 (heq ▸ hze.symm)
      exact hlive.2.2 z ((List.mem_erase_of_ne hzx).mpr hz) hze

/-- Nothing is collected, or a turn of a release collects one atomic. -/
theorem collected_of_step (hinv : Invariant guards s) {a : Action}
    (hstep : Step guards s a t) :
    t.store.collected = s.store.collected ∨
      ∃ x i st b, a = .releaseAt x.event i ∧ x ∈ s.executing ∧ x.releasing = some (i + 1) ∧
        s.store.releaseAt guards x.event i = .ok (st, []) ∧ t.store = st ∧
        Store.Collected guards s.store x.event i b st := by
  cases hstep with
  | create node input => exact Or.inl rfl
  | @getKeysSort e st sorted hcall hnew hkeys hsort =>
      have hcall' : s.has e (.acquiring 0) := hcall
      have hfree : ∀ ha ∈ (s.store.events e).holders, ha.haveit = false := by
        intro ha hha
        rcases List.getElem?_of_mem hha with ⟨j, hj⟩
        exact (hinv.status e _ hcall').2.2.2.2 j ha (Nat.zero_le j) hj
      have hsame : st.collected = s.store.collected :=
        Store.collected_getKeys hinv.typed hfree hkeys
      exact Or.inl hsame
  | acquired hcall hsorted hlt hvisit => exact Or.inl (Store.collected_visit hinv.typed hvisit)
  | queued hcall hsorted hlt hvisit => exact Or.inl (Store.collected_visit hinv.typed hvisit)
  | ready hcall hsorted hend => exact Or.inl rfl
  | start hrunnable => exact Or.inl rfl
  | write hx hrunning hi hheld hp d => exact Or.inl (Store.steady_setData _ _ d).collected
  | beginRelease hx hrunning isLast => exact Or.inl rfl
  | @releaseAt x i st released hx hleft hrelease =>
      rcases Store.sameEntries_or_collected hrelease with hsame | ⟨rfl, b, hcollected⟩
      · exact Or.inl hsame.collected
      · exact Or.inr ⟨x, i, st, b, rfl, hx, hleft, hrelease, rfl, hcollected⟩
  | releasedEarly hx hleft hlast => exact Or.inl rfl
  | finish hx hleft hlast => exact Or.inl rfl

omit [LinearOrder K] in
/-- A collection leaves every reference but the released one as it is. -/
theorem holders_of_collected {x : Execution} {i : Nat} {st : Store I K D}
    (heffect : Store.Released guards s.store x.event i st []) {e : EventId} {j : Nat}
    (hne : ¬ (e = x.event ∧ j = i)) :
    (st.events e).holders[j]? = (s.store.events e).holders[j]? := by
  by_cases he : e = x.event
  · subst he
    obtain ⟨ha, ha', -, hevent, -⟩ := heffect.event
    have hji : j ≠ i := fun heq => hne ⟨rfl, heq⟩
    rw [hevent, List.getElem?_set_ne (Ne.symm hji)]
  · have hevent := heffect.others e he
    rw [hevent]
    simp

/-- The key object of another reference to the key goes with a collected atomic. -/
theorem keyOwner_of_hasKeyOf (h : Collecting guards s) (hinv : Invariant guards s)
    (hsafe : s.CollectionSafe guards) {x : Execution} {i : Nat} {st : Store I K D} {b : AtomicId}
    (hcollected : Store.Collected guards s.store x.event i b st) {ha : HeldAtomic I K D}
    (hi : (s.store.events x.event).holders[i]? = some ha) {e : EventId} (hlive : s.Live e)
    {ha' : HeldAtomic I K D} (hmem : ha' ∈ (s.store.events e).holders)
    (hguard : ha'.ref.guard = ha.ref.guard) (hkey : ha'.key = ha.key) :
    ha'.key ≠ none ∧ ha'.keyOwner = some (.plain b) := by
  obtain ⟨ha1, k, hi1, -, hk, hlookup, -, ⟨cls, hcls⟩, -⟩ := hcollected.holder
  cases hi.symm.trans hi1
  rw [hk] at hkey
  have htracked := h.tracking.tracked e hlive.1 ha' hmem
  obtain ⟨p, howner⟩ := htracked.keyed k hkey
  have hmade := htracked.made p howner
  rw [← hguard] at hcls hlookup
  have hplain : ∃ c, p = .plain c := by
    cases p with
    | plain c => exact ⟨c, rfl⟩
    | pooled w =>
        have hpool := (hinv.typed.wellFormed.poolLike _ hmade.1).mp rfl
        rw [hmade.2.1, hcls] at hpool
        cases hpool
  obtain ⟨c, rfl⟩ := hplain
  have hne : ha'.key ≠ none := by simp [hkey]
  have hfound := htracked.found cls k c hcls hkey howner (hsafe.keys e hlive ha' hmem c hne howner)
  cases hfound.symm.trans hlookup
  exact ⟨hne, howner⟩

/-- A reference with the key object of a collected atomic has the guard and the key. -/
theorem hasKeyOf_of_keyOwner (h : Collecting guards s) (hinv : Invariant guards s)
    {x : Execution} (hx : x ∈ s.executing) {i : Nat} {st : Store I K D} {b : AtomicId}
    (hcollected : Store.Collected guards s.store x.event i b st) {ha : HeldAtomic I K D}
    (hi : (s.store.events x.event).holders[i]? = some ha) {e : EventId} (he : e < s.created)
    {j : Nat} {ha' : HeldAtomic I K D} (hj : (s.store.events e).holders[j]? = some ha')
    (hkey : ha'.key ≠ none) (howner : ha'.keyOwner = some (.plain b)) : s.HasKeyOf ha e j := by
  obtain ⟨ha1, k, hi1, hp, hk, -⟩ := hcollected.holder
  cases hi.symm.trans hi1
  have hcall' : s.has x.event (.executing x) := ⟨hx, rfl⟩
  have htracked := h.tracking.tracked x.event (hinv.lt_created hcall') ha
    (List.mem_of_getElem? hi)
  have hmade := htracked.made _ (htracked.owner _ hp)
  have hmade' := (h.tracking.tracked e he ha' (List.mem_of_getElem? hj)).made _ howner
  refine ⟨ha', hj, hmade'.2.1.symm.trans hmade.2.1, ?_⟩
  cases hk' : ha'.key with
  | none => exact absurd hk' hkey
  | some k' => rw [hk, hmade'.2.2 k' hk', hmade.2.2 k hk]

/-- A step from a safe state leads to a safe one exactly when it collects no key object
that another reference kept. -/
theorem collectionSafe_step_iff (h : Collecting guards s) (hinv : Invariant guards s)
    (hsafe : s.CollectionSafe guards) {a : Action} (hstep : Step guards s a t) :
    t.CollectionSafe guards ↔ s.KeepsKeys guards a := by
  have hinv' := hinv.step hstep
  have h' := h.step hinv hstep
  have hrefs : ∀ {x : Execution} {i : Nat} {ha : HeldAtomic I K D}, x ∈ s.executing →
      (s.store.events x.event).holders[i]? = some ha →
      s.store.Referred ha ∧ s.store.Tracked guards ha := by
    intro x i ha hx hi
    have hcall' : s.has x.event (.executing x) := ⟨hx, rfl⟩
    exact ⟨hinv.typed.referred x.event ha (List.mem_of_getElem? hi),
      h.tracking.tracked x.event (hinv.lt_created hcall') ha (List.mem_of_getElem? hi)⟩
  rw [h'.collectionSafe_iff_keys hinv']
  constructor
  · intro hkeys
    cases hstep with
    | @releaseAt x i st released hx hleft hrelease =>
        intro ha hi hcollects e _ hlive j _ hsame
        obtain ⟨b, hcollected⟩ := (Store.collectsAt_iff_collected (hrefs hx hi).1 (hrefs hx hi).2 hi
          hrelease).mp hcollects
        have hempty : released = [] := by
          rcases Store.sameEntries_or_collected hrelease with hno | ⟨hempty, -⟩
          · have hlist := hcollected.collected
            rw [hno.collected] at hlist
            simp at hlist
          · exact hempty
        subst hempty
        have heffect := hinv.released_of_releaseAt hx hleft hrelease
        by_contra hne
        obtain ⟨ha', hj, hguard, hkey⟩ := hsame
        have howner := h.keyOwner_of_hasKeyOf hinv hsafe hcollected hi hlive
          (List.mem_of_getElem? hj) hguard hkey
        have hj' := (holders_of_collected heffect hne).trans hj
        refine hkeys e ⟨hlive.1, hlive.2.1, fun y hy hye => ?_⟩ ha' (List.mem_of_getElem? hj') b
          howner.1 howner.2 ?_
        · rcases List.mem_cons.mp hy with rfl | hold
          · refine Or.inr ((hlive.2.2 x hx hye).resolve_left ?_)
            simp [hleft]
          · exact hlive.2.2 y (List.mem_of_mem_erase hold) hye
        · show b ∈ st.collected
          rw [hcollected.collected]
          exact List.mem_cons_self
    | _ => trivial
  · intro hkeeps e hlive ha hha b hkey howner hmem
    rcases keyFrom_of_step hinv hstep hlive hha hkey with hatom | ⟨hs, ha0, hmem0, hkey0, howner0⟩
    · exact (h'.tracking.tracked e hlive.1 ha hha).live b (hatom.trans howner) hmem
    · have hnot := hsafe.keys e hs ha0 hmem0 b (hkey0 ▸ hkey) (howner0.trans howner)
      rcases collected_of_step hinv hstep with
        hsame | ⟨x, i, st, c, rfl, hx, hleft, hrelease, hst, hcollected⟩
      · rw [hsame] at hmem
        exact hnot hmem
      · rw [hst, hcollected.collected] at hmem
        rw [hst] at hha
        rcases List.mem_cons.mp hmem with rfl | hold
        · have heffect := hinv.released_of_releaseAt hx hleft hrelease
          obtain ⟨ha1, -, hi1, -⟩ := hcollected.holder
          have hcollects := (Store.collectsAt_iff_collected (hrefs hx hi1).1 (hrefs hx hi1).2 hi1
            hrelease).mpr ⟨_, hcollected⟩
          obtain ⟨j, hj⟩ := List.getElem?_of_mem hha
          by_cases hat : e = x.event ∧ j = i
          · obtain ⟨rfl, rfl⟩ := hat
            obtain ⟨ha2, k, hi2, -, -, -, -, -, -, ha', hevents, -, -, hnone, -⟩ :=
              hcollected.holder
            have hlt := (List.getElem?_eq_some_iff.mp hi2).1
            rw [hevents, Store.events_setHeld_self] at hj
            simp only [List.getElem?_set_self hlt, Option.some.injEq] at hj
            exact hkey (hj ▸ hnone)
          · have hj0 := (holders_of_collected heffect hat).symm.trans hj
            have hlt := (List.getElem?_eq_some_iff.mp hj0).1
            exact hat (hkeeps ha1 hi1 hcollects e hs.1 hs j hlt
              (h.hasKeyOf_of_keyOwner hinv hx hcollected hi1 hs.1 hj0 hkey howner))
        · exact hnot hold

end Collecting

/-- Along a run no live event refers to an atomic or a key that was collected exactly
when no release collects a key object that another reference of a live event kept. -/
theorem collectionSafe_iff {path : List (Action × State I K D)} (hinit : Initial guards s)
    (hrun : (system I K D guards).Run s path) :
    TransitionSystem.StatesMeet (State.CollectionSafe guards) path ↔
      TransitionSystem.StepsMeet (fun s a _ => s.KeepsKeys guards a) s path := by
  have hinv := Invariant.of_initial hinit
  have hcollecting := Collecting.of_initial hinit
  have hsafe : s.CollectionSafe guards := by
    refine (hcollecting.collectionSafe_iff_keys hinv).mpr fun e hlive => ?_
    have hlt := hlive.1
    rw [hinit.created] at hlt
    exact absurd hlt (Nat.not_lt_zero e)
  exact hrun.statesMeet_iff_stepsMeet (I := fun s => Invariant guards s ∧ Collecting guards s)
    (fun s a t hs hstep => ⟨hs.1.step hstep, hs.2.step hs.1 hstep⟩)
    (fun s a t hs hp hstep => hs.2.collectionSafe_step_iff hs.1 hp hstep) ⟨hinv, hcollecting⟩ hsafe

/-! ## Two readers of a collectable guard -/

/-- Guards that each have a keyed map and are collected. -/
def collectableGuards : GuardId → Guard :=
  fun g => { magicNumber := g, amap := .std .readWrite, isGC := true }

/-- The empty state of the example is initial. -/
theorem initial_empty_collectableGuards :
    Initial collectableGuards (State.empty (Nat × Nat) Nat Unit) :=
  initial_empty fun g a => by simp [collectableGuards]

/-- A node that reads the instance of its first key. -/
def collectableNode : Node collectableGuards (Nat × Nat) Nat Unit where
  guardRefs := [keyedRef WType.read Prod.fst 0]
  ascending := by simp
  poolMode := by simp [collectableGuards]

/-- A new event of the node, until it executes. -/
def readingEvent (e : EventId) : List (Command collectableGuards (Nat × Nat) Nat Unit) := [
  .create collectableNode (1, 1), .getKeysSort e, .visit e 0, .ready e 1, .start e]

/-- The event releases, and finishes when this is its last release. -/
def releasingEvent (e : EventId) (isLast : Bool) :
    List (Command collectableGuards (Nat × Nat) Nat Unit) := [
  .beginRelease { event := e } isLast,
  .releaseAt { event := e, releasing := some 1, isLast := isLast } 0,
  .endRelease { event := e, releasing := some 0, isLast := isLast }]

/-- Two readers one after the other: each time the atomic is collected, and made again. -/
theorem collectionSafe_iff_oneAfterTheOther :
    TransitionSystem.StatesMeet (State.CollectionSafe collectableGuards)
      ((State.empty (Nat × Nat) Nat Unit).runOf
        (readingEvent 0 ++ releasingEvent 0 true ++ readingEvent 1 ++ releasingEvent 1 true)) :=
  (collectionSafe_iff initial_empty_collectableGuards
    (State.run_runOf (fun _ _ h => h) _ _)).mpr (by decide)

/-- One of two readers releases early; the other one collects the key that it kept. -/
theorem not_collectionSafe_earlyRelease :
    ¬ ∀ (guards : GuardId → Guard) (s : State (Nat × Nat) Nat Unit)
        (path : List (Action × State (Nat × Nat) Nat Unit)), Initial guards s →
      (system (Nat × Nat) Nat Unit guards).Run s path →
      TransitionSystem.StatesMeet (State.CollectionSafe guards) path := by
  intro hall
  have hdangling : ∃ step ∈ (State.empty (Nat × Nat) Nat Unit).runOf (readingEvent 0 ++
        readingEvent 1 ++ releasingEvent 0 false ++ releasingEvent 1 true),
      step.2.Live 0 ∧ ∃ ha ∈ (step.2.store.events 0).holders,
        ha.key ≠ none ∧ ha.keyOwner = some (.plain 0) ∧ 0 ∈ step.2.store.collected := by decide
  rcases hdangling with ⟨step, hstep, hlive, ha, hha, hkey, howner, hmem⟩
  have hsafe := hall collectableGuards _ _ initial_empty_collectableGuards
    (State.run_runOf (fun _ _ h => h) _ _) step hstep
  exact hsafe.keys 0 hlive ha hha 0 hkey howner hmem

end Guards
end OFlux
