import OFlux.Guards.AcquireEffect

/-!
# What one turn of a release does

A release gives an atomic back and hands it over to the events at the front of its
queue.  Each of them waits with the reference at its working position, so the search
of the release loop ends right there and its assertions hold.

Main results:

- Theorem {lit}`handOverAll_eq_ok`: every released event takes the atomic over at its
  working position.
- Theorem {lit}`releaseAt_spec`: one turn of a release, and that its assertions hold.
-/

namespace OFlux
namespace Guards

variable {I K D : Type}

namespace Store

variable {st st' : Store I K D} {e : EventId} {i : Nat}

/-! ## Handing over -/

/-- The event waits with the reference at its working position. -/
def WaitsAt (st : Store I K D) (ev : Event I K D) (q : Queue) : Prop :=
  ∃ ha p, ev.holders[ev.workingOn]? = some ha ∧ ha.atom = some p ∧ ha.haveit = false ∧
    st.queueOf p = q

end Store

/-- The event after the atomic at its working position was handed over. -/
def Event.taken (ev : Event I K D) : Event I K D :=
  match ev.holders[ev.workingOn]? with
  | none => ev
  | some ha =>
      { ev with holders := ev.holders.set ev.workingOn { ha with haveit := true },
                workingOn := ev.workingOn + 1 }

namespace Store

variable {st st' : Store I K D} {e : EventId} {i : Nat}

/-- The references of the events fit the guards. -/
structure Typed [Inhabited K] (guards : GuardId → Guard) (st : Store I K D) : Prop where
  wellFormed : WellFormed guards st
  referred : ∀ x ha, ha ∈ (st.events x).holders → st.Referred ha
  poolMode : ∀ x ha, ha ∈ (st.events x).holders →
    (guards ha.ref.guard).amap = .pool → ha.ref.wtype = WType.pool

theorem WaitsAt.mono [Inhabited K] {guards : GuardId → Guard} {x : EventId} {q : Queue}
    (h : st.WaitsAt (st.events x) q) (htyped : Typed guards st) (hwf : WellFormed guards st')
    (hext : st.Extends st') : st'.WaitsAt (st.events x) q := by
  rcases h with ⟨ha, p, hha, hp, hfree, hq⟩
  have hallocated := (htyped.referred x ha (List.mem_of_getElem? hha) p hp).1
  exact ⟨ha, p, hha, hp, hfree,
    (htyped.wellFormed.queueOf_extends hwf hext hallocated).trans hq⟩

/-- Every held atomic of the later event refers as one of the earlier event did. -/
def RefersAs (ev ev' : Event I K D) : Prop :=
  ∀ ha' ∈ ev'.holders, ∃ ha ∈ ev.holders,
    ha'.ref = ha.ref ∧ (ha'.atom = none ∨ ha'.atom = ha.atom ∧ ha'.key = ha.key)

/-- Events that refer to the same atomics stay typed. -/
theorem Typed.of_refersAs [Inhabited K] {guards : GuardId → Guard} (h : Typed guards st)
    (hwf : WellFormed guards st') (hext : st.Extends st')
    (hrefers : ∀ x, RefersAs (st.events x) (st'.events x)) : Typed guards st' := by
  refine ⟨hwf, fun x ha' hha' p hp => ?_, fun x ha' hha' hpool => ?_⟩
  · rcases hrefers x ha' hha' with ⟨ha, hha, href, hnone | ⟨hatom, hkey⟩⟩
    · rw [hnone] at hp
      cases hp
    · rw [href, hkey]
      exact (h.referred x ha hha).mono hext p (hatom ▸ hp)
  · rcases hrefers x ha' hha' with ⟨ha, hha, href, -⟩
    rw [href] at hpool ⊢
    exact h.poolMode x ha hha hpool

/-- Only one event changes, to references that it had. -/
theorem Typed.of_event [Inhabited K] {guards : GuardId → Guard} (h : Typed guards st)
    (hwf : WellFormed guards st') (hext : st.Extends st')
    (hothers : ∀ x, x ≠ e → st'.events x = st.events x)
    (hrefs : ∀ ha' ∈ (st'.events e).holders,
      ∃ ha ∈ (st.events e).holders, ha'.ref = ha.ref)
    (hreferred : ∀ ha' ∈ (st'.events e).holders, st'.Referred ha') : Typed guards st' := by
  refine ⟨hwf, fun x ha' hha' => ?_, fun x ha' hha' => ?_⟩
  · by_cases hx : x = e
    · subst hx
      exact hreferred ha' hha'
    · rw [hothers x hx] at hha'
      exact (h.referred x ha' hha').mono hext
  · by_cases hx : x = e
    · subst hx
      rcases hrefs ha' hha' with ⟨ha, hha, href⟩
      rw [href]
      exact h.poolMode x ha hha
    · rw [hothers x hx] at hha'
      exact h.poolMode x ha' hha'

/-- Equal lists of references. -/
theorem exists_ref_of_map_eq {ev ev' : Event I K D}
    (h : ev'.holders.map HeldAtomic.ref = ev.holders.map HeldAtomic.ref) :
    ∀ ha' ∈ ev'.holders, ∃ ha ∈ ev.holders, ha'.ref = ha.ref := by
  intro ha' hha'
  have hmem : ha'.ref ∈ ev.holders.map HeldAtomic.ref := by
    rw [← h]
    exact List.mem_map_of_mem hha'
  rcases List.mem_map.mp hmem with ⟨ha, hha, href⟩
  exact ⟨ha, hha, href.symm⟩

section Keys

variable [LinearOrder K] [Inhabited K] {guards : GuardId → Guard}

/-- Building a reference in a typed store. -/
theorem Typed.built (h : Typed guards st) {allowLate : Bool}
    (hbuild : st.build guards e i allowLate = .ok st') : Built guards st e i st' :=
  built_of_build h.wellFormed (fun ha hha => h.referred e ha (List.mem_of_getElem? hha)) hbuild

/-- One turn of an acquisition in a store whose references are typed. -/
theorem Typed.visited (h : Typed guards st) {res : Bool} (hlt : i < (st.events e).holders.length)
    (hvisit : st.visit guards e i = .ok (st', res)) : Visited guards st e i st' res :=
  visited_of_visit h.wellFormed (fun ha hha => h.referred e ha (List.mem_of_getElem? hha)) hlt
    hvisit

/-- Building a reference keeps the store typed. -/
theorem Typed.build (h : Typed guards st) {allowLate : Bool}
    (hbuild : st.build guards e i allowLate = .ok st') : Typed guards st' := by
  have hbuilt := h.built hbuild
  exact h.of_event hbuilt.wellFormed hbuilt.extendsOld hbuilt.others
    (exists_ref_of_map_eq hbuilt.changed.refs)
    (forall_holders_of_changed hbuilt.changed (h.referred e)
      (fun _ hold => hold.mono hbuilt.extendsOld) fun ha' hha' => (hbuilt.held ha' hha').1)

/-- What each call of {lit}`build` keeps, the first loop of {lit}`get_keys_sort` keeps. -/
theorem getKeys_induction {P : Store I K D → Prop}
    (hstep : ∀ st st1 j, Typed guards st →
      (∀ ha ∈ (st.events e).holders, ha.haveit = false) →
      st.build guards e j false = .ok st1 → P st → P st1)
    {positions : List Nat} (htyped : Typed guards st)
    (hfree : ∀ ha ∈ (st.events e).holders, ha.haveit = false)
    (hkeys : st.getKeys guards e positions = .ok st') (h : P st) : P st' := by
  induction positions generalizing st with
  | nil =>
      cases hkeys
      exact h
  | cons j rest ih =>
      simp only [getKeys] at hkeys
      split at hkeys
      · cases hkeys
      next st1 hbuild =>
        have hbuilt := htyped.built hbuild
        refine ih (htyped.build hbuild) ?_ hkeys (hstep st st1 j htyped hfree hbuild h)
        refine forall_holders_of_changed hbuilt.changed hfree (fun _ hold => hold)
          fun ha' hha' => ?_
        rcases (hbuilt.held ha' hha').2 with ⟨ha, hha, hsame, -⟩
        rw [hsame]
        exact hfree ha (List.mem_of_getElem? hha)

end Keys

theorem RefersAs.refl (ev : Event I K D) : RefersAs ev ev :=
  fun ha hha => ⟨ha, hha, rfl, Or.inr ⟨rfl, rfl⟩⟩

theorem RefersAs.trans {ev1 ev2 ev3 : Event I K D} (h12 : RefersAs ev1 ev2)
    (h23 : RefersAs ev2 ev3) : RefersAs ev1 ev3 := by
  intro ha3 hha3
  rcases h23 ha3 hha3 with ⟨ha2, hha2, href, hatom⟩
  rcases h12 ha2 hha2 with ⟨ha1, hha1, href', hatom'⟩
  refine ⟨ha1, hha1, href.trans href', ?_⟩
  rcases hatom with hnone | ⟨hatom, hkey⟩
  · exact Or.inl hnone
  · rcases hatom' with hnone | ⟨hatom', hkey'⟩
    · exact Or.inl (hatom.trans hnone)
    · exact Or.inr ⟨hatom.trans hatom', hkey.trans hkey'⟩

/-- Clearing one reference keeps the others. -/
theorem RefersAs.of_set {ev : Event I K D} {i : Nat} {ha ha' : HeldAtomic I K D} {w : Nat}
    (hi : ev.holders[i]? = some ha) (href : ha'.ref = ha.ref)
    (hatom : ha'.atom = none ∨ ha'.atom = ha.atom ∧ ha'.key = ha.key) :
    RefersAs ev { ev with holders := ev.holders.set i ha', workingOn := w } := by
  intro x hx
  rcases List.mem_or_eq_of_mem_set hx with hold | rfl
  · exact ⟨x, hold, rfl, Or.inr ⟨rfl, rfl⟩⟩
  · exact ⟨ha, List.mem_of_getElem? hi, href, hatom⟩

/-- Taking a guard changes no reference. -/
theorem refersAs_taken (ev : Event I K D) : RefersAs ev ev.taken := by
  rw [Event.taken]
  split
  · exact RefersAs.refl ev
  next ha hha => exact RefersAs.of_set hha rfl (Or.inr ⟨rfl, rfl⟩)

/-- Taking a guard changes no reference. -/
theorem taken_refs (ev : Event I K D) :
    ev.taken.holders.map HeldAtomic.ref = ev.holders.map HeldAtomic.ref := by
  rw [Event.taken]
  split
  · rfl
  next ha hha =>
      have hset : Event.Changed ev.workingOn ev
          { ev with holders := ev.holders.set ev.workingOn { ha with haveit := true } } :=
        Event.Changed.of_set hha rfl
      exact hset.refs

section Release

variable [LinearOrder K] [Inhabited K] {guards : GuardId → Guard}

/-- Two references with one queue fit each other. -/
theorem waitsThere_of_queueOf {ha rel : HeldAtomic I K D} {p p' : AtomicPtr}
    (hwf : WellFormed guards st) (hha : st.Referred ha) (hp : ha.atom = some p)
    (hrel : st.Referred rel) (hp' : rel.atom = some p')
    (hmode : (guards ha.ref.guard).amap = .pool → ha.ref.wtype = WType.pool)
    (hmode' : (guards rel.ref.guard).amap = .pool → rel.ref.wtype = WType.pool)
    (hqueue : st.queueOf p' = st.queueOf p) : waitsThere guards ha p rel = true := by
  have hmade := hha p hp
  have hmade' := hrel p' hp'
  rw [hwf.queueOf_eq hmade.1, hwf.queueOf_eq hmade'.1, hmade.2.1, hmade'.2.1] at hqueue
  cases p with
  | plain a =>
      cases p' with
      | plain b =>
          simp only [queueFor, Queue.atomic.injEq] at hqueue
          subst hqueue
          simp [waitsThere, hp']
      | pooled w => simp [queueFor] at hqueue
  | pooled w =>
      cases p' with
      | plain b => simp [queueFor] at hqueue
      | pooled v =>
          -- both are wrappers of one pool, which does not tell keys apart
          simp only [queueFor, Queue.pool.injEq] at hqueue
          have hpool : (guards ha.ref.guard).amap = .pool := by
            have hlike := (hwf.poolLike _ hmade.1).mp rfl
            rwa [hmade.2.1] at hlike
          have hwtype := hmode hpool
          have hwtype' := hmode' (by rw [hqueue]; exact hpool)
          simp [waitsThere, AtomicPtr.isPoolLike, HeldAtomic.compare, Guard.compareKeys,
            hqueue, hwtype, hwtype', hpool]

/-- A waiting event takes the atomic over at its working position. -/
theorem handOver_eq_ok {ha : HeldAtomic I K D} {p : AtomicPtr} {rel : EventId}
    (hc : Typed guards st) (hha : ha ∈ (st.events e).holders) (hp : ha.atom = some p)
    (hwaits : st.WaitsAt (st.events rel) (st.queueOf p)) (hne : rel ≠ e)
    (hheld : workingOnHeld (st.events e) = true) :
    st.handOver guards e ha p rel = .ok (st.setEvent rel (st.events rel).taken) := by
  rcases hwaits with ⟨relHa, p', hrelHa, hp', -, hqueue⟩
  have hlt := (List.getElem?_eq_some_iff.mp hrelHa).1
  have hmem := List.mem_of_getElem? hrelHa
  have hthere := waitsThere_of_queueOf hc.wellFormed (hc.referred _ _ hha) hp
    (hc.referred _ _ hmem) hp' (hc.poolMode _ _ hha) (hc.poolMode _ _ hmem) hqueue
  have hposition : waitingPosition guards (st.events rel) ha p =
      some (st.events rel).workingOn := by
    have hget := (List.getElem?_eq_some_iff.mp hrelHa).2
    rw [waitingPosition, List.drop_eq_getElem_cons hlt, List.findIdx?_cons, hget, hthere]
    rfl
  simp only [handOver, hposition, hrelHa]
  simp only [if_true, raiseWorkingOn, events_setEvent_ne _ (Ne.symm hne),
    events_setHeld_ne _ (Ne.symm hne), hheld]
  simp [Event.taken, hrelHa, setHeld, setEvent]

/-- All the released events take the atomic over. -/
theorem handOverAll_eq_ok {ha : HeldAtomic I K D} {p : AtomicPtr} (released : List EventId)
    (hc : Typed guards st) (hha : ha ∈ (st.events e).holders) (hp : ha.atom = some p)
    (hwaits : ∀ x ∈ released, st.WaitsAt (st.events x) (st.queueOf p))
    (hnodup : released.Nodup) (he : e ∉ released)
    (hheld : workingOnHeld (st.events e) = true) :
    ∃ st', st.handOverAll guards e ha p released = .ok st' ∧ st.SameShape st' ∧
      (∀ q, st'.queue q = st.queue q) ∧
      ∀ x, st'.events x = if x ∈ released then (st.events x).taken else st.events x := by
  induction released generalizing st with
  | nil =>
      exact ⟨st, rfl, SameShape.refl st, fun _ => rfl, fun x => by simp⟩
  | cons rel rest ih =>
      have hrel : rel ≠ e := fun heq => he (by simp [heq])
      have hstep := handOver_eq_ok hc hha hp (hwaits rel (by simp)) hrel hheld
      have hshape := sameShape_setEvent st rel (st.events rel).taken
      have hrest : rel ∉ rest := (List.nodup_cons.mp hnodup).1
      have hevents : ∀ x, x ≠ rel →
          (st.setEvent rel (st.events rel).taken).events x = st.events x :=
        fun x hx => events_setEvent_ne _ hx
      have htyped : Typed guards (st.setEvent rel (st.events rel).taken) := by
        refine hc.of_refersAs (hc.wellFormed.of_sameShape hshape) hshape.extends fun x => ?_
        by_cases hx : x = rel
        · subst hx
          rw [events_setEvent_self]
          exact refersAs_taken _
        · rw [hevents x hx]
          exact RefersAs.refl _
      have hqueueOf : ∀ p', (st.setEvent rel (st.events rel).taken).queueOf p' =
          st.queueOf p' := fun p' => by cases p' <;> rfl
      have hwaits' : ∀ x ∈ rest, (st.setEvent rel (st.events rel).taken).WaitsAt
          ((st.setEvent rel (st.events rel).taken).events x)
          ((st.setEvent rel (st.events rel).taken).queueOf p) := by
        intro x hx
        have hne : x ≠ rel := fun heq => hrest (heq ▸ hx)
        rcases hwaits x (by simp [hx]) with ⟨ha', p', hha', hp', hfree, hq⟩
        rw [hevents x hne, hqueueOf]
        exact ⟨ha', p', hha', hp', hfree, (hqueueOf p').trans hq⟩
      rcases ih htyped (by rwa [hevents e (Ne.symm hrel)]) hwaits' (List.nodup_cons.mp hnodup).2
        (fun hmem => he (by simp [hmem])) (by rwa [hevents e (Ne.symm hrel)]) with
        ⟨st', hall, hshape', hqueue, hevents'⟩
      refine ⟨st', ?_, hshape.trans hshape', fun q => ?_, fun x => ?_⟩
      · simp only [handOverAll, hstep, hall]
      · rw [hqueue q, queue_setEvent]
      · rw [hevents' x]
        by_cases hx : x = rel
        · subst hx
          simp [hrest]
        · simp [hx, hevents x hx]

/-! ## One turn of a release -/

/-- Typed, with every queued event at its working position. -/
structure Consistent (guards : GuardId → Guard) (st : Store I K D) : Prop
    extends Typed guards st where
  waiting : ∀ q x, x ∈ st.queue q → st.WaitsAt (st.events x) q
  nodup : ∀ q, (st.queue q).Nodup

/-- What one turn of a release leaves behind. -/
structure Released (guards : GuardId → Guard) (st : Store I K D) (e : EventId) (i : Nat)
    (st' : Store I K D) (released : List EventId) : Prop where
  wellFormed : WellFormed guards st'
  extendsOld : st.Extends st'
  event : ∃ ha ha', (st.events e).holders[i]? = some ha ∧
    st'.events e = { st.events e with holders := (st.events e).holders.set i ha' } ∧
    ha'.ref = ha.ref ∧ ha'.haveit = ha.haveit ∧ ha'.atom = none
  others : ∀ x, x ≠ e → st'.events x =
    if x ∈ released then (st.events x).taken else st.events x
  queue : ∃ q0, st.queue q0 = released ++ st'.queue q0 ∧
    ∀ q, q ≠ q0 → st'.queue q = st.queue q
  waited : ∀ r ∈ released, ∃ ha p, (st.events e).holders[i]? = some ha ∧
    ha.atom = some p ∧ r ∈ st.queue (st.queueOf p)
  pointers : ∀ ha ha', (st.events e).holders[i]? = some ha →
    (st'.events e).holders[i]? = some ha' →
    ha'.keyOwner = ha.keyOwner ∧ (ha'.key = none ∨ ha'.key = ha.key)

omit [LinearOrder K] [Inhabited K] in
/-- A wrapper without data can be returned. -/
theorem poolPut_eq_ok {w : PooledId} (h : (st.wrappers w).data = none) :
    ∃ st', st.poolPut w = .ok st' := by
  simp only [poolPut, h, Option.isSome_none, Bool.false_eq_true, if_false]
  split <;> exact ⟨_, rfl⟩

omit [LinearOrder K] [Inhabited K] in
/-- An atomic can always be given up. -/
theorem relinquish_eq_ok (p : AtomicPtr) (should : Bool) :
    ∃ st', st.relinquish p should = .ok st' := by
  cases p with
  | plain a => exact ⟨_, rfl⟩
  | pooled w =>
      cases should with
      | false => exact ⟨_, rfl⟩
      | true => exact poolPut_eq_ok (by simp [setWrapper])

omit [LinearOrder K] in
/-- An atomic of a consistent store can be released. -/
theorem releaseAtomic_eq_ok (hc : Consistent guards st) (p : AtomicPtr) :
    ∃ st' released, st.releaseAtomic p = .ok (st', released) := by
  cases p with
  | plain a => exact ⟨_, _, rfl⟩
  | pooled w =>
      simp only [releaseAtomic, releasePooled]
      split
      next ev rest hq =>
        -- the first in the queue has a wrapper to take the resource
        have hmem : ev ∈ st.queue (.pool (st.wrappers w).pool) := by
          rw [queue, hq]
          exact List.mem_cons_self
        rcases hc.waiting _ ev hmem with ⟨ha, p, hha, hp, -⟩
        simp [hha, hp]
      next hq =>
        have hdata : (((st.setPool (st.wrappers w).pool
            { st.pools (st.wrappers w).pool with
              dq := (st.pools (st.wrappers w).pool).dq ++ (st.wrappers w).data.toList }).setWrapper
            w { st.wrappers w with data := none }).wrappers w).data = none := by
          simp [setWrapper]
        rcases poolPut_eq_ok hdata with ⟨st', hput⟩
        exact ⟨st', [], by simp [hput, Except.map]⟩

omit [Inhabited K] in
/-- A collection keeps the entry, fails or deletes it. -/
theorem garbageCollect_cases {g : GuardId} {key : Option K} {owner : Option AtomicPtr}
    {p : AtomicPtr} :
    st.garbageCollect guards g key owner p = .ok none ∨
      st.garbageCollect guards g key owner p = .error .collectsOtherAtomic ∨
      ∃ st', st.garbageCollect guards g key owner p = .ok (some st') ∧ st.SameShape st' ∧
        st'.events = st.events ∧ ∀ q, st'.queue q = st.queue q := by
  simp only [garbageCollect]
  split
  · split
    · split
      · split
        · refine Or.inr (Or.inr ⟨_, rfl, { SameShape.refl st with maps := ?_ }, rfl, fun q => ?_⟩)
          · intro f entry hentry
            next k _ _ _ a _ _ =>
            by_cases hf : f = g
            · subst hf
              simp [setMap] at hentry
              exact hentry.1
            · simpa [setMap, hf] using hentry
          · cases q <;> rfl
        · exact Or.inr (Or.inl rfl)
      · exact Or.inl rfl
    · exact Or.inl rfl
  · exact Or.inl rfl

omit [LinearOrder K] [Inhabited K] in
/-- With all guards held or skipped those worked on are. -/
theorem workingOnHeld_of_heldOrSkipped {ev : Event I K D}
    (hlen : ev.workingOn ≤ ev.holders.length)
    (h : ∀ ha ∈ ev.holders, ha.HeldOrSkipped) : workingOnHeld ev = true := by
  by_cases hzero : ev.workingOn = 0
  · simp [workingOnHeld, hzero]
  · have hlt : ev.workingOn - 1 < ev.holders.length := by omega
    have hheld := h _ (List.getElem_mem hlt)
    rw [workingOnHeld, List.getElem?_eq_getElem hlt]
    simp [(HeldAtomic.heldOrSkipped_iff _).mp hheld]

omit [Inhabited K] in
/-- A reference without atomic is passed over. -/
theorem releaseAt_of_atom_eq_none {ha : HeldAtomic I K D}
    (hi : (st.events e).holders[i]? = some ha) (hatom : ha.atom = none) :
    st.releaseAt guards e i = .ok (st, []) := by
  simp [releaseAt, hi, HeldAtomic.skipit, hatom]

omit [Inhabited K] in
/-- The turns of a release, as far as the atomic is concerned. -/
theorem releaseAt_cases {released : List EventId}
    (h : st.releaseAt guards e i = .ok (st', released)) :
    ((∀ ha, (st.events e).holders[i]? = some ha → ha.haveit = true → ha.atom = none) ∧
      st' = st ∧ released = []) ∨
    ∃ ha p st1 st2, (st.events e).holders[i]? = some ha ∧ ha.haveit = true ∧
      ha.atom = some p ∧ st.releaseAtomic p = .ok (st1, released) ∧
      st1.handOverAll guards e ha p released = .ok st2 ∧
      ((∃ st3, st2.collect guards ha p released = .ok (some st3) ∧
          st' = st3.setHeld e i { ha with atom := none, key := none }) ∨
        st2.collect guards ha p released = .ok none ∧
          (st2.setHeld e i { ha with atom := none }).relinquish p (!released.isEmpty) =
            .ok st') := by
  simp only [releaseAt] at h
  split at h
  next hnone =>
    cases h
    refine Or.inl ⟨fun ha hha => ?_, rfl, rfl⟩
    rw [hnone] at hha
    cases hha
  next ha hha =>
    split at h
    · cases h
    · split at h
      next p hhave hp =>
        refine Or.inr ⟨ha, p, ?_⟩
        split at h
        · cases h
        next st1 released1 hrelease =>
          split at h
          · cases h
          next st2 hhand =>
            split at h
            · cases h
            next st3 hcollect =>
              cases h
              exact ⟨st1, st2, hha, hhave, hp, hrelease, hhand, Or.inl ⟨st3, hcollect, rfl⟩⟩
            next hcollect =>
              split at h
              · cases h
              next st3 hrelinquish =>
                cases h
                exact ⟨st1, st2, hha, hhave, hp, hrelease, hhand, Or.inr ⟨hcollect, hrelinquish⟩⟩
      next hpass =>
        cases h
        refine Or.inl ⟨fun ha' hha' hhave => ?_, rfl, rfl⟩
        cases hha.symm.trans hha'
        cases hp : ha.atom with
        | none => rfl
        | some p => exact absurd hp (hpass p hhave)

/-- The collection in one turn of a release finds another entry under the key. -/
def CollectsOther (guards : GuardId → Guard) (st : Store I K D) (e : EventId) (i : Nat) : Prop :=
  ∃ ha p st1 st2 released, (st.events e).holders[i]? = some ha ∧ ha.atom = some p ∧
    st.releaseAtomic p = .ok (st1, released) ∧
    st1.handOverAll guards e ha p released = .ok st2 ∧
    st2.collect guards ha p released = .error .collectsOtherAtomic

/-- What there is between the hand-over of an atomic and the collection of its guard. -/
structure HandedOver (guards : GuardId → Guard) (st : Store I K D) (e : EventId) (p : AtomicPtr)
    (released : List EventId) (st2 : Store I K D) : Prop where
  wellFormed : WellFormed guards st2
  extendsOld : st.Extends st2
  queue_eq : st.queue (st.queueOf p) = released ++ st2.queue (st.queueOf p)
  queue_other : ∀ q, q ≠ st.queueOf p → st2.queue q = st.queue q
  notMem : e ∉ released
  events : ∀ x, st2.events x = if x ∈ released then (st.events x).taken else st.events x

/-- The events that are released find the queue of the atomic. -/
theorem exists_handedOver (hc : Consistent guards st) {ha : HeldAtomic I K D} {p : AtomicPtr}
    (hmem : ha ∈ (st.events e).holders) (hp : ha.atom = some p)
    (hlen : (st.events e).workingOn ≤ (st.events e).holders.length)
    (hheld : ∀ ha ∈ (st.events e).holders, ha.HeldOrSkipped) (he : ∀ q, e ∉ st.queue q) :
    ∃ st1 released st2, st.releaseAtomic p = .ok (st1, released) ∧
      st1.handOverAll guards e ha p released = .ok st2 ∧ HandedOver guards st e p released st2 := by
  have hallocated := (hc.referred e ha hmem p hp).1
  rcases releaseAtomic_eq_ok hc p with ⟨st1, released, hrelease⟩
  have hkeep := hc.wellFormed.releaseAtomic hallocated hrelease
  have hevents1 := events_releaseAtomic hrelease
  have hqueue1 := queue_releaseAtomic hrelease
  have htyped1 : Typed guards st1 := hc.toTyped.of_refersAs hkeep.1 hkeep.2
    fun x => by rw [hevents1]; exact RefersAs.refl _
  have hsub : ∀ x ∈ released, x ∈ st.queue (st.queueOf p) := by
    intro x hx
    rw [hqueue1.1]
    exact List.mem_append_left _ hx
  have hnodup : released.Nodup := by
    have hall := hc.nodup (st.queueOf p)
    rw [hqueue1.1] at hall
    exact (List.nodup_append.mp hall).1
  have hnot : e ∉ released := fun hmem => he _ (hsub e hmem)
  have hwaits1 : ∀ x ∈ released, st1.WaitsAt (st1.events x) (st1.queueOf p) := by
    intro x hx
    rw [hevents1, hc.wellFormed.queueOf_extends hkeep.1 hkeep.2 hallocated]
    exact (hc.waiting _ x (hsub x hx)).mono hc.toTyped hkeep.1 hkeep.2
  rcases handOverAll_eq_ok released htyped1 (by rw [hevents1]; exact hmem) hp hwaits1
      hnodup hnot (by
        rw [hevents1]
        exact workingOnHeld_of_heldOrSkipped hlen hheld) with
    ⟨st2, hhand, hshape2, hqueue2, hevents2⟩
  refine ⟨st1, released, st2, hrelease, hhand, hkeep.1.of_sameShape hshape2,
    hkeep.2.trans hshape2.extends, ?_, fun q hq => ?_, hnot, fun x => ?_⟩
  · rw [hqueue2]
    exact hqueue1.1
  · rw [hqueue2, hqueue1.2 q hq]
  · rw [hevents2, hevents1]

omit [LinearOrder K] in
/-- What is left keeps the queues and only clears the reference. -/
theorem HandedOver.released {p : AtomicPtr} {released : List EventId} {st2 st' : Store I K D}
    {ha : HeldAtomic I K D} (h : HandedOver guards st e p released st2) (ha' : HeldAtomic I K D)
    (hi : i < (st.events e).holders.length) (hha : (st.events e).holders[i]? = some ha)
    (hp : ha.atom = some p) (hwf : WellFormed guards st') (hext : st2.Extends st')
    (hevents : st'.events = (st2.setHeld e i ha').events)
    (hqueue : ∀ q, st'.queue q = st2.queue q) (href : ha'.ref = ha.ref)
    (hhave : ha'.haveit = ha.haveit) (hatom : ha'.atom = none)
    (howner : ha'.keyOwner = ha.keyOwner) (hkey : ha'.key = none ∨ ha'.key = ha.key) :
    Released guards st e i st' released := by
  refine ⟨hwf, h.extendsOld.trans hext, ⟨ha, ha', hha, ?_, href, hhave, hatom⟩,
    fun x hx => ?_, ⟨st.queueOf p, ?_, fun q hq => ?_⟩, fun r hr => ⟨ha, p, hha, hp, ?_⟩,
    fun ha1 ha2 h1 h2 => ?_⟩
  · rw [hevents, events_setHeld_self, h.events, if_neg h.notMem]
  · rw [hevents, events_setHeld_ne _ hx, h.events]
  · rw [hqueue]
    exact h.queue_eq
  · rw [hqueue, h.queue_other q hq]
  · rw [h.queue_eq]
    exact List.mem_append_left _ hr
  · cases hha.symm.trans h1
    rw [hevents, events_setHeld_self, h.events, if_neg h.notMem] at h2
    simp only [List.getElem?_set_self hi, Option.some.injEq] at h2
    subst h2
    exact ⟨howner, hkey⟩

omit [LinearOrder K] in
theorem released_self (hwf : WellFormed guards st) {ha : HeldAtomic I K D}
    (hha : (st.events e).holders[i]? = some ha) (hp : ha.atom = none) :
    Released guards st e i st [] := by
  have hset : (st.events e).holders.set i ha = (st.events e).holders := by
    rw [← (List.getElem?_eq_some_iff.mp hha).2]
    exact List.set_getElem_self _
  refine ⟨hwf, Extends.refl _, ⟨ha, ha, hha, by rw [hset], rfl, rfl, hp⟩, fun x _ => by simp,
    ⟨.atomic 0, by simp, fun _ _ => rfl⟩, fun r hr => by simp at hr, fun ha1 ha2 h1 h2 => ?_⟩
  cases h1.symm.trans h2
  exact ⟨rfl, Or.inr rfl⟩

omit [Inhabited K] in
/-- The ways in which a collection ends. -/
theorem collect_cases (guards : GuardId → Guard) (st : Store I K D) (ha : HeldAtomic I K D)
    (p : AtomicPtr) (released : List EventId) :
    st.collect guards ha p released = .ok none ∨
      st.collect guards ha p released = .error .collectsOtherAtomic ∨
      ∃ st', st.collect guards ha p released = .ok (some st') ∧ st.SameShape st' ∧
        st'.events = st.events ∧ ∀ q, st'.queue q = st.queue q := by
  simp only [collect]
  split
  · exact garbageCollect_cases
  · exact Or.inl rfl

/-- One turn of a release hands the atomic over, unless the collection of its guard
finds another entry under the key; no assertion of the loop fires. -/
theorem releaseAt_spec (hc : Consistent guards st) (hi : i < (st.events e).holders.length)
    (hlen : (st.events e).workingOn ≤ (st.events e).holders.length)
    (hheld : ∀ ha ∈ (st.events e).holders, ha.HeldOrSkipped)
    (he : ∀ q, e ∉ st.queue q) :
    (∃ st' released, st.releaseAt guards e i = .ok (st', released) ∧
      Released guards st e i st' released) ∨
    st.releaseAt guards e i = .error .collectsOtherAtomic ∧ CollectsOther guards st e i := by
  have hha : (st.events e).holders[i]? = some ((st.events e).holders[i]) :=
    List.getElem?_eq_getElem hi
  have hmem : (st.events e).holders[i] ∈ (st.events e).holders := List.getElem_mem hi
  generalize (st.events e).holders[i] = ha at hha hmem
  cases hp : ha.atom with
  | none =>
      exact Or.inl ⟨st, [], releaseAt_of_atom_eq_none hha hp, released_self hc.wellFormed hha hp⟩
  | some p =>
      have hhave : ha.haveit = true := by
        rcases hheld ha hmem with hhave | hnone
        · exact hhave
        · rw [hp] at hnone
          cases hnone
      have hallocated := (hc.referred e ha hmem p hp).1
      obtain ⟨st1, released, st2, hrelease, hhand, hover⟩ :=
        exists_handedOver hc hmem hp hlen hheld he
      simp only [releaseAt, hha, hhave, hp, hrelease, hhand, Bool.not_true, Bool.false_and,
        Bool.false_eq_true, if_false]
      have hcollect := collect_cases guards st2 ha p released
      rcases hcollect with hnone | herror | ⟨st3, hsome, hshape3, hevents3, hqueue3⟩
      · have hshape3 := sameShape_setHeld st2 e i { ha with atom := none, haveit := true }
        have hgive : ∃ st3, (st2.setHeld e i { ha with atom := none, haveit := true }).relinquish
            p (!released.isEmpty) = .ok st3 := relinquish_eq_ok p _
        rcases hgive with ⟨st3, hrel⟩
        have hallocated2 := (hover.extendsOld.trans hshape3.extends p hallocated).1
        have hkeep3 := (hover.wellFormed.of_sameShape hshape3).relinquish hallocated2 hrel
        refine Or.inl ⟨st3, released, by simp only [hnone, hrel],
          hover.released { ha with atom := none, haveit := true } hi hha hp hkeep3.1
            (hshape3.extends.trans hkeep3.2) (events_relinquish hrel) (fun q => ?_) rfl
            hhave.symm rfl rfl (Or.inr rfl)⟩
        rw [queue_relinquish hrel, queue_setHeld]
      · exact Or.inr ⟨by simp only [herror],
          ha, p, st1, st2, released, hha, hp, hrelease, hhand, herror⟩
      · have hset := sameShape_setHeld st3 e i { ha with atom := none, key := none, haveit := true }
        have hall := hshape3.trans hset
        refine Or.inl ⟨_, released, by simp only [hsome], hover.released
          { ha with atom := none, key := none, haveit := true } hi hha hp
          (hover.wellFormed.of_sameShape hall) hall.extends ?_ (fun q => ?_) rfl hhave.symm rfl
          rfl (Or.inl rfl)⟩
        · simp [setHeld, setEvent, hevents3]
        · rw [queue_setHeld, hqueue3]

end Release

end Store
end Guards
end OFlux
