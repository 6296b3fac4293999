import OFlux.Guards.Entries
import OFlux.Guards.DeadlockFreedom

/-!
# Garbage collection of guard instances

A release that leaves an atomic of a collectable guard without holders, waiting events
and data deletes the atomic and its key object.  A reference to a collectable guard is
resolved late, in the turn that also requests its atomic, so whoever refers to the
atomic holds it or waits for it.

Main results:

- Theorem {lit}`Collecting.step`: what one step keeps.
- Theorem {lit}`Collecting.releaseAt_eq_ok`: no assertion of a release fires.
- Theorem {lit}`hand_off_protocol`: the hand-off of guards, in every reachable state.
-/

namespace OFlux
namespace Guards

open Library

variable {I K D : Type} [LinearOrder K] [Inhabited K] {guards : GuardId → Guard}
  {s t : State I K D}

/-! ## Collected entries -/

namespace Store

variable {st st' : Store I K D} {e : EventId} {i n : Nat} {a : AtomicId}

omit [Inhabited K] in
/-- The entries after one key was removed. -/
theorem lookup_filter {entries : List (K × AtomicId)} {k k' : K} :
    (entries.filter fun entry => entry.1 ≠ k).lookup k' =
      if k' = k then none else entries.lookup k' := by
  induction entries with
  | nil => simp
  | cons entry rest ih =>
      rcases entry with ⟨k1, b⟩
      by_cases hdropped : k1 = k
      · rw [List.filter_cons_of_neg (by simpa using hdropped), ih]
        by_cases hk : k' = k
        · rw [if_pos hk, if_pos hk]
        · have hne : (k' == k1) = false := by simpa [hdropped] using hk
          rw [if_neg hk, if_neg hk, List.lookup_cons, hne]
      · rw [List.filter_cons_of_pos (by simpa using hdropped), List.lookup_cons, List.lookup_cons, ih]
        by_cases hk : k' = k
        · have hne : (k' == k1) = false := by simpa [hk] using Ne.symm hdropped
          rw [hne, if_pos hk]
        · rw [if_neg hk, if_neg hk]

omit [Inhabited K] in
/-- A collection keeps the other entries. -/
theorem Collected.lookup (h : Collected guards st e i a st') (g : GuardId) (k : K) (b : AtomicId)
    (hne : b ≠ a) (hlookup : (st.maps g).lookup k = some b) :
    (st'.maps g).lookup k = some b := by
  obtain ⟨ha, k0, -, -, -, hentry, -, -, hmaps, -⟩ := h.holder
  rw [hmaps]
  by_cases hg : g = ha.ref.guard
  · subst hg
    rw [Function.update_self, lookup_filter, if_neg]
    · exact hlookup
    · intro hk
      subst hk
      exact hne (Option.some.inj (hlookup.symm.trans hentry))
  · rw [Function.update_of_ne hg]
    exact hlookup

/-- The entry of a collected atomic is gone. -/
theorem Collected.lookup_ne (h : Collected guards st e i a st') (hwf : WellFormed guards st)
    {g : GuardId} {k : K} {b : AtomicId} (hlookup : (st'.maps g).lookup k = some b) :
    (st.maps g).lookup k = some b ∧ b ≠ a := by
  obtain ⟨ha, k0, -, -, -, hentry, -, -, hmaps, -⟩ := h.holder
  have hmem : ∀ {g' k' b'}, (st.maps g').lookup k' = some b' →
      st.madeFor (.plain b') = (g', k') := by
    intro g' k' b' hl
    rcases List.lookup_eq_some_iff.mp hl with ⟨front, rest, hsplit, -⟩
    exact (hwf.entry g' k' b' (by simp [hsplit])).2
  have hother : (st.maps g).lookup k = some b ∧ (g, k) ≠ (ha.ref.guard, k0) := by
    rw [hmaps] at hlookup
    by_cases hg : g = ha.ref.guard
    · subst hg
      rw [Function.update_self, lookup_filter] at hlookup
      split at hlookup
      · cases hlookup
      next hk => exact ⟨hlookup, by simpa using hk⟩
    · rw [Function.update_of_ne hg] at hlookup
      exact ⟨hlookup, fun heq => hg (congrArg Prod.fst heq)⟩
  refine ⟨hother.1, fun heq => hother.2 ?_⟩
  subst heq
  exact (hmem hother.1).symm.trans (hmem hentry)

/-- A collection of an atomic that nobody refers to. -/
theorem Tracking.of_collected (h : st.Tracking guards n) (hwf : WellFormed guards st)
    (hext : st.Extends st') (hcollected : Collected guards st e i a st') (he : e < n)
    (hcounted : st'.Counted n)
    (htracked : ∀ x, x < n → ∀ ha ∈ (st'.events x).holders, st.Tracked guards ha)
    (hfree : ∀ x, x < n → ∀ ha ∈ (st'.events x).holders, ha.atom ≠ some (.plain a)) :
    st'.Tracking guards n := by
  obtain ⟨ha, k0, hi, hp, -, -, -, hcls, -⟩ := hcollected.holder
  have hold := h.tracked e he ha (List.mem_of_getElem? hi)
  have hmade := hold.made _ (hold.owner _ hp)
  refine ⟨⟨fun b hb => ?_, fun g k b hlookup hb => ?_⟩, hcounted, fun x hx ha1 hha1 => ?_⟩
  · rw [hcollected.collected] at hb
    rw [hcollected.allocated, hcollected.madeFor]
    rcases List.mem_cons.mp hb with rfl | hb
    · refine ⟨hmade.1, ?_⟩
      rw [hmade.2.1]
      exact hcls
    · exact h.gone.made b hb
  · rw [hcollected.collected] at hb
    have hne := hcollected.lookup_ne hwf hlookup
    rcases List.mem_cons.mp hb with rfl | hb
    · exact hne.2 rfl
    · exact h.gone.entry g k b hne.1 hb
  · have htr := htracked x hx ha1 hha1
    refine ⟨htr.owner, htr.keyed, fun p hp1 => ?_, fun b hb hmem => ?_,
      fun cls k b hc hk hb hlive => ?_⟩
    · have hmade1 := htr.made p hp1
      have hext1 := hext p hmade1.1
      rw [hext1.2]
      exact ⟨hext1.1, hmade1.2⟩
    · rw [hcollected.collected] at hmem
      rcases List.mem_cons.mp hmem with rfl | hmem
      · exact hfree x hx ha1 hha1 hb
      · exact htr.live b hb hmem
    · rw [hcollected.collected, List.mem_cons, not_or] at hlive
      exact hcollected.lookup _ k b hlive.1 (htr.found cls k b hc hk hb hlive.2)

/-- The first loop of {lit}`get_keys_sort` leaves the collectable references alone. -/
theorem collectable_of_getKeys {positions : List Nat} (htyped : Typed guards st)
    (hfree : ∀ ha ∈ (st.events e).holders, ha.haveit = false)
    (hkeys : st.getKeys guards e positions = .ok st') :
    ∀ ha ∈ (st'.events e).holders, (guards ha.ref.guard).isGC = true →
      ha ∈ (st.events e).holders := by
  refine getKeys_induction (P := fun st1 => ∀ ha ∈ (st1.events e).holders,
      (guards ha.ref.guard).isGC = true → ha ∈ (st.events e).holders)
    (fun st1 st2 j htyped _ hbuild hkept => ?_) htyped hfree hkeys fun ha hha _ => hha
  have hset : ∀ ha ha' : HeldAtomic I K D, ha.ref.late guards = false → ha'.ref = ha.ref →
      ∀ x ∈ (st1.events e).holders.set j ha', (guards x.ref.guard).isGC = true →
        x ∈ (st.events e).holders := by
    intro ha ha' hlate href x hx hgc
    rcases List.mem_or_eq_of_mem_set hx with hold | rfl
    · exact hkept x hold hgc
    · simp [GuardReference.late, ← href, hgc] at hlate
  rcases build_cases hbuild with
    rfl | ⟨ha, -, -, hlate, ⟨-, rfl⟩ | ⟨key, st3, p, key', -, hget, rfl⟩⟩
  · exact hkept
  · rw [events_setHeld_self]
    exact hset ha _ (by simpa using hlate) rfl
  · rw [events_setHeld_self, (getAtomic_frame htyped.wellFormed hget).1]
    exact hset ha _ (by simpa using hlate) rfl

end Store

/-! ## What every run keeps -/

/-- A reference to a collectable guard that has found its atomic holds it, or is where
its event waits. -/
def Resolved (guards : GuardId → Guard) (st : Store I K D) (e : EventId) : Prop :=
  ∀ i ha p, (st.events e).holders[i]? = some ha →
    (guards ha.ref.guard).isGC = true → ha.atom = some p →
    ha.haveit = true ∨ i = (st.events e).workingOn ∧ e ∈ st.queue (st.queueOf p)

/-- What every run keeps of the entries and of the references to collectable guards. -/
structure Collecting (guards : GuardId → Guard) (s : State I K D) : Prop where
  tracking : s.store.Tracking guards s.created
  resolved : ∀ e, e < s.created → Resolved guards s.store e

namespace Collecting

omit [Inhabited K] in
theorem of_store_eq (h : Collecting guards s) (hstore : t.store = s.store)
    (hcreated : t.created = s.created) : Collecting guards t := by
  refine ⟨?_, fun e he => ?_⟩
  · rw [hstore, hcreated]
    exact h.tracking
  · rw [hcreated] at he
    rw [hstore]
    exact h.resolved e he

/-- An event that does not change stays resolved while it stays in its queue. -/
theorem resolved_of_events (h : Collecting guards s) (hinv : Invariant guards s)
    {st : Store I K D} (hwf : Store.WellFormed guards st) (hext : s.store.Extends st)
    {e : EventId} (he : e < s.created) (hevent : st.events e = s.store.events e)
    (hqueue : ∀ q, e ∈ s.store.queue q → e ∈ st.queue q) : Resolved guards st e := by
  intro i ha p hi hgc hp
  rw [hevent] at hi ⊢
  have hallocated := (hinv.typed.referred e ha (List.mem_of_getElem? hi) p hp).1
  rw [hinv.typed.wellFormed.queueOf_extends hwf hext hallocated]
  rcases h.resolved e he i ha p hi hgc hp with hhave | ⟨hw, hmem⟩
  · exact Or.inl hhave
  · exact Or.inr ⟨hw, hqueue _ hmem⟩

/-- An event that acquires holds the collectable atomics that it has found. -/
theorem haveit_of_acquiring (h : Collecting guards s) (hinv : Invariant guards s) {e : EventId}
    {j : Nat} (hcall : (e, j) ∈ s.acquiring) {i : Nat} {ha : HeldAtomic I K D} {p : AtomicPtr}
    (hi : (s.store.events e).holders[i]? = some ha) (hgc : (guards ha.ref.guard).isGC = true)
    (hp : ha.atom = some p) : ha.haveit = true := by
  have hcall' : s.has e (.acquiring j) := hcall
  rcases h.resolved e (hinv.lt_created hcall') i ha p hi hgc hp with hhave | ⟨-, hmem⟩
  · exact hhave
  · have hwaits : s.has e (.waiting (s.store.queueOf p)) := hmem
    cases hinv.status_unique hcall' hwaits

/-! ## One lemma for each step -/

/-- Creating an event keeps the invariant. -/
theorem create (h : Collecting guards s) (hinv : Invariant guards s) (node : Node guards I K D)
    (input : I) :
    Collecting guards { s with
      store := s.store.setEvent s.created (node.newEvent input),
      created := s.created + 1,
      acquiring := (s.created, 0) :: s.acquiring } := by
  have hshape := Store.sameShape_setEvent s.store s.created (node.newEvent input)
  have hsteady := Store.steady_setEvent s.store s.created (node.newEvent input)
  have hold : ∀ x, x ≠ s.created →
      (s.store.setEvent s.created (node.newEvent input)).events x = s.store.events x :=
    fun x hx => Store.events_setEvent_ne _ hx
  have hnew : ∀ ha ∈ ((s.store.setEvent s.created (node.newEvent input)).events
      s.created).holders, ha.atom = none ∧ ha.keyOwner = none ∧ ha.key = none := by
    intro ha hha
    rw [Store.events_setEvent_self] at hha
    rcases List.mem_map.mp hha with ⟨ref, -, rfl⟩
    exact ⟨rfl, rfl, rfl⟩
  refine ⟨⟨h.tracking.gone.of_sameEntries hsteady.toSameEntries, fun a => ?_,
    fun x hx ha hha => ?_⟩, fun x hx => ?_⟩
  · have hsum : (s.store.setEvent s.created (node.newEvent input)).holding (s.created + 1) a =
        s.store.holding s.created a := by
      rw [Store.holding, Finset.sum_range_succ, List.countP_eq_zero.mpr fun ha hha => by
        rw [HeldAtomic.holds_of_atom_eq_none (hnew ha hha).1]
        simp]
      exact Store.holding_congr fun e he => by rw [hold e he.ne]
    rw [hsum]
    exact h.tracking.counted a
  · by_cases hxe : x = s.created
    · subst hxe
      obtain ⟨hatom, howner, hkey⟩ := hnew ha hha
      exact Store.tracked_of_none hatom howner hkey
    · rw [hold x hxe] at hha
      have hlt : x < s.created := Nat.lt_of_le_of_ne (Nat.lt_succ_iff.mp hx) hxe
      exact (h.tracking.tracked x hlt ha hha).of_sameEntries hshape.extends hsteady.toSameEntries
  · by_cases hxe : x = s.created
    · subst hxe
      intro i ha p hi _ hp
      rw [(hnew ha (List.mem_of_getElem? hi)).1] at hp
      cases hp
    · have hlt : x < s.created := Nat.lt_of_le_of_ne (Nat.lt_succ_iff.mp hx) hxe
      refine h.resolved_of_events hinv (hinv.typed.wellFormed.of_sameShape hshape) hshape.extends
        hlt (hold x hxe) fun q hq => ?_
      rwa [Store.queue_setEvent]

/-- Computing and sorting the keys keeps the invariant. -/
theorem getKeysSort (h : Collecting guards s) (hinv : Invariant guards s) {e : EventId}
    {st : Store I K D} {sorted : List (HeldAtomic I K D)} (hcall : (e, 0) ∈ s.acquiring)
    (hkeys : s.store.getKeys guards e (List.range (s.store.events e).holders.length) = .ok st)
    (hperm : sorted.Perm (st.events e).holders) :
    Collecting guards { s with store := st.setSorted e sorted } := by
  have hcall' : s.has e (.acquiring 0) := hcall
  have he := hinv.lt_created hcall'
  have hfree : ∀ ha ∈ (s.store.events e).holders, ha.haveit = false := by
    intro ha hha
    rcases List.getElem?_of_mem hha with ⟨j, hj⟩
    exact (hinv.status e _ hcall').2.2.2.2 j ha (Nat.zero_le j) hj
  have hk := Store.keyed_of_getKeys _ hinv.typed.wellFormed (hinv.typed.referred e) hkeys
  have hshape : st.SameShape (st.setSorted e sorted) := Store.sameShape_setEvent _ _ _
  refine ⟨(h.tracking.getKeys hinv.typed he hfree hkeys).setEvent he hperm, fun x hx => ?_⟩
  by_cases hxe : x = e
  · subst hxe
    intro i ha p hi hgc hp
    -- no reference to a collectable guard has an atomic before the first turn
    have hmem : ha ∈ (st.events x).holders := by
      have hin := List.mem_of_getElem? hi
      simp only [Store.setSorted, Store.events_setEvent_self] at hin
      exact hperm.mem_iff.mp hin
    have hold := Store.collectable_of_getKeys hinv.typed hfree hkeys ha hmem hgc
    rcases List.getElem?_of_mem hold with ⟨j, hj⟩
    have hhave := h.haveit_of_acquiring hinv hcall hj hgc hp
    rw [hfree ha hold] at hhave
    cases hhave
  · refine h.resolved_of_events hinv (hk.wellFormed.of_sameShape hshape)
      (hk.extendsOld.trans hshape.extends) hx ?_ fun q hq => ?_
    · exact (Store.events_setEvent_ne _ hxe).trans (hk.others x hxe)
    · rwa [Store.setSorted, Store.queue_setEvent, hk.queue q]

/-- One turn of an acquisition, whatever its answer. -/
theorem visit (h : Collecting guards s) (hinv : Invariant guards s) {e : EventId} {i : Nat}
    {st : Store I K D} {res : Bool} (hcall : (e, i) ∈ s.acquiring)
    (hlt : i < (s.store.events e).holders.length)
    (hvisit : s.store.visit guards e i = .ok (st, res)) (acquiring : List (EventId × Nat)) :
    Collecting guards { s with store := st, acquiring := acquiring } := by
  have hcall' : s.has e (.acquiring i) := hcall
  have he := hinv.lt_created hcall'
  have hok := hinv.status e _ hcall'
  have hv := hinv.typed.visited hlt hvisit
  refine ⟨h.tracking.visit hinv.typed he (fun ha => hok.2.2.2.2 i ha le_rfl) hvisit,
    fun x hx => ?_⟩
  by_cases hxe : x = e
  · subst hxe
    intro j ha p hj hgc hp
    by_cases hji : j = i
    · subst hji
      cases res with
      | true =>
          rcases (hv.granted rfl).2 ha hj with hhave | hnone
          · exact Or.inl hhave
          · rw [hnone] at hp
            cases hp
      | false =>
          obtain ⟨ha', p', hj', hp', -, hqueue⟩ := hv.waits rfl
          cases hj.symm.trans hj'
          cases hp.symm.trans hp'
          refine Or.inr ⟨?_, ?_⟩
          · exact (hv.workingOn.trans (max_eq_right hok.1)).symm
          · show x ∈ st.queue (st.queueOf p)
            rw [hqueue, if_pos rfl]
            simp
    · have hj' : (s.store.events x).holders[j]? = some ha := by
        rw [← hv.changed.elsewhere j hji]
        exact hj
      exact Or.inl (h.haveit_of_acquiring hinv hcall hj' hgc hp)
  · refine h.resolved_of_events hinv hv.wellFormed hv.extendsOld hx (hv.others x hxe) fun q hq => ?_
    cases res with
    | true =>
        show x ∈ st.queue q
        rwa [(hv.granted rfl).1 q]
    | false =>
        obtain ⟨-, p, -, -, -, hqueue⟩ := hv.waits rfl
        show x ∈ st.queue q
        rw [hqueue q]
        split
        · exact List.mem_append_left _ hq
        · exact hq

/-- Writing data keeps the invariant. -/
theorem write (h : Collecting guards s) (hinv : Invariant guards s) (p : AtomicPtr)
    (d : Option D) : Collecting guards { s with store := s.store.setData p d } := by
  have hshape := Store.sameShape_setData s.store p d
  have hsteady := Store.steady_setData s.store p d
  have hevents : (s.store.setData p d).events = s.store.events := Store.events_setData p d
  refine ⟨⟨h.tracking.gone.of_sameEntries hsteady.toSameEntries,
    h.tracking.counted.of_steady hsteady fun a => Store.holding_of_events hevents,
    fun x hx ha hha => ?_⟩, fun x hx => ?_⟩
  · have hold : ha ∈ (s.store.events x).holders := by
      rw [← hevents]
      exact hha
    exact (h.tracking.tracked x hx ha hold).of_sameEntries hshape.extends hsteady.toSameEntries
  · refine h.resolved_of_events hinv (hinv.typed.wellFormed.of_sameShape hshape) hshape.extends
      hx (congrFun hevents x) fun q hq => ?_
    rwa [Store.queue_setData]

section Release

variable {x : Execution} {i : Nat} {st : Store I K D} {released : List EventId}

/-- After a release the references are resolved. -/
theorem resolved_of_released (h : Collecting guards s) (hinv : Invariant guards s)
    (hx : x ∈ s.executing) (heffect : Store.Released guards s.store x.event i st released)
    {e : EventId} (he : e < s.created) : Resolved guards st e := by
  by_cases hex : e = x.event
  · subst hex
    -- the releasing event holds all that it refers to
    have hok := hinv.status x.event (.executing x) ⟨hx, rfl⟩
    obtain ⟨ha0, ha', -, hevent, -, -, hatom⟩ := heffect.event
    intro j ha p hj hgc hp
    rw [hevent] at hj
    rcases List.mem_or_eq_of_mem_set (List.mem_of_getElem? hj) with hold | rfl
    · rcases hok.1.2 ha hold with hhave | hnone
      · exact Or.inl hhave
      · rw [hnone] at hp
        cases hp
    · rw [hatom] at hp
      cases hp
  · have hevent := heffect.others e hex
    by_cases hreleased : e ∈ released
    · rw [if_pos hreleased] at hevent
      obtain ⟨-, p0, -, -, hqueue⟩ := heffect.waited e hreleased
      obtain ⟨ha0, -, hget, -⟩ := hinv.consistent.waiting _ e hqueue
      intro j ha p hj hgc hp
      rw [hevent] at hj
      simp only [Event.taken, hget] at hj
      by_cases hw : j = (s.store.events e).workingOn
      · subst hw
        have hlt := (List.getElem?_eq_some_iff.mp hget).1
        simp only [List.getElem?_set_self hlt, Option.some.injEq] at hj
        rw [← hj]
        exact Or.inl rfl
      · rw [List.getElem?_set_ne (Ne.symm hw)] at hj
        rcases h.resolved e he j ha p hj hgc hp with hhave | ⟨hat, -⟩
        · exact Or.inl hhave
        · exact absurd hat hw
    · rw [if_neg hreleased] at hevent
      refine h.resolved_of_events hinv heffect.wellFormed heffect.extendsOld he hevent
        fun q hq => ?_
      obtain ⟨q0, hq0, hrest⟩ := heffect.queue
      by_cases heq : q = q0
      · subst heq
        rw [hq0] at hq
        exact (List.mem_append.mp hq).resolve_left hreleased
      · rwa [hrest q heq]

/-- After a release the counts are right. -/
theorem counted_of_released (h : Collecting guards s) (hinv : Invariant guards s)
    (hx : x ∈ s.executing) (heffect : Store.Released guards s.store x.event i st released)
    (hrelease : s.store.releaseAt guards x.event i = .ok (st, released)) :
    st.Counted s.created := by
  have hcall' : s.has x.event (.executing x) := ⟨hx, rfl⟩
  refine Store.counted_of_releaseAt hinv.consistent h.tracking.counted heffect
    (hinv.lt_created hcall') (fun q y hy => ?_) (fun q hq => ?_) hrelease
  · have hwaits : s.has y (.waiting q) := hy
    exact hinv.lt_created hwaits
  · have hwaits : s.has x.event (.waiting q) := hq
    cases hinv.status_unique hcall' hwaits

/-- Nobody refers to what a release has collected. -/
theorem unreferred_of_collected (h : Collecting guards s) (hinv : Invariant guards s)
    (hx : x ∈ s.executing) (heffect : Store.Released guards s.store x.event i st released)
    (hrelease : s.store.releaseAt guards x.event i = .ok (st, released)) {a : AtomicId}
    (hcollected : Store.Collected guards s.store x.event i a st)
    (htyped : Store.Typed guards st) {e : EventId} (he : e < s.created)
    {ha : HeldAtomic I K D} (hha : ha ∈ (st.events e).holders) :
    ha.atom ≠ some (.plain a) := by
  intro hp
  obtain ⟨ha0, -, hi0, hp0, -, -, hgc, -⟩ := hcollected.holder
  have hmade0 := hinv.typed.referred x.event ha0 (List.mem_of_getElem? hi0) _ hp0
  have hmade := htyped.referred e ha hha _ hp
  have hguard : ha.ref.guard = ha0.ref.guard := by
    rw [← hmade.2.1, ← hmade0.2.1, (heffect.extendsOld _ hmade0.1).2]
  rcases List.getElem?_of_mem hha with ⟨j, hj⟩
  rcases h.resolved_of_released hinv hx heffect he j ha _ hj (by rw [hguard]; exact hgc) hp with
    hhave | ⟨-, hmem⟩
  · have hzero := (h.counted_of_released hinv hx heffect hrelease a).eq_zero hcollected.held
    have hnot := Store.holding_eq_zero hzero he hha
    rw [HeldAtomic.holds_iff.mpr ⟨hhave, hp⟩] at hnot
    cases hnot
  · have hnone : st.queue (st.queueOf (.plain a)) = [] := hcollected.queue
    rw [hnone] at hmem
    cases hmem

/-- Releasing a guard keeps the invariant. -/
theorem releaseAt (h : Collecting guards s) (hinv : Invariant guards s) (hx : x ∈ s.executing)
    (hleft : x.releasing = some (i + 1))
    (hrelease : s.store.releaseAt guards x.event i = .ok (st, released))
    (executing : List Execution) (acquiring : List (EventId × Nat)) :
    Collecting guards { s with store := st, executing := executing, acquiring := acquiring } := by
  have heffect := hinv.released_of_releaseAt hx hleft hrelease
  have htyped : Store.Typed guards st := (hinv.releaseAt hx hleft hrelease).typed
  have he : x.event < s.created := by
    have hcall' : s.has x.event (.executing x) := ⟨hx, rfl⟩
    exact hinv.lt_created hcall'
  have hcounted := h.counted_of_released hinv hx heffect hrelease
  have htracked : ∀ y, y < s.created → ∀ ha ∈ (st.events y).holders,
      s.store.Tracked guards ha :=
    fun y hy ha hha => Store.tracked_of_released h.tracking.tracked heffect hy hha
  refine ⟨?_, fun y hy => h.resolved_of_released hinv hx heffect hy⟩
  rcases Store.sameEntries_or_collected hrelease with hsame | ⟨-, a, hcollected⟩
  · exact ⟨h.tracking.gone.of_sameEntries hsame, hcounted, fun y hy ha hha =>
      (htracked y hy ha hha).of_sameEntries heffect.extendsOld hsame⟩
  · refine h.tracking.of_collected hinv.typed.wellFormed heffect.extendsOld hcollected he
      hcounted htracked fun y hy ha hha => ?_
    exact h.unreferred_of_collected hinv hx heffect hrelease hcollected htyped hy hha

/-- The assertions of a turn of a release hold. -/
theorem releaseAt_eq_ok (h : Collecting guards s) (hinv : Invariant guards s)
    (hx : x ∈ s.executing) (hleft : x.releasing = some (i + 1)) :
    ∃ st released, s.store.releaseAt guards x.event i = .ok (st, released) ∧
      Store.Released guards s.store x.event i st released := by
  rcases hinv.releaseAt_spec hx hleft with
    hok | ⟨-, ha, p, st1, st2, released, hi, hp, hrelease, hhand, herr⟩
  · exact hok
  · have hcall' : s.has x.event (.executing x) := ⟨hx, rfl⟩
    have htracked := h.tracking.tracked x.event (hinv.lt_created hcall') ha
      (List.mem_of_getElem? hi)
    have hmade := hinv.typed.referred x.event ha (List.mem_of_getElem? hi) p hp
    have hsame := (Store.sameEntries_releaseAtomic hrelease).trans
      (Store.steady_handOverAll hhand).toSameEntries
    refine absurd herr (Store.collect_ne_error htracked hsame hp fun cls hcls => ?_)
    cases p with
    | plain a => exact ⟨a, rfl⟩
    | pooled w =>
        have hpool := (hinv.typed.wellFormed.poolLike _ hmade.1).mp rfl
        rw [hmade.2.1, hcls] at hpool
        cases hpool

end Release

theorem step {a : Action} (h : Collecting guards s) (hinv : Invariant guards s)
    (hstep : Step guards s a t) : Collecting guards t := by
  cases hstep with
  | create node input => exact h.create hinv node input
  | getKeysSort hcall hnew hkeys hsort =>
      apply h.getKeysSort hinv hcall hkeys
      split at hsort
      · exact List.Perm.of_eq hsort
      · exact hsort.1
  | acquired hcall hsorted hlt hvisit => exact h.visit hinv hcall hlt hvisit _
  | queued hcall hsorted hlt hvisit => exact h.visit hinv hcall hlt hvisit _
  | ready hcall hsorted hend => exact h.of_store_eq rfl rfl
  | start hrunnable => exact h.of_store_eq rfl rfl
  | write hx hrunning hi hheld hp d => exact h.write hinv _ d
  | beginRelease hx hrunning isLast => exact h.of_store_eq rfl rfl
  | releaseAt hx hleft hrelease => exact h.releaseAt hinv hx hleft hrelease _ _
  | releasedEarly hx hleft hlast => exact h.of_store_eq rfl rfl
  | finish hx hleft hlast => exact h.of_store_eq rfl rfl

theorem of_initial (h : Initial guards s) : Collecting guards s := by
  refine ⟨⟨⟨fun a ha => ?_, fun g k a _ ha => ?_⟩, fun a => ?_, fun e he => ?_⟩, fun e he => ?_⟩
  · rw [h.collected] at ha
    cases ha
  · rw [h.collected] at ha
    cases ha
  · rw [h.created]
    exact Atomic.bounds_zero _
  · rw [h.created] at he
    exact absurd he (Nat.not_lt_zero e)
  · rw [h.created] at he
    exact absurd he (Nat.not_lt_zero e)

theorem of_reachable (h : (system I K D guards).Reachable s) : Collecting guards s := by
  have hkeep : ∀ s a t, (Invariant guards s ∧ Collecting guards s) →
      (system I K D guards).step s a t → Invariant guards t ∧ Collecting guards t :=
    fun _ _ _ hs hstep => ⟨hs.1.step hstep, hs.2.step hs.1 hstep⟩
  exact (TransitionSystem.Reachable.invariant
    (fun _ hinit => ⟨Invariant.of_initial hinit, of_initial hinit⟩) hkeep h).2

end Collecting

/-! ## The hand-off of guards -/

/-- The hand-off of guards, in every reachable state. -/
theorem hand_off_protocol (h : (system I K D guards).Reachable s) :
    (∀ e, e < s.created → ∃! p, e ∈ s.contents p) ∧
    (∀ p, (s.contents p).Nodup) ∧
    (s.acquiring = [] → ∀ e, e < s.created → e ∉ s.finished →
      e ∈ s.runnable ∨ e ∈ s.executing.map Execution.event ∨ ∃! q, e ∈ s.store.queue q) ∧
    (∀ e q, e ∈ s.store.queue q → s.store.WaitsAt (s.store.events e) q) ∧
    (∀ e, e < s.created → e ∉ s.finished →
      HeldBelow (s.store.events e) (s.store.events e).workingOn) ∧
    (∀ x ∈ s.executing, ∀ i, x.releasing = some (i + 1) →
      (∃ st released, s.store.releaseAt guards x.event i = .ok (st, released) ∧
        ∀ r ∈ released, ∃ ha p, (s.store.events x.event).holders[i]? = some ha ∧
          ha.atom = some p ∧ s.store.WaitsAt (s.store.events r) (s.store.queueOf p)) ∧
      (x.released = true → s.store.releaseAt guards x.event i = .ok (s.store, []))) := by
  have hinv := Invariant.of_reachable h
  have hwaiting : ∀ e q, e ∈ s.store.queue q → s.store.WaitsAt (s.store.events e) q :=
    fun e q => hinv.consistent.waiting q e
  refine ⟨fun e => hinv.existsUnique_place, hinv.nodup,
    fun hquiet e he hlive => hinv.live_cases he hlive hquiet, hwaiting,
    fun e => hinv.heldBelow, fun x hx i hleft => ⟨?_, fun hrel => ?_⟩⟩
  · rcases (Collecting.of_reachable h).releaseAt_eq_ok hinv hx hleft with
      ⟨st, released, hok, heffect⟩
    refine ⟨st, released, hok, fun r hr => ?_⟩
    rcases heffect.waited r hr with ⟨ha, p, hget, hp, hmem⟩
    exact ⟨ha, p, hget, hp, hwaiting r _ hmem⟩
  · have hok := hinv.status x.event (.executing x) ⟨hx, rfl⟩
    have hlt := (hok.2.1 (i + 1) hleft).1
    exact Store.releaseAt_of_atom_eq_none (List.getElem?_eq_getElem hlt)
      (hok.2.2 hrel _ (List.getElem_mem hlt))

/-- A node with one exclusive guard that has no key. -/
def exclusiveNode : Node (keyedGuards .exclusive) Unit Nat Unit where
  guardRefs := [{
    guard := 0, guardFn := none, wtype := WType.exclusive, isLate := false, lexicalIndex := 0 }]
  ascending := by simp
  poolMode := by simp [keyedGuards]

/-- Two events request the same atomic. -/
def exclusiveSchedule : List (Command (keyedGuards .exclusive) Unit Nat Unit) := [
  .create exclusiveNode (), .getKeysSort 0, .visit 0 0, .ready 0 1, .start 0,
  .create exclusiveNode (), .getKeysSort 1, .visit 1 0]

/-- The first event releases the atomic, which is handed over to the second one. -/
def handOverSchedule : List (Command (keyedGuards .exclusive) Unit Nat Unit) :=
  exclusiveSchedule ++ [
    .beginRelease { event := 0 } true,
    .releaseAt { event := 0, releasing := some 1, isLast := true } 0,
    .ready 1 1, .start 1]

/-- The second of two events waits while the first one executes; the release of the first one
hands back this event alone, which then holds the atomic and executes. -/
theorem hand_off_protocol_exclusiveSchedule :
    (∃ step ∈ (State.empty Unit Nat Unit).runOf handOverSchedule,
      step.2.store.queue (.atomic 0) = [1] ∧
        step.2.store.WaitsAt (step.2.store.events 1) (.atomic 0) ∧
        (∀ e, e < 2 → ∃! p, e ∈ step.2.contents p) ∧
        ∃ st released, step.2.store.releaseAt (keyedGuards .exclusive) 0 0 = .ok (st, released) ∧
          released = [1] ∧ ∀ r ∈ released, ∃ ha p,
            (step.2.store.events 0).holders[0]? = some ha ∧ ha.atom = some p ∧
              step.2.store.WaitsAt (step.2.store.events r) (step.2.store.queueOf p)) ∧
    ∃ step ∈ (State.empty Unit Nat Unit).runOf handOverSchedule,
      step.2.store.queue (.atomic 0) = [] ∧
        (step.2.store.events 1).workingOn = 1 ∧ HeldBelow (step.2.store.events 1) 1 ∧
        (1 ∈ step.2.runnable ∨ 1 ∈ step.2.executing.map Execution.event ∨
          ∃! q, 1 ∈ step.2.store.queue q) := by
  have hwaits : ∃ step ∈ (State.empty Unit Nat Unit).runOf handOverSchedule,
      step.2.store.queue (.atomic 0) = [1] ∧ step.2.created = 2 ∧
        { event := 0, releasing := some 1, isLast := true } ∈ step.2.executing ∧
        (step.2.store.releaseAt (keyedGuards .exclusive) 0 0).toOption.map Prod.snd =
          some [1] := by decide
  have hholds : ∃ step ∈ (State.empty Unit Nat Unit).runOf handOverSchedule,
      step.2.store.queue (.atomic 0) = [] ∧ step.2.created = 2 ∧ step.2.acquiring = [] ∧
        step.2.finished = [] ∧ (step.2.store.events 1).workingOn = 1 := by decide
  have hreach {step} (hstep : step ∈ (State.empty Unit Nat Unit).runOf handOverSchedule) :=
    State.reachable_of_mem_runOf (keyedGuards_injective _)
      (.init (initial_empty_keyedGuards _)) hstep
  constructor
  · rcases hwaits with ⟨step, hstep, hqueue, hcreated, hx, hreleased⟩
    have hall := hand_off_protocol (hreach hstep)
    obtain ⟨st, released, hok, hfrom⟩ := (hall.2.2.2.2.2 _ hx 0 rfl).1
    refine ⟨step, hstep, hqueue, hall.2.2.2.1 1 _ (by simp [hqueue]),
      fun e he => hall.1 e (he.trans_eq hcreated.symm), st, released, hok, ?_, hfrom⟩
    rw [hok] at hreleased
    exact Option.some.inj hreleased
  · rcases hholds with ⟨step, hstep, hqueue, hcreated, hquiet, hfinished, hworking⟩
    have hall := hand_off_protocol (hreach hstep)
    have hlt : 1 < step.2.created := Nat.one_lt_two.trans_eq hcreated.symm
    have hlive : 1 ∉ step.2.finished := by simp [hfinished]
    have hbelow := hall.2.2.2.2.1 1 hlt hlive
    rw [hworking] at hbelow
    exact ⟨step, hstep, hqueue, hworking, hbelow, hall.2.2.1 hquiet 1 hlt hlive⟩

end Guards
end OFlux
