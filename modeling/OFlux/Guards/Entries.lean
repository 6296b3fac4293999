import OFlux.Guards.Holders

/-!
# The entries of the atomic maps

An entry of an atomic map is an atomic with its key object; collection deletes both.
Only two operations touch the entries: a lookup that makes a new one, and
{lit}`garbage_collect`.  A reference is tracked when its pointers are those of an entry
that is still there.

Main results:

- Theorem {lit}`lookedUp_of_getAtomic`: a lookup gives a reference that is tracked.
- Theorems {lit}`Tracking.visit` and {lit}`counted_of_releaseAt`: acquisitions and
  releases keep the count of every atomic above the number of its holders.
- Theorem {lit}`collect_ne_error`: the assertions of {lit}`garbage_collect` hold.
-/

namespace OFlux
namespace Guards
namespace Store

variable {I K D : Type} {st st' st'' : Store I K D} {e : EventId} {i n : Nat}

/-! ## Operations that keep the entries -/

/-- The same entries, and the same atomics were collected. -/
structure SameEntries (st st' : Store I K D) : Prop where
  allocated : st'.allocated = st.allocated
  maps : st'.maps = st.maps
  collected : st'.collected = st.collected
  madeFor : ∀ a, st'.madeFor (.plain a) = st.madeFor (.plain a)

theorem SameEntries.refl (st : Store I K D) : st.SameEntries st :=
  ⟨rfl, rfl, rfl, fun _ => rfl⟩

theorem SameEntries.trans (h : st.SameEntries st') (h' : st'.SameEntries st'') :
    st.SameEntries st'' :=
  ⟨h'.allocated.trans h.allocated, h'.maps.trans h.maps, h'.collected.trans h.collected,
    fun a => (h'.madeFor a).trans (h.madeFor a)⟩

/-- The same entries, and each atomic knows of as many holders as before. -/
structure Steady (st st' : Store I K D) : Prop extends SameEntries st st' where
  bounds : ∀ a count, (st.atomics a).Bounds count → (st'.atomics a).Bounds count

theorem Steady.refl (st : Store I K D) : st.Steady st :=
  { SameEntries.refl st with bounds := fun _ _ h => h }

theorem Steady.trans (h : st.Steady st') (h' : st'.Steady st'') : st.Steady st'' :=
  { h.toSameEntries.trans h'.toSameEntries with
    bounds := fun a count hbounds => h'.bounds a count (h.bounds a count hbounds) }

/-- Nothing but wrappers, pools and events changes. -/
theorem Steady.of_eq (hatomics : st'.atomics = st.atomics) (h : st.SameEntries st') :
    st.Steady st' :=
  { h with bounds := fun _ _ hbounds => by rw [hatomics]; exact hbounds }

/-- Writing an event is steady. -/
theorem steady_setEvent (st : Store I K D) (e : EventId) (event : Event I K D) :
    st.Steady (st.setEvent e event) :=
  .of_eq rfl ⟨rfl, rfl, rfl, fun _ => rfl⟩

/-- Writing a reference is steady. -/
theorem steady_setHeld (st : Store I K D) (e : EventId) (i : Nat) (ha : HeldAtomic I K D) :
    st.Steady (st.setHeld e i ha) :=
  steady_setEvent st e _

/-- Writing a pool and a wrapper is steady. -/
theorem steady_setPool_setWrapper (st : Store I K D) (g : GuardId) (pool : AtomicPool D)
    (w : PooledId) (wrapper : AtomicPooled D) :
    st.Steady ((st.setPool g pool).setWrapper w wrapper) :=
  .of_eq rfl ⟨rfl, rfl, rfl, fun _ => rfl⟩

/-- Writing data is steady. -/
theorem steady_setData (st : Store I K D) (p : AtomicPtr) (d : Option D) :
    st.Steady (st.setData p d) := by
  cases p with
  | plain a =>
      refine { allocated := rfl, maps := rfl, collected := rfl, madeFor := fun _ => rfl,
               bounds := fun b count h => ?_ }
      by_cases hb : b = a
      · subst hb
        simpa [setData, setAtomic] using h
      · simpa [setData, setAtomic, hb] using h
  | pooled w => exact .of_eq rfl ⟨rfl, rfl, rfl, fun _ => rfl⟩

/-- Returning a wrapper is steady. -/
theorem steady_poolPut {w : PooledId} (h : st.poolPut w = .ok st') : st.Steady st' := by
  simp only [poolPut] at h
  split at h
  · split at h <;> cases h
    exact .of_eq rfl ⟨rfl, rfl, rfl, fun _ => rfl⟩
  · cases h
    exact .refl _

/-- Taking a wrapper is steady. -/
theorem steady_poolGet [Inhabited K] {g : GuardId} {w : PooledId}
    (h : st.poolGet g = .ok (st', w)) : st.Steady st' := by
  simp only [poolGet] at h
  split at h
  · split at h <;> cases h
    exact .of_eq rfl ⟨rfl, rfl, rfl, fun _ => rfl⟩
  · cases h
    exact .of_eq rfl ⟨rfl, rfl, rfl, fun a => by simp⟩

/-- Giving an atomic up is steady. -/
theorem steady_relinquish {p : AtomicPtr} {should : Bool}
    (h : st.relinquish p should = .ok st') : st.Steady st' := by
  cases p with
  | plain a =>
      cases h
      exact .refl _
  | pooled w =>
      cases should with
      | false =>
          cases h
          exact .refl _
      | true => exact (steady_setPool_setWrapper st _ _ w _).trans (steady_poolPut h)

/-- Acquiring a wrapper is steady. -/
theorem steady_acquirePooled (st : Store I K D) (w : PooledId) (ev : EventId) (wtype : Nat) :
    st.Steady (st.acquireAtomic (.pooled w) ev wtype).1 := by
  rw [acquireAtomic]
  cases (st.pools (st.wrappers w).pool).dq with
  | cons d rest => exact steady_setPool_setWrapper st _ _ w _
  | nil => exact steady_setPool_setWrapper st _ _ w _

/-- Releasing a wrapper is steady. -/
theorem steady_releasePooled {w : PooledId} {released : List EventId}
    (h : st.releasePooled w = .ok (st', released)) : st.Steady st' := by
  simp only [releasePooled] at h
  split at h
  next ev rest hq =>
    split at h
    · cases h
    next p hp =>
      cases h
      have hpool : st.Steady (st.setPool (st.wrappers w).pool
          { st.pools (st.wrappers w).pool with q := rest }) :=
        .of_eq rfl ⟨rfl, rfl, rfl, fun _ => rfl⟩
      refine (hpool.trans (steady_setData _ p _)).trans (.of_eq rfl ⟨rfl, rfl, rfl, fun _ => rfl⟩)
  next hq =>
    cases hput : ((st.setPool (st.wrappers w).pool
        { st.pools (st.wrappers w).pool with
          dq := (st.pools (st.wrappers w).pool).dq ++ (st.wrappers w).data.toList }).setWrapper
        w { st.wrappers w with data := none }).poolPut w with
    | error err =>
        rw [hput] at h
        cases h
    | ok st1 =>
        rw [hput] at h
        cases h
        exact (steady_setPool_setWrapper st _ _ w _).trans (steady_poolPut hput)

section Handing

variable [LinearOrder K] {guards : GuardId → Guard} {ha : HeldAtomic I K D} {p : AtomicPtr}

/-- Handing a reference over is steady. -/
theorem steady_handOver {rel : EventId} (h : st.handOver guards e ha p rel = .ok st') :
    st.Steady st' := by
  simp only [handOver] at h
  split at h
  · cases h
  · split at h
    · cases h
    · split at h
      · split at h
        · cases h
          exact (steady_setHeld st rel _ _).trans (steady_setEvent _ rel _)
        · cases h
      · cases h
        exact steady_setHeld st rel _ _

/-- Handing references over is steady. -/
theorem steady_handOverAll {released : List EventId}
    (h : st.handOverAll guards e ha p released = .ok st') : st.Steady st' := by
  induction released generalizing st with
  | nil =>
      cases h
      exact .refl _
  | cons rel rest ih =>
      simp only [handOverAll] at h
      split at h
      · cases h
      next st1 hstep => exact (steady_handOver hstep).trans (ih h)

end Handing

/-! ## Tracked references -/

/-- No atomic has more holders than it counts. -/
def Counted (st : Store I K D) (n : Nat) : Prop :=
  ∀ a, (st.atomics a).Bounds (st.holding n a)

/-- A steady step with the same holders keeps the counts. -/
theorem Counted.of_steady (h : st.Counted n) (hsteady : st.Steady st')
    (hholding : ∀ a, st'.holding n a = st.holding n a) : st'.Counted n := by
  intro a
  rw [hholding a]
  exact hsteady.bounds a _ (h a)

section References

variable [LinearOrder K] {guards : GuardId → Guard} {ha : HeldAtomic I K D}

/-- The pointers of a reference: the key object comes with the atomic, and unless both
were collected the entry is still there. -/
structure Tracked (guards : GuardId → Guard) (st : Store I K D) (ha : HeldAtomic I K D) :
    Prop where
  owner : ∀ p, ha.atom = some p → ha.keyOwner = some p
  keyed : ∀ k, ha.key = some k → ∃ p, ha.keyOwner = some p
  made : ∀ p, ha.keyOwner = some p → st.Allocated p ∧
    (st.madeFor p).1 = ha.ref.guard ∧ ∀ k, ha.key = some k → k = (st.madeFor p).2
  live : ∀ a, ha.atom = some (.plain a) → a ∉ st.collected
  found : ∀ cls k a, (guards ha.ref.guard).amap = .std cls → ha.key = some k →
    ha.keyOwner = some (.plain a) → a ∉ st.collected →
    (st.maps ha.ref.guard).lookup k = some a

/-- What was collected was the atomic of a keyed map, and has no entry any more. -/
structure Gone (guards : GuardId → Guard) (st : Store I K D) : Prop where
  made : ∀ a ∈ st.collected, a < st.allocated ∧
    ∃ cls, (guards (st.madeFor (.plain a)).1).amap = .std cls
  entry : ∀ g k a, (st.maps g).lookup k = some a → a ∉ st.collected

/-- A new reference, and one whose translator gave no key. -/
theorem tracked_of_none (hatom : ha.atom = none) (howner : ha.keyOwner = none)
    (hkey : ha.key = none) : st.Tracked guards ha where
  owner p hp := by
    rw [hatom] at hp
    cases hp
  keyed k hk := by
    rw [hkey] at hk
    cases hk
  made p hp := by
    rw [howner] at hp
    cases hp
  live a ha := by
    rw [hatom] at ha
    cases ha
  found cls k a _ hk := by
    rw [hkey] at hk
    cases hk

/-- A reference that keeps some of its pointers. -/
theorem Tracked.of_ref {ha' : HeldAtomic I K D} (h : st.Tracked guards ha)
    (href : ha'.ref = ha.ref) (howner : ha'.keyOwner = ha.keyOwner)
    (hkey : ha'.key = none ∨ ha'.key = ha.key) (hatom : ha'.atom = none ∨ ha'.atom = ha.atom) :
    st.Tracked guards ha' := by
  have hkeys : ∀ k, ha'.key = some k → ha.key = some k := by
    intro k hk
    rcases hkey with hnone | hsame
    · rw [hnone] at hk
      cases hk
    · rw [← hsame, hk]
  have hatoms : ∀ p, ha'.atom = some p → ha.atom = some p := by
    intro p hp
    rcases hatom with hnone | hsame
    · rw [hnone] at hp
      cases hp
    · rw [← hsame, hp]
  refine ⟨fun p hp => ?_, fun k hk => ?_, fun p hp => ?_, fun a hp => h.live a (hatoms _ hp),
    fun cls k a hcls hk hp => ?_⟩
  · rw [howner]
    exact h.owner p (hatoms p hp)
  · rw [howner]
    exact h.keyed k (hkeys k hk)
  · rw [howner] at hp
    rw [href]
    have hmade := h.made p hp
    exact ⟨hmade.1, hmade.2.1, fun k hk => hmade.2.2 k (hkeys k hk)⟩
  · rw [howner] at hp
    rw [href] at hcls ⊢
    exact h.found cls k a hcls (hkeys k hk) hp

/-- Entries that are there stay. -/
theorem Tracked.mono (h : st.Tracked guards ha) (hext : st.Extends st')
    (hcollected : st'.collected = st.collected)
    (hlookup : ∀ g k a, (st.maps g).lookup k = some a → (st'.maps g).lookup k = some a) :
    st'.Tracked guards ha := by
  refine ⟨h.owner, h.keyed, fun p hp => ?_, fun a ha => ?_, fun cls k a hcls hk hp hlive => ?_⟩
  · have hmade := h.made p hp
    have hext' := hext p hmade.1
    rw [hext'.2]
    exact ⟨hext'.1, hmade.2⟩
  · rw [hcollected]
    exact h.live a ha
  · rw [hcollected] at hlive
    exact hlookup _ k a (h.found cls k a hcls hk hp hlive)

/-- The same entries keep a reference tracked. -/
theorem Tracked.of_sameEntries (h : st.Tracked guards ha) (hext : st.Extends st')
    (hsame : st.SameEntries st') : st'.Tracked guards ha :=
  h.mono hext hsame.collected fun g k a hlookup => by rw [hsame.maps]; exact hlookup

/-- The same entries keep collected atomics gone. -/
theorem Gone.of_sameEntries (h : st.Gone guards) (hsame : st.SameEntries st') :
    st'.Gone guards := by
  refine ⟨fun a hmem => ?_, fun g k a hlookup => ?_⟩
  · rw [hsame.collected] at hmem
    rw [hsame.allocated, hsame.madeFor]
    exact h.made a hmem
  · rw [hsame.maps] at hlookup
    rw [hsame.collected]
    exact h.entry g k a hlookup

end References

/-! ## Lookups -/

section Lookups

variable [LinearOrder K] [Inhabited K] {guards : GuardId → Guard}

/-- What a lookup leaves behind: no entry goes, and the pointers that it gives are those
of an entry. -/
structure LookedUp (guards : GuardId → Guard) (st : Store I K D) (n : Nat)
    (st' : Store I K D) (g : GuardId) (p : AtomicPtr) (key : K) : Prop where
  gone : st'.Gone guards
  counted : st'.Counted n
  collected : st'.collected = st.collected
  lookup : ∀ g k a, (st.maps g).lookup k = some a → (st'.maps g).lookup k = some a
  live : ∀ a, p = .plain a → a ∉ st'.collected
  found : ∀ cls a, (guards g).amap = .std cls → p = .plain a →
    (st'.maps g).lookup key = some a

omit [Inhabited K] in
/-- A look-up that makes the atomic. -/
theorem lookedUp_of_newAtomic {g : GuardId} {cls : AtomicClass} {key : K}
    (hgone : st.Gone guards) (hcounted : st.Counted n)
    (hreferred : ∀ x, ∀ ha ∈ (st.events x).holders, st.Referred ha)
    (hnone : (st.maps g).lookup key = none) :
    LookedUp guards st n (st.newAtomic g cls key) g (.plain st.allocated) key := by
  have hlookup : ∀ g' k, ((st.newAtomic g cls key).maps g').lookup k =
      if g' = g ∧ k = key then some st.allocated else (st.maps g').lookup k := by
    intro g' k
    by_cases hg : g' = g
    · subst hg
      by_cases hk : k = key
      · subst hk
        simp [newAtomic, setMap]
      · have hne : (k == key) = false := by simpa using hk
        simp [newAtomic, setMap, setAtomic, List.lookup_cons, hk, hne]
    · simp [newAtomic, setMap, setAtomic, hg]
  have hfresh : st.allocated ∉ st.collected := fun hmem => absurd (hgone.made _ hmem).1 (lt_irrefl _)
  have hself : (st.newAtomic g cls key).collected = st.collected := rfl
  refine ⟨⟨fun a hmem => ?_, fun g' k a hl => ?_⟩, fun a => ?_, rfl, fun g' k a hl => ?_,
    fun a ha => ?_, fun cls' a _ ha => ?_⟩
  · have hmade := hgone.made a hmem
    have hne : a ≠ st.allocated := hmade.1.ne
    refine ⟨Nat.lt_succ_of_lt hmade.1, ?_⟩
    simpa [newAtomic, hne] using hmade.2
  · rw [hlookup] at hl
    rw [hself]
    split at hl
    · cases hl
      exact hfresh
    · exact hgone.entry g' k a hl
  · have hholding : (st.newAtomic g cls key).holding n a = st.holding n a := holding_of_events rfl
    rw [hholding]
    by_cases ha : a = st.allocated
    · -- nobody refers to the number of the new atomic
      subst ha
      rw [holding_of_unreferred fun e _ ha hha hp =>
        absurd (hreferred e ha hha _ hp).1 (lt_irrefl _)]
      exact Atomic.bounds_zero _
    · simpa [newAtomic, setMap, setAtomic, ha] using hcounted a
  · rw [hlookup]
    split
    next hboth =>
      rw [hboth.1, hboth.2, hnone] at hl
      cases hl
    · exact hl
  · cases ha
    exact hfresh
  · cases ha
    rw [hlookup]
    simp

/-- What a look-up finds or makes. -/
theorem lookedUp_of_getAtomic {g : GuardId} {key key' : K} {p : AtomicPtr}
    (hwf : WellFormed guards st) (hgone : st.Gone guards) (hcounted : st.Counted n)
    (hreferred : ∀ x, ∀ ha ∈ (st.events x).holders, st.Referred ha)
    (h : st.getAtomic guards g key = .ok (st', p, key')) :
    LookedUp guards st n st' g p key' := by
  simp only [getAtomic] at h
  split at h
  next a htrivial =>
    cases h
    refine ⟨hgone, hcounted, rfl, fun _ _ _ hl => hl, fun b hb hmem => ?_, fun cls b hcls _ => ?_⟩
    · cases hb
      rcases (hgone.made a hmem).2 with ⟨cls, hcls⟩
      rw [(hwf.trivialAtom g a htrivial).2, htrivial] at hcls
      cases hcls
    · rw [htrivial] at hcls
      cases hcls
  next cls hcls =>
    split at h
    next a hl =>
      cases h
      refine ⟨hgone, hcounted, rfl, fun _ _ _ hl => hl, fun b hb => ?_, fun _ b _ hb => ?_⟩
      · cases hb
        exact hgone.entry g key _ hl
      · cases hb
        exact hl
    next hnone =>
      cases h
      exact lookedUp_of_newAtomic hgone hcounted hreferred hnone
  next hpool =>
    cases hres : st.poolGet g with
    | error err =>
        rw [hres] at h
        cases h
    | ok result =>
        rw [hres] at h
        cases h
        have hsteady := steady_poolGet hres
        refine ⟨hgone.of_sameEntries hsteady.toSameEntries, hcounted.of_steady hsteady fun a => ?_,
          hsteady.collected, fun g' k a hl => ?_, fun a ha => ?_, fun _ a _ ha => ?_⟩
        · exact holding_of_events (poolGet_frame hres).1
        · rw [hsteady.maps]
          exact hl
        · cases ha
        · cases ha

/-! ## Acquisitions -/

/-- What the entries have to do with the first {lit}`n` events. -/
structure Tracking (guards : GuardId → Guard) (st : Store I K D) (n : Nat) : Prop where
  gone : st.Gone guards
  counted : st.Counted n
  tracked : ∀ x, x < n → ∀ ha ∈ (st.events x).holders, st.Tracked guards ha

namespace Tracking

omit [Inhabited K] in
/-- Only one event changes, and the entries stay. -/
theorem of_event (h : st.Tracking guards n) (hext : st.Extends st')
    (hsame : st.SameEntries st') (hcounted : st'.Counted n)
    (hothers : ∀ x, x ≠ e → st'.events x = st.events x)
    (hself : ∀ ha ∈ (st'.events e).holders, st.Tracked guards ha) : st'.Tracking guards n := by
  refine ⟨h.gone.of_sameEntries hsame, hcounted, fun x hx ha hha => ?_⟩
  by_cases hxe : x = e
  · subst hxe
    exact (hself ha hha).of_sameEntries hext hsame
  · rw [hothers x hxe] at hha
    exact (h.tracked x hx ha hha).of_sameEntries hext hsame

omit [Inhabited K] in
/-- One reference that holds nothing is assigned. -/
theorem setHeld (h : st.Tracking guards n) {ha ha' : HeldAtomic I K D} (he : e < n)
    (hi : (st.events e).holders[i]? = some ha) (htracked : st.Tracked guards ha')
    (hholds : ∀ a, ha'.holds a = ha.holds a) : (st.setHeld e i ha').Tracking guards n := by
  have hsteady := steady_setHeld st e i ha'
  have hothers : ∀ x, x ≠ e → (st.setHeld e i ha').events x = st.events x :=
    fun x hx => events_setHeld_ne _ hx
  refine h.of_event (sameShape_setHeld st e i ha').extends hsteady.toSameEntries
    (h.counted.of_steady hsteady fun a => ?_) hothers fun x hx => ?_
  · have hassigned : ((st.setHeld e i ha').events e).holders =
        (st.events e).holders.set i ha' := by simp
    have hset := holding_of_set (a := a) he hothers hi hassigned
    rw [hholds a] at hset
    exact Nat.add_right_cancel hset
  · rw [events_setHeld_self] at hx
    rcases List.mem_or_eq_of_mem_set hx with hold | rfl
    · exact h.tracked e he x hold
    · exact htracked

/-- A look-up keeps the references tracked. -/
theorem getAtomic (h : st.Tracking guards n) (htyped : Typed guards st) {g : GuardId}
    {key key' : K} {p : AtomicPtr} (hget : st.getAtomic guards g key = .ok (st', p, key')) :
    st'.Tracking guards n ∧ LookedUp guards st n st' g p key' := by
  have hlooked := lookedUp_of_getAtomic htyped.wellFormed h.gone h.counted htyped.referred hget
  have hext := (htyped.wellFormed.getAtomic hget).2.1
  refine ⟨⟨hlooked.gone, hlooked.counted, fun x hx ha hha => ?_⟩, hlooked⟩
  rw [(getAtomic_frame htyped.wellFormed hget).1] at hha
  exact (h.tracked x hx ha hha).mono hext hlooked.collected hlooked.lookup

/-- Building a reference that is not held. -/
theorem build (h : st.Tracking guards n) (htyped : Typed guards st) (he : e < n)
    (hfree : ∀ ha, (st.events e).holders[i]? = some ha → ha.haveit = false)
    {allowLate : Bool} (hbuild : st.build guards e i allowLate = .ok st') :
    st'.Tracking guards n := by
  rcases build_cases hbuild with
    rfl | ⟨ha, hi, hatom, -, ⟨-, rfl⟩ | ⟨key, st1, p, key', -, hget, rfl⟩⟩
  · exact h
  · have hold := h.tracked e he ha (List.mem_of_getElem? hi)
    refine h.setHeld he hi (hold.of_ref rfl rfl (Or.inl rfl) (Or.inr rfl)) fun a => rfl
  · obtain ⟨htracking, hlooked⟩ := h.getAtomic htyped hget
    have hmade := htyped.wellFormed.getAtomic hget
    have hi' : (st1.events e).holders[i]? = some ha := by
      rw [(getAtomic_frame htyped.wellFormed hget).1]
      exact hi
    refine htracking.setHeld he hi' ⟨fun q hq => hq, fun k _ => ⟨p, rfl⟩, fun q hq => ?_,
      fun a hq => hlooked.live a (Option.some.inj hq), fun cls k a hcls hk hq _ => ?_⟩ fun a => ?_
    · cases hq
      refine ⟨hmade.2.2.1, ?_⟩
      rw [hmade.2.2.2]
      exact ⟨rfl, fun k hk => (Option.some.inj hk).symm⟩
    · cases hk
      exact hlooked.found cls a hcls (Option.some.inj hq)
    · rw [HeldAtomic.holds_of_haveit_eq_false (hfree ha hi)]
      exact HeldAtomic.holds_of_haveit_eq_false (hfree ha hi)

omit [Inhabited K] in
/-- A request of a reference that is not held. -/
theorem acquireOrWait (h : st.Tracking guards n) (he : e < n) {ha : HeldAtomic I K D}
    (hi : (st.events e).holders[i]? = some ha) (hreferred : st.Referred ha)
    (hfree : ha.haveit = false) {res : Bool}
    (hrequest : st.acquireOrWait e i ha = .ok (st', res)) : st'.Tracking guards n := by
  have hold := h.tracked e he ha (List.mem_of_getElem? hi)
  obtain ⟨p, hp, hrequested⟩ :=
    requested_of_acquireOrWait (fun p hp => (hreferred p hp).1) hrequest
  have hsame : { ha with haveit := false } = ha := by rw [← hfree]
  have hentries : st.SameEntries st' ∧ ∀ a, (st'.atomics a).Bounds
      (st.holding n a + if res = true ∧ p = .plain a then 1 else 0) := by
    simp only [Store.acquireOrWait] at hrequest
    split at hrequest
    · cases hrequest
    · cases hrequest
    next key p' hkey hp' =>
      cases hp.symm.trans hp'
      rw [hsame] at hrequest
      have hfirst := steady_setHeld st e i ha
      have hend : ∀ st1 : Store I K D, st1.Steady st' → st.SameEntries st1 →
          (∀ a, (st1.atomics a).Bounds
            (st.holding n a + if res = true ∧ p = .plain a then 1 else 0)) →
          st.SameEntries st' ∧ ∀ a, (st'.atomics a).Bounds
            (st.holding n a + if res = true ∧ p = .plain a then 1 else 0) :=
        fun st1 hsteady hsame' hbounds => ⟨hsame'.trans hsteady.toSameEntries,
          fun a => hsteady.bounds a _ (hbounds a)⟩
      refine hend ((st.setHeld e i ha).acquireAtomic p e ha.ref.wtype).1 ?_ ?_ fun a => ?_
      · cases hrequest
        split
        · exact steady_setHeld _ e i _
        · exact .refl _
      · cases p with
        | plain a => exact hfirst.toSameEntries.trans ⟨rfl, rfl, rfl, fun _ => rfl⟩
        | pooled w =>
            exact (hfirst.trans (steady_acquirePooled _ w e _)).toSameEntries
      · cases p with
        | plain b =>
            cases hrequest
            by_cases hab : a = b
            · subst hab
              have hbounds := Atomic.bounds_acquireOrWait (h.counted a) e ha.ref.wtype
              simpa [Store.acquireAtomic, setAtomic, Store.setHeld, setEvent] using hbounds
            · have hba : ¬ b = a := fun heq => hab heq.symm
              simpa [Store.acquireAtomic, setAtomic, Store.setHeld, setEvent, hab, hba] using
                h.counted a
        | pooled w =>
            have hsteady := hfirst.trans (steady_acquirePooled (st.setHeld e i ha) w e ha.ref.wtype)
            simpa using hsteady.bounds a _ (h.counted a)
  refine h.of_event hrequested.shape.extends hentries.1 (fun a => ?_) hrequested.others
    fun x hx => ?_
  · have hset := holding_of_set (a := a) he hrequested.others hi (by rw [hrequested.event])
    rw [HeldAtomic.holds_of_haveit_eq_false hfree] at hset
    have hholds : (({ ha with haveit := res } : HeldAtomic I K D).holds a = true) ↔
        res = true ∧ p = .plain a := by
      simp [HeldAtomic.holds_iff, hp]
    simp only [hholds, Bool.false_eq_true, if_false, Nat.add_zero] at hset
    rw [hset]
    exact hentries.2 a
  · rw [hrequested.event] at hx
    rcases List.mem_or_eq_of_mem_set hx with hmem | rfl
    · exact h.tracked e he x hmem
    · exact hold.of_ref rfl rfl (Or.inr rfl) (Or.inr rfl)

omit [Inhabited K] in
/-- The references of an event stay, in another order perhaps. -/
theorem setEvent (h : st.Tracking guards n) (he : e < n) {event : Event I K D}
    (hperm : event.holders.Perm (st.events e).holders) :
    (st.setEvent e event).Tracking guards n := by
  have hsteady := steady_setEvent st e event
  have hothers : ∀ x, x ≠ e → (st.setEvent e event).events x = st.events x :=
    fun x hx => events_setEvent_ne _ hx
  refine h.of_event (sameShape_setEvent st e event).extends hsteady.toSameEntries
    (h.counted.of_steady hsteady fun a => ?_) hothers fun ha hha => ?_
  · have hcount := holding_of_event (a := a) he hothers
    rw [events_setEvent_self, hperm.countP_eq] at hcount
    exact Nat.add_right_cancel hcount
  · rw [events_setEvent_self] at hha
    exact h.tracked e he ha (hperm.mem_iff.mp hha)

/-- One turn of an acquisition. -/
theorem visit (h : st.Tracking guards n) (htyped : Typed guards st) (he : e < n)
    (hfree : ∀ ha, (st.events e).holders[i]? = some ha → ha.haveit = false) {res : Bool}
    (hvisit : st.visit guards e i = .ok (st', res)) : st'.Tracking guards n := by
  simp only [Store.visit] at hvisit
  split at hvisit
  · cases hvisit
  next st1 hbuild =>
    have hbuilt := h.build htyped he hfree hbuild
    have hraised : (st1.raiseWorkingOn e i).Tracking guards n := by
      refine hbuilt.setEvent he ?_
      exact List.Perm.refl _
    split at hvisit
    · cases hvisit
      exact hraised
    next ha hi =>
      split at hvisit
      · cases hvisit
        exact hraised
      next hnot =>
        simp only [Bool.or_eq_true, not_or, Bool.not_eq_true] at hnot
        have hi1 : (st1.events e).holders[i]? = some ha := by
          rwa [Store.raiseWorkingOn, events_setEvent_self] at hi
        have hreferred := ((htyped.build hbuild).referred e ha (List.mem_of_getElem? hi1)).mono
          (sameShape_setEvent st1 e { st1.events e with
            workingOn := max (st1.events e).workingOn i }).extends
        exact hraised.acquireOrWait he hi hreferred hnot.1 hvisit

/-- The first loop of {lit}`get_keys_sort`. -/
theorem getKeys (h : st.Tracking guards n) (htyped : Typed guards st) (he : e < n)
    (hfree : ∀ ha ∈ (st.events e).holders, ha.haveit = false) {positions : List Nat}
    (hkeys : st.getKeys guards e positions = .ok st') : st'.Tracking guards n := by
  refine getKeys_induction (P := fun st => st.Tracking guards n)
    (fun st st1 j htyped hfree hbuild htracking => ?_) htyped hfree hkeys h
  exact htracking.build htyped he (fun ha hi => hfree ha (List.mem_of_getElem? hi)) hbuild

end Tracking

/-! ## Releases -/

/-- What a collection leaves behind: the entry of one atomic is gone, and nobody waits
for it or counts as its holder. -/
structure Collected (guards : GuardId → Guard) (st : Store I K D) (e : EventId) (i : Nat)
    (a : AtomicId) (st' : Store I K D) : Prop where
  holder : ∃ ha k, (st.events e).holders[i]? = some ha ∧ ha.atom = some (.plain a) ∧
    ha.key = some k ∧ (st.maps ha.ref.guard).lookup k = some a ∧
    (guards ha.ref.guard).isGC = true ∧ (∃ cls, (guards ha.ref.guard).amap = .std cls) ∧
    st'.maps = Function.update st.maps ha.ref.guard
      ((st.maps ha.ref.guard).filter fun entry => entry.1 ≠ k) ∧
    ∃ ha', st'.events = (st.setHeld e i ha').events ∧ ha'.ref = ha.ref ∧ ha'.atom = none ∧
      ha'.key = none ∧ ha'.keyOwner = ha.keyOwner
  allocated : st'.allocated = st.allocated
  collected : st'.collected = a :: st.collected
  madeFor : ∀ b, st'.madeFor (.plain b) = st.madeFor (.plain b)
  queue : st'.queue (.atomic a) = []
  held : (st'.atomics a).held = 0

section Release

variable {ha : HeldAtomic I K D} {p : AtomicPtr} {released : List EventId}

omit [LinearOrder K] [Inhabited K] in
/-- Releasing an atomic keeps the entries. -/
theorem sameEntries_releaseAtomic (h : st.releaseAtomic p = .ok (st', released)) :
    st.SameEntries st' := by
  cases p with
  | plain a =>
      cases h
      exact ⟨rfl, rfl, rfl, fun _ => rfl⟩
  | pooled w => exact (steady_releasePooled h).toSameEntries

omit [Inhabited K] in
/-- All that a collection needs and does. -/
theorem collect_eq_some (h : st.collect guards ha p released = .ok (some st')) :
    released = [] ∧ st.queue (st.queueOf p) = [] ∧ st.heldCount p = 0 ∧ st.dataOf p = none ∧
      ∃ a k, p = .plain a ∧ ha.key = some k ∧ (st.maps ha.ref.guard).lookup k = some a ∧
        (guards ha.ref.guard).isGC = true ∧ (∃ cls, (guards ha.ref.guard).amap = .std cls) ∧
        st' = { st.setMap ha.ref.guard
            ((st.maps ha.ref.guard).filter fun entry => entry.1 ≠ k) with
          collected := a :: st.collected } := by
  simp only [collect] at h
  split at h
  next hidle =>
    refine ⟨hidle.1, hidle.2.1, hidle.2.2.1, hidle.2.2.2, ?_⟩
    simp only [garbageCollect] at h
    split at h
    next cls k hcls hkey =>
      split at h
      next hgc =>
        split at h
        next a hlookup =>
          split at h
          next hown =>
            cases h
            exact ⟨a, k, hown.1, hkey, hlookup, hgc, ⟨cls, hcls⟩, rfl⟩
          · cases h
        · cases h
      · cases h
    · cases h
  · cases h

omit [Inhabited K] in
/-- The entry that a collection finds is the one of the reference. -/
theorem collect_ne_error (htracked : st.Tracked guards ha) (hsame : st.SameEntries st')
    (hp : ha.atom = some p)
    (hplain : ∀ cls, (guards ha.ref.guard).amap = .std cls → ∃ a, p = .plain a) :
    st'.collect guards ha p released ≠ .error .collectsOtherAtomic := by
  intro h
  simp only [collect] at h
  split at h
  · simp only [garbageCollect] at h
    split at h
    next cls k hcls hkey =>
      rcases hplain cls hcls with ⟨a, rfl⟩
      have howner := htracked.owner _ hp
      have hlookup := htracked.found cls k a hcls hkey howner (htracked.live a hp)
      simp only [hsame.maps, hlookup, howner, and_self, if_true] at h
      split at h <;> cases h
    · cases h
  · cases h

omit [Inhabited K] in
/-- One turn of a release keeps the entries, or collects the atomic. -/
theorem sameEntries_or_collected (h : st.releaseAt guards e i = .ok (st', released)) :
    st.SameEntries st' ∨ released = [] ∧ ∃ a, Collected guards st e i a st' := by
  rcases releaseAt_cases h with
    ⟨-, rfl, -⟩ | ⟨ha, p, st1, st2, hi, -, hp, hrelease, hhand, hend⟩
  · exact Or.inl (.refl _)
  · have hsame := (sameEntries_releaseAtomic hrelease).trans
      (steady_handOverAll hhand).toSameEntries
    rcases hend with ⟨st3, hcollect, rfl⟩ | ⟨-, hrelinquish⟩
    · obtain ⟨rfl, hqueue, hheld, -, a, k, rfl, hkey, hlookup, hgc, hcls, rfl⟩ :=
        collect_eq_some hcollect
      rw [hsame.maps] at hlookup
      have hevents : st2.events = st.events := by
        cases hhand
        exact events_releaseAtomic hrelease
      refine Or.inr ⟨rfl, a, ⟨ha, k, hi, hp, hkey, hlookup, hgc, hcls, ?_,
        { ha with atom := none, key := none }, ?_, rfl, rfl, rfl, rfl⟩, hsame.allocated, ?_,
        hsame.madeFor, hqueue, hheld⟩
      · rw [← hsame.maps]
        rfl
      · simp [Store.setHeld, setEvent, setMap, hevents]
      · rw [← hsame.collected]
        rfl
    · exact Or.inl (hsame.trans ((steady_setHeld st2 e i _).trans
        (steady_relinquish hrelinquish)).toSameEntries)

omit [Inhabited K] in
/-- What the count of an atomic becomes in one turn of a release. -/
theorem bounds_of_releaseAt (hcounted : st.Counted n)
    (hi : (st.events e).holders[i]? = some ha) (b : AtomicId)
    (hpos : ha.holds b = true → 0 < st.holding n b)
    (h : st.releaseAt guards e i = .ok (st', released)) :
    (st'.atomics b).Bounds (st.holding n b - (if ha.holds b then 1 else 0) +
      if ha.atom = some (.plain b) then released.length else 0) := by
  rcases releaseAt_cases h with
    ⟨hpass, rfl, rfl⟩ | ⟨ha1, p, st1, st2, hi1, hhave, hp, hrelease, hhand, hend⟩
  · have hfree : ha.holds b = false := by
      cases hhave : ha.haveit with
      | false => exact HeldAtomic.holds_of_haveit_eq_false hhave
      | true => exact HeldAtomic.holds_of_atom_eq_none (hpass ha hi hhave)
    simpa [hfree] using hcounted b
  · cases hi.symm.trans hi1
    have hrest : ∀ count, (st1.atomics b).Bounds count → (st'.atomics b).Bounds count := by
      intro count hbounds
      have hbounds2 := (steady_handOverAll hhand).bounds b count hbounds
      rcases hend with ⟨st3, hcollect, rfl⟩ | ⟨-, hrelinquish⟩
      · obtain ⟨-, -, -, -, a, k, -, -, -, -, -, rfl⟩ := collect_eq_some hcollect
        exact hbounds2
      · exact ((steady_setHeld st2 e i _).trans (steady_relinquish hrelinquish)).bounds b count
          hbounds2
    cases p with
    | pooled w =>
        have hfree : ha.holds b = false := by simp [HeldAtomic.holds, hp]
        apply hrest
        simpa [hfree, hp] using (steady_releasePooled hrelease).bounds b _ (hcounted b)
    | plain a =>
        cases hrelease
        apply hrest
        by_cases hb : b = a
        · subst hb
          have hholds : ha.holds b = true := HeldAtomic.holds_iff.mpr ⟨hhave, hp⟩
          simpa [setAtomic, hholds, hp] using Atomic.bounds_release (hcounted b) (hpos hholds)
        · have hne : ¬ a = b := fun heq => hb heq.symm
          have hfree : ha.holds b = false := by simp [HeldAtomic.holds, hp, hne]
          simpa [setAtomic, hb, hfree, hp, hne] using hcounted b

/-- One turn of a release keeps the count of every atomic above the number of its
holders. -/
theorem counted_of_releaseAt (hc : Consistent guards st) (hcounted : st.Counted n)
    (heffect : Released guards st e i st' released) (he : e < n)
    (hlt : ∀ q x, x ∈ st.queue q → x < n) (hnot : ∀ q, e ∉ st.queue q)
    (h : st.releaseAt guards e i = .ok (st', released)) : st'.Counted n := by
  obtain ⟨ha, ha', hi, hevent, -, -, hatom⟩ := heffect.event
  obtain ⟨q0, hq0, -⟩ := heffect.queue
  have hnodup : released.Nodup := by
    have hall := hc.nodup q0
    rw [hq0] at hall
    exact (List.nodup_append.mp hall).1
  have hself : e ∉ released := by
    intro hmem
    obtain ⟨-, p, -, -, hqueue⟩ := heffect.waited e hmem
    exact hnot _ hqueue
  -- first the released events take the atomic over, then the reference is cleared
  let st1 : Store I K D :=
    { st with events := fun x => if x ∈ released then (st.events x).taken else st.events x }
  have hother : ∀ x, x ≠ e → st'.events x = st1.events x := heffect.others
  have hsame : st1.events e = st.events e := if_neg hself
  intro b
  have hi1 : (st1.events e).holders[i]? = some ha := by rw [hsame]; exact hi
  have hassigned : (st'.events e).holders = (st1.events e).holders.set i ha' := by
    rw [hsame, hevent]
  have hset := holding_of_set (a := b) he hother hi1 hassigned
  rw [HeldAtomic.holds_of_atom_eq_none hatom] at hset
  simp only [Bool.false_eq_true, if_false, Nat.add_zero] at hset
  have hpos : ha.holds b = true → 0 < st.holding n b :=
    fun hholds => holding_pos he (List.mem_of_getElem? hi) hholds
  -- the queue that the released events leave is that of the released reference
  have htaken : st1.holding n b =
      st.holding n b + if ha.atom = some (.plain b) then released.length else 0 := by
    by_cases hempty : released = []
    · subst hempty
      have hsame : st1.holding n b = st.holding n b := holding_of_events (by simp [st1])
      simpa using hsame
    · obtain ⟨r, hr⟩ := List.exists_mem_of_ne_nil released hempty
      obtain ⟨ha1, p, hi1, hp, -⟩ := heffect.waited r hr
      cases hi.symm.trans hi1
      have hwaits : ∀ x ∈ released, st.WaitsAt (st.events x) (st.queueOf p) := by
        intro x hx
        obtain ⟨ha2, p2, hi2, hp2, hmem⟩ := heffect.waited x hx
        cases hi.symm.trans hi2
        cases hp.symm.trans hp2
        exact hc.waiting _ x hmem
      have hin : ∀ x ∈ released, x < n := by
        intro x hx
        obtain ⟨-, p2, -, -, hmem⟩ := heffect.waited x hx
        exact hlt _ x hmem
      have htaken : ∀ x, st1.events x =
          if x ∈ released then (st.events x).taken else st.events x := fun x => rfl
      have hcount := holding_of_taken (a := b) htaken hnodup hin hwaits
      have hqueue : st.queueOf p = .atomic b ↔ ha.atom = some (.plain b) := by
        rw [hp]
        cases p <;> simp [queueOf]
      simpa only [hqueue] using hcount
  rw [htaken] at hset
  have hbounds := bounds_of_releaseAt hcounted hi b hpos h
  have hcount : st'.holding n b = st.holding n b - (if ha.holds b then 1 else 0) +
      if ha.atom = some (.plain b) then released.length else 0 := by
    by_cases hholds : ha.holds b = true
    · have hone := hpos hholds
      simp only [hholds, if_true] at hset ⊢
      omega
    · simp only [hholds, Bool.false_eq_true, if_false] at hset ⊢
      omega
  rw [hcount]
  exact hbounds

/-- The references after a turn of a release have the pointers that they had, or fewer. -/
theorem tracked_of_released (htracked : ∀ x, x < n → ∀ ha ∈ (st.events x).holders,
      st.Tracked guards ha) (heffect : Released guards st e i st' released) {x : EventId}
    (hx : x < n) {ha : HeldAtomic I K D} (hha : ha ∈ (st'.events x).holders) :
    st.Tracked guards ha := by
  by_cases hxe : x = e
  · subst hxe
    obtain ⟨ha1, ha', hi, hevent, href, -, hatom⟩ := heffect.event
    have hlt := (List.getElem?_eq_some_iff.mp hi).1
    have hi' : (st'.events x).holders[i]? = some ha' := by
      rw [hevent]
      simp [hlt]
    have hpointers := heffect.pointers ha1 ha' hi hi'
    rw [hevent] at hha
    rcases List.mem_or_eq_of_mem_set hha with hold | rfl
    · exact htracked x hx ha hold
    · exact (htracked x hx ha1 (List.mem_of_getElem? hi)).of_ref href hpointers.1 hpointers.2
        (Or.inl hatom)
  · rw [heffect.others x hxe] at hha
    split at hha
    · rw [Event.taken] at hha
      split at hha
      · exact htracked x hx ha hha
      next ha1 hi =>
        rcases List.mem_or_eq_of_mem_set hha with hold | rfl
        · exact htracked x hx ha hold
        · exact (htracked x hx ha1 (List.mem_of_getElem? hi)).of_ref rfl rfl (Or.inr rfl)
            (Or.inr rfl)
    · exact htracked x hx ha hha

end Release

end Lookups

end Store
end Guards
end OFlux
