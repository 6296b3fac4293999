import OFlux.Guards.Store

/-!
# Well-formed stores

The entries of an atomic map are atomics made for that guard and key, and the idle
wrappers of a pool are wrappers of that pool.  Every operation keeps this, and an
atomic stays what it was made for.

Main results:

- Theorem {lit}`WellFormed.getAtomic`: a lookup gives an atomic made for the guard
  and key.
- Theorem {lit}`WellFormed.acquireAtomic`, {lit}`WellFormed.releaseAtomic`: requests
  and releases keep a store well formed.
-/

namespace OFlux
namespace Guards
namespace Store

variable {I K D : Type}

/-- The pointer is that of an atomic or of a wrapper that has been allocated. -/
def Allocated (st : Store I K D) : AtomicPtr → Prop
  | .plain a => a < st.allocated
  | .pooled w => w < st.wrapped

/-- The queue for requests on an atomic of a guard. -/
def queueFor (p : AtomicPtr) (g : GuardId) : Queue :=
  match p with
  | .plain a => .atomic a
  | .pooled _ => .pool g

/-- What was allocated stays so and keeps its guard and key. -/
def Extends (st st' : Store I K D) : Prop :=
  ∀ p, st.Allocated p → st'.Allocated p ∧ st'.madeFor p = st.madeFor p

/-- Maps, wrappers and lists of wrappers have only what was made for their guards. -/
structure WellFormed [Inhabited K] (guards : GuardId → Guard) (st : Store I K D) :
    Prop where
  entry : ∀ g k a, (k, a) ∈ st.maps g →
    a < st.allocated ∧ st.madeFor (.plain a) = (g, k)
  trivialAtom : ∀ g a, (guards g).amap = .trivial a →
    a < st.allocated ∧ st.madeFor (.plain a) = (g, default)
  wrapper : ∀ w, w < st.wrapped →
    st.madeFor (.pooled w) = ((st.wrappers w).pool, default)
  idle : ∀ g w, (st.pools g).apList = some w →
    w < st.wrapped ∧ (st.wrappers w).pool = g
  next : ∀ w v, w < st.wrapped → (st.wrappers w).next = some v →
    v < st.wrapped ∧ (st.wrappers v).pool = (st.wrappers w).pool
  poolLike : ∀ p, st.Allocated p →
    (p.isPoolLike = true ↔ (guards (st.madeFor p).1).amap = .pool)
  fresh : ∀ a, st.allocated ≤ a → (st.atomics a).waiting = []

theorem Extends.refl (st : Store I K D) : st.Extends st :=
  fun _ h => ⟨h, rfl⟩

theorem Extends.trans {st1 st2 st3 : Store I K D} (h12 : st1.Extends st2)
    (h23 : st2.Extends st3) : st1.Extends st3 := by
  intro p hp
  have h2 := h12 p hp
  have h3 := h23 p h2.1
  exact ⟨h3.1, h3.2.trans h2.2⟩

/-- A store whose allocations are those of another one extends it. -/
theorem Extends.of_eq {st st' : Store I K D} (hallocated : st'.allocated = st.allocated)
    (hwrapped : st'.wrapped = st.wrapped) (hmadeFor : st'.madeFor = st.madeFor) :
    st.Extends st' := by
  intro p hp
  cases p with
  | plain a => exact ⟨by simpa [Allocated, hallocated] using hp, by rw [hmadeFor]⟩
  | pooled w => exact ⟨by simpa [Allocated, hwrapped] using hp, by rw [hmadeFor]⟩

/-! ## Updates that keep the shape -/

/-- Two stores with the same maps and wrapper lists: data, holder counts, queues and
events may differ. -/
structure SameShape (st st' : Store I K D) : Prop where
  allocated : st'.allocated = st.allocated
  wrapped : st'.wrapped = st.wrapped
  madeFor : st'.madeFor = st.madeFor
  maps : ∀ g entry, entry ∈ st'.maps g → entry ∈ st.maps g
  pool : ∀ w, (st'.wrappers w).pool = (st.wrappers w).pool
  next : ∀ w, (st'.wrappers w).next = (st.wrappers w).next
  apList : ∀ g, (st'.pools g).apList = (st.pools g).apList
  fresh : ∀ a, st.allocated ≤ a → (st'.atomics a).waiting = (st.atomics a).waiting

/-- A store of the same shape extends. -/
theorem SameShape.extends {st st' : Store I K D} (h : st.SameShape st') :
    st.Extends st' :=
  Extends.of_eq h.allocated h.wrapped h.madeFor

theorem SameShape.trans {st1 st2 st3 : Store I K D} (h12 : st1.SameShape st2)
    (h23 : st2.SameShape st3) : st1.SameShape st3 where
  allocated := h23.allocated.trans h12.allocated
  wrapped := h23.wrapped.trans h12.wrapped
  madeFor := h23.madeFor.trans h12.madeFor
  maps g entry h := h12.maps g entry (h23.maps g entry h)
  pool w := (h23.pool w).trans (h12.pool w)
  next w := (h23.next w).trans (h12.next w)
  apList g := (h23.apList g).trans (h12.apList g)
  fresh a ha := (h23.fresh a (by rw [h12.allocated]; exact ha)).trans (h12.fresh a ha)

theorem SameShape.refl (st : Store I K D) : st.SameShape st where
  allocated := rfl
  wrapped := rfl
  madeFor := rfl
  maps _ _ h := h
  pool _ := rfl
  next _ := rfl
  apList _ := rfl
  fresh _ _ := rfl

/-- Writing an event keeps the shape. -/
theorem sameShape_setEvent (st : Store I K D) (e : EventId) (event : Event I K D) :
    st.SameShape (st.setEvent e event) :=
  { SameShape.refl st with }

/-- Writing a reference keeps the shape. -/
theorem sameShape_setHeld (st : Store I K D) (e : EventId) (i : Nat)
    (ha : HeldAtomic I K D) : st.SameShape (st.setHeld e i ha) :=
  sameShape_setEvent st e _

/-- Writing an allocated atomic keeps the shape. -/
theorem sameShape_setAtomic (st : Store I K D) (a : AtomicId) (atom : Atomic D)
    (h : st.allocated ≤ a → atom.waiting = (st.atomics a).waiting) :
    st.SameShape (st.setAtomic a atom) :=
  { SameShape.refl st with
    fresh := by
      intro b hb
      by_cases hba : b = a
      · subst hba
        simpa [setAtomic] using h hb
      · simp [setAtomic, hba] }

/-- Writing a wrapper with its links keeps the shape. -/
theorem sameShape_setWrapper (st : Store I K D) (w : PooledId) (wrapper : AtomicPooled D)
    (hpool : wrapper.pool = (st.wrappers w).pool)
    (hnext : wrapper.next = (st.wrappers w).next) :
    st.SameShape (st.setWrapper w wrapper) :=
  { SameShape.refl st with
    pool := by
      intro v
      by_cases hv : v = w
      · subst hv
        simpa [setWrapper] using hpool
      · simp [setWrapper, hv]
    next := by
      intro v
      by_cases hv : v = w
      · subst hv
        simpa [setWrapper] using hnext
      · simp [setWrapper, hv] }

/-- Writing a pool with its list keeps the shape. -/
theorem sameShape_setPool (st : Store I K D) (g : GuardId) (pool : AtomicPool D)
    (h : pool.apList = (st.pools g).apList) : st.SameShape (st.setPool g pool) :=
  { SameShape.refl st with
    apList := by
      intro f
      by_cases hf : f = g
      · subst hf
        simpa [setPool] using h
      · simp [setPool, hf] }

/-- Writing data keeps the shape. -/
theorem sameShape_setData (st : Store I K D) (p : AtomicPtr) (d : Option D) :
    st.SameShape (st.setData p d) := by
  cases p with
  | plain a => exact sameShape_setAtomic st a _ fun _ => Atomic.waiting_setData _ _
  | pooled w => exact sameShape_setWrapper st w _ rfl rfl

/-- A request changes no map and no wrapper list. -/
theorem sameShape_acquireAtomic {st : Store I K D} {p : AtomicPtr} (hp : st.Allocated p)
    (ev : EventId) (wtype : Nat) : st.SameShape (st.acquireAtomic p ev wtype).1 := by
  cases p with
  | plain a => exact sameShape_setAtomic st a _ fun h => absurd hp (Nat.not_lt.mpr h)
  | pooled w =>
      rw [acquireAtomic]
      cases hdq : (st.pools (st.wrappers w).pool).dq with
      | cons d rest =>
          refine (sameShape_setPool st _ _ ?_).trans (sameShape_setWrapper _ w _ ?_ ?_) <;> rfl
      | nil =>
          refine (sameShape_setPool st _ _ ?_).trans (sameShape_setWrapper _ w _ ?_ ?_) <;> rfl

/-! ## Operations keep stores well formed -/

namespace WellFormed

variable [Inhabited K] {guards : GuardId → Guard} {st st' : Store I K D}

/-- The same shape is well formed. -/
theorem of_sameShape (h : WellFormed guards st) (hs : st.SameShape st') :
    WellFormed guards st' where
  entry g k a hmem := by
    rw [hs.allocated, hs.madeFor]
    exact h.entry g k a (hs.maps g _ hmem)
  trivialAtom := by
    rw [hs.allocated, hs.madeFor]
    exact h.trivialAtom
  wrapper w hw := by
    rw [hs.madeFor, hs.pool w]
    exact h.wrapper w (by rwa [hs.wrapped] at hw)
  idle g w hidle := by
    rw [hs.wrapped, hs.pool w]
    exact h.idle g w ((hs.apList g).symm.trans hidle)
  next w v hw hnext := by
    rw [hs.wrapped, hs.pool v, hs.pool w]
    exact h.next w v (by rwa [hs.wrapped] at hw) ((hs.next w).symm.trans hnext)
  poolLike p hp := by
    rw [hs.madeFor]
    apply h.poolLike p
    cases p with
    | plain a => simpa [Allocated, hs.allocated] using hp
    | pooled w => simpa [Allocated, hs.wrapped] using hp
  fresh a ha := by
    rw [hs.allocated] at ha
    rw [hs.fresh a ha]
    exact h.fresh a ha

/-- The queue of an allocated atomic follows from the guard that it was made for. -/
theorem queueOf_eq (h : WellFormed guards st) {p : AtomicPtr} (hp : st.Allocated p) :
    st.queueOf p = queueFor p (st.madeFor p).1 := by
  cases p with
  | plain a => rfl
  | pooled w => simp [queueOf, queueFor, h.wrapper w hp]

/-- Atomics with one queue were made for one guard and key. -/
theorem madeFor_eq_of_queueOf_eq (h : WellFormed guards st) {p p' : AtomicPtr}
    (hp : st.Allocated p) (hp' : st.Allocated p') (heq : st.queueOf p = st.queueOf p') :
    st.madeFor p = st.madeFor p' := by
  cases p with
  | plain a =>
      cases p' with
      | plain b =>
          simp only [queueOf, Queue.atomic.injEq] at heq
          rw [heq]
      | pooled v => simp [queueOf] at heq
  | pooled w =>
      cases p' with
      | plain b => simp [queueOf] at heq
      | pooled v =>
          simp only [queueOf, Queue.pool.injEq] at heq
          rw [h.wrapper w hp, h.wrapper v hp', heq]

/-- An allocated atomic keeps its queue. -/
theorem queueOf_extends (h : WellFormed guards st) (h' : WellFormed guards st')
    (hext : st.Extends st') {p : AtomicPtr} (hp : st.Allocated p) :
    st'.queueOf p = st.queueOf p := by
  have hp' := hext p hp
  rw [h.queueOf_eq hp, h'.queueOf_eq hp'.1, hp'.2]

/-- Returning a wrapper keeps the store well formed. -/
theorem poolPut (h : WellFormed guards st) {w : PooledId} (hw : w < st.wrapped)
    (hput : st.poolPut w = .ok st') : WellFormed guards st' ∧ st.Extends st' := by
  simp only [Store.poolPut] at hput
  split at hput
  · split at hput
    · cases hput
    · cases hput
      refine ⟨⟨h.entry, h.trivialAtom, ?_, ?_, ?_, h.poolLike, h.fresh⟩,
        Extends.of_eq rfl rfl rfl⟩
      · intro v hv
        have hwrapper := h.wrapper v hv
        by_cases hvw : v = w
        · subst hvw
          simpa [setPool, setWrapper] using hwrapper
        · simpa [setPool, setWrapper, hvw] using hwrapper
      · intro g v hidle
        by_cases hg : g = (st.wrappers w).pool
        · subst hg
          simp [setPool, setWrapper] at hidle
          subst hidle
          exact ⟨hw, by simp [setPool, setWrapper]⟩
        · have hold := h.idle g v (by simpa [setPool, setWrapper, hg] using hidle)
          by_cases hvw : v = w
          · subst hvw
            exact absurd hold.2.symm hg
          · exact ⟨hold.1, by simpa [setPool, setWrapper, hvw] using hold.2⟩
      · intro u v hu hnext
        -- the wrapper put in front points to the idle list it found
        have hstep : v < st.wrapped ∧ (st.wrappers v).pool = (st.wrappers u).pool := by
          by_cases huw : u = w
          · subst huw
            simp [setPool, setWrapper] at hnext
            exact h.idle _ v hnext
          · simp [setPool, setWrapper, huw] at hnext
            exact h.next u v hu hnext
        refine ⟨hstep.1, ?_⟩
        by_cases hvw : v = w <;> by_cases huw : u = w <;>
          simp_all [setPool, setWrapper]
  · cases hput
    exact ⟨h, Extends.refl _⟩

/-- Taking a wrapper keeps the store well formed. -/
theorem poolGet (h : WellFormed guards st) {g : GuardId} {w : PooledId}
    (hg : (guards g).amap = .pool) (hget : st.poolGet g = .ok (st', w)) :
    WellFormed guards st' ∧ st.Extends st' ∧ w < st'.wrapped ∧
      st'.madeFor (.pooled w) = (g, default) := by
  simp only [Store.poolGet] at hget
  split at hget
  next v hidle =>
    split at hget
    · cases hget
    · cases hget
      have hw := h.idle g w hidle
      refine ⟨⟨h.entry, h.trivialAtom, ?_, ?_, ?_, h.poolLike, h.fresh⟩,
        Extends.of_eq rfl rfl rfl, hw.1, ?_⟩
      · intro v hv
        have hwrapper := h.wrapper v hv
        by_cases hvw : v = w
        · subst hvw
          simpa [setPool, setWrapper] using hwrapper
        · simpa [setPool, setWrapper, hvw] using hwrapper
      · intro f v hv
        have hold : v < st.wrapped ∧ (st.wrappers v).pool = f := by
          by_cases hf : f = g
          · subst hf
            simp [setPool, setWrapper] at hv
            have hnext := h.next w v hw.1 hv
            exact ⟨hnext.1, hnext.2.trans hw.2⟩
          · exact h.idle f v (by simpa [setPool, setWrapper, hf] using hv)
        refine ⟨hold.1, ?_⟩
        by_cases hvw : v = w
        · subst hvw
          simpa [setPool, setWrapper] using hold.2
        · simpa [setPool, setWrapper, hvw] using hold.2
      · intro u v hu hnext
        by_cases huw : u = w
        · subst huw
          simp [setPool, setWrapper] at hnext
        · simp [setPool, setWrapper, huw] at hnext
          have hold := h.next u v hu hnext
          refine ⟨hold.1, ?_⟩
          by_cases hvw : v = w <;> simp_all [setPool, setWrapper]
      · have hwrapper := h.wrapper w hw.1
        rw [hw.2] at hwrapper
        exact hwrapper
  · cases hget
    refine ⟨⟨?_, ?_, ?_, ?_, ?_, ?_, h.fresh⟩, ?_, Nat.lt_succ_self _, by simp⟩
    · intro f k a hmem
      simpa [setWrapper] using h.entry f k a hmem
    · intro f a hf
      simpa [setWrapper] using h.trivialAtom f a hf
    · intro v hv
      by_cases hvw : v = st.wrapped
      · subst hvw
        simp [setWrapper]
      · have hlt : v < st.wrapped := Nat.lt_of_le_of_ne (Nat.lt_succ_iff.mp hv) hvw
        simpa [setWrapper, hvw] using h.wrapper v hlt
    · intro f v hidle
      have hold := h.idle f v hidle
      exact ⟨Nat.lt_succ_of_lt hold.1, by
        simpa [setWrapper, Nat.ne_of_lt hold.1] using hold.2⟩
    · intro u v hu hnext
      by_cases huw : u = st.wrapped
      · subst huw
        simp [setWrapper] at hnext
      · have hlt : u < st.wrapped := Nat.lt_of_le_of_ne (Nat.lt_succ_iff.mp hu) huw
        have hold := h.next u v hlt (by simpa [setWrapper, huw] using hnext)
        exact ⟨Nat.lt_succ_of_lt hold.1, by
          simpa [setWrapper, huw, Nat.ne_of_lt hold.1] using hold.2⟩
    · intro p hp
      by_cases hpw : p = .pooled st.wrapped
      · subst hpw
        simp [AtomicPtr.isPoolLike, hg]
      · have hallocated : st.Allocated p := by
          cases p with
          | plain a => exact hp
          | pooled v =>
              have hne : v ≠ st.wrapped := fun hv => hpw (by rw [hv])
              exact Nat.lt_of_le_of_ne (Nat.lt_succ_iff.mp hp) hne
        simpa [hpw] using h.poolLike p hallocated
    · intro p hp
      cases p with
      | plain a => exact ⟨hp, by simp⟩
      | pooled v =>
          have hne : v ≠ st.wrapped := Nat.ne_of_lt hp
          exact ⟨Nat.lt_succ_of_lt hp, by simp [hne]⟩

/-- A new atomic keeps the store well formed. -/
theorem newAtomic (h : WellFormed guards st) {g : GuardId} {cls : AtomicClass} (key : K)
    (hg : (guards g).amap = .std cls) :
    WellFormed guards (st.newAtomic g cls key) ∧
      st.Extends (st.newAtomic g cls key) := by
  refine ⟨⟨?_, ?_, ?_, h.idle, h.next, ?_, ?_⟩, ?_⟩
  · intro f k a hmem
    by_cases hf : f = g
    · subst hf
      simp [Store.newAtomic, setMap, setAtomic] at hmem
      rcases hmem with ⟨rfl, rfl⟩ | hmem
      · simp [Store.newAtomic]
      · have hold := h.entry f k a hmem
        exact ⟨Nat.lt_succ_of_lt hold.1, by
          simpa [Store.newAtomic, Nat.ne_of_lt hold.1] using hold.2⟩
    · have hold := h.entry f k a (by simpa [Store.newAtomic, setMap, setAtomic, hf] using hmem)
      exact ⟨Nat.lt_succ_of_lt hold.1, by
        simpa [Store.newAtomic, Nat.ne_of_lt hold.1] using hold.2⟩
  · intro f a hf
    have hold := h.trivialAtom f a hf
    exact ⟨Nat.lt_succ_of_lt hold.1, by
      simpa [Store.newAtomic, Nat.ne_of_lt hold.1] using hold.2⟩
  · intro w hw
    simpa [Store.newAtomic, setMap, setAtomic] using h.wrapper w hw
  · intro p hp
    by_cases hpa : p = .plain st.allocated
    · subst hpa
      simp [Store.newAtomic, AtomicPtr.isPoolLike, hg]
    · have hallocated : st.Allocated p := by
        cases p with
        | plain a =>
            have hne : a ≠ st.allocated := fun ha => hpa (by rw [ha])
            exact Nat.lt_of_le_of_ne (Nat.lt_succ_iff.mp hp) hne
        | pooled w => exact hp
      simpa [Store.newAtomic, hpa] using h.poolLike p hallocated
  · intro a ha
    have hlt : st.allocated < a := ha
    simpa [Store.newAtomic, setMap, setAtomic, Nat.ne_of_gt hlt] using h.fresh a (Nat.le_of_lt hlt)
  · intro p hp
    cases p with
    | plain a =>
        have hne : a ≠ st.allocated := Nat.ne_of_lt hp
        exact ⟨Nat.lt_succ_of_lt hp, by simp [Store.newAtomic, hne]⟩
    | pooled w => exact ⟨hp, by simp [Store.newAtomic]⟩

/-- The atomic that a guard gives for a key was made for that guard, and the key that
comes back is the one it was made for. -/
theorem getAtomic [LinearOrder K] (h : WellFormed guards st) {g : GuardId} {key key' : K}
    {p : AtomicPtr} (hget : st.getAtomic guards g key = .ok (st', p, key')) :
    WellFormed guards st' ∧ st.Extends st' ∧ st'.Allocated p ∧
      st'.madeFor p = (g, key') := by
  simp only [Store.getAtomic] at hget
  split at hget
  next a ha =>
    cases hget
    have htrivial := h.trivialAtom g a ha
    exact ⟨h, Extends.refl _, htrivial.1, htrivial.2⟩
  next cls hcls =>
    split at hget
    next a hlookup =>
      cases hget
      rcases List.lookup_eq_some_iff.mp hlookup with ⟨front, rest, hsplit, _⟩
      have hentry := h.entry g key a (by rw [hsplit]; simp)
      exact ⟨h, Extends.refl _, hentry.1, hentry.2⟩
    next =>
      cases hget
      have hnew := h.newAtomic key hcls
      exact ⟨hnew.1, hnew.2, Nat.lt_succ_self _, by simp [Store.newAtomic]⟩
  next hpool =>
    cases hres : st.poolGet g with
    | error err =>
        rw [hres] at hget
        cases hget
    | ok result =>
        rw [hres] at hget
        cases hget
        exact h.poolGet hpool hres

/-- Releasing an atomic keeps the store well formed. -/
theorem releaseAtomic (h : WellFormed guards st) {p : AtomicPtr} {evs : List EventId}
    (hp : st.Allocated p) (hrelease : st.releaseAtomic p = .ok (st', evs)) :
    WellFormed guards st' ∧ st.Extends st' := by
  cases p with
  | plain a =>
      cases hrelease
      have hs := sameShape_setAtomic st a (st.atomics a).release.1
        fun ha => absurd hp (Nat.not_lt.mpr ha)
      exact ⟨h.of_sameShape hs, hs.extends⟩
  | pooled w =>
      simp only [Store.releaseAtomic, releasePooled] at hrelease
      split at hrelease
      · split at hrelease
        · cases hrelease
        · cases hrelease
          next rest hq _ q hq' =>
            have hs := ((sameShape_setPool st (st.wrappers w).pool
                { st.pools (st.wrappers w).pool with q := rest } rfl).trans
              (sameShape_setData _ q (st.wrappers w).data)).trans
              (sameShape_setWrapper _ w { (Store.setData (st.setPool (st.wrappers w).pool
                { st.pools (st.wrappers w).pool with q := rest }) q
                  (st.wrappers w).data).wrappers w with data := none } rfl rfl)
            exact ⟨h.of_sameShape hs, hs.extends⟩
      · have hs := (sameShape_setPool st (st.wrappers w).pool
            { st.pools (st.wrappers w).pool with
              dq := (st.pools (st.wrappers w).pool).dq ++ (st.wrappers w).data.toList }
            rfl).trans
          (sameShape_setWrapper _ w { st.wrappers w with data := none } rfl rfl)
        cases hput : Store.poolPut ((st.setPool (st.wrappers w).pool
            { st.pools (st.wrappers w).pool with
              dq := (st.pools (st.wrappers w).pool).dq ++ (st.wrappers w).data.toList }).setWrapper
            w { st.wrappers w with data := none }) w with
        | error err =>
            rw [hput] at hrelease
            cases hrelease
        | ok st1 =>
            rw [hput] at hrelease
            cases hrelease
            have hkeep := (h.of_sameShape hs).poolPut hp hput
            exact ⟨hkeep.1, hs.extends.trans hkeep.2⟩

/-- Giving an atomic up keeps the store well formed. -/
theorem relinquish (h : WellFormed guards st) {p : AtomicPtr} {should : Bool}
    (hp : st.Allocated p) (hrelinquish : st.relinquish p should = .ok st') :
    WellFormed guards st' ∧ st.Extends st' := by
  cases p with
  | plain a =>
      cases hrelinquish
      exact ⟨h, Extends.refl _⟩
  | pooled w =>
      cases should with
      | false =>
          cases hrelinquish
          exact ⟨h, Extends.refl _⟩
      | true =>
          have hs := (sameShape_setPool st (st.wrappers w).pool
              { st.pools (st.wrappers w).pool with
                dq := (st.pools (st.wrappers w).pool).dq ++ (st.wrappers w).data.toList }
              rfl).trans
            (sameShape_setWrapper _ w { st.wrappers w with data := none } rfl rfl)
          have hkeep := (h.of_sameShape hs).poolPut hp hrelinquish
          exact ⟨hkeep.1, hs.extends.trans hkeep.2⟩

end WellFormed

end Store
end Guards
end OFlux
