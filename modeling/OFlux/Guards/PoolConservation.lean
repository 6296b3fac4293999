import OFlux.Guards.PoolInvariant

/-!
# The conservation of the resources of a pool

A holder that releases gives its resource to the event that has waited longest, or back
to the pool, and its wrapper becomes idle.  The steps are those of the whole system of
events, in any order; only the executing events leave the data pointers of the wrappers
as they find them.

Main results:

- Theorem {lit}`PoolInvariant.releaseAt`: what one turn of a release keeps of a pool.
- Theorem {lit}`pool_conserves`: every resource is in the pool or with exactly one
  event, the idle wrappers form a list without data or owner, and no event waits beside a
  resource that is there.
-/

namespace OFlux
namespace Guards

open Library

variable {I K D : Type}

namespace Store

variable {st st' : Store I K D} {g : GuardId} {filled : List D} {idle : List PooledId}

/-! ## Where a release leaves the pools alone -/

/-- Only events, atomics and maps may differ. -/
structure SamePools (st st' : Store I K D) : Prop where
  pools : st'.pools = st.pools
  wrapped : st'.wrapped = st.wrapped
  wrappers : st'.wrappers = st.wrappers

theorem SamePools.refl (st : Store I K D) : st.SamePools st :=
  ⟨rfl, rfl, rfl⟩

theorem SamePools.trans {st'' : Store I K D} (h : st.SamePools st') (h' : st'.SamePools st'') :
    st.SamePools st'' :=
  ⟨h'.pools.trans h.pools, h'.wrapped.trans h.wrapped, h'.wrappers.trans h.wrappers⟩

/-- Writing an atomic keeps the pools. -/
theorem samePools_setAtomic (st : Store I K D) (a : AtomicId) (atom : Atomic D) :
    st.SamePools (st.setAtomic a atom) :=
  ⟨rfl, rfl, rfl⟩

/-- Writing a reference keeps the pools. -/
theorem samePools_setHeld (st : Store I K D) (e : EventId) (i : Nat) (ha : HeldAtomic I K D) :
    st.SamePools (st.setHeld e i ha) :=
  ⟨rfl, rfl, rfl⟩

/-- One pool and its wrappers are the same; the references may differ. -/
structure KeepsPool (st st' : Store I K D) (g : GuardId) : Prop where
  pools : st'.pools g = st.pools g
  owned : ∀ w, st'.Owned g w ↔ st.Owned g w
  wrappers : ∀ w, st.Owned g w → st'.wrappers w = st.wrappers w

theorem KeepsPool.trans {st'' : Store I K D} (h : st.KeepsPool st' g)
    (h' : st'.KeepsPool st'' g) : st.KeepsPool st'' g where
  pools := h'.pools.trans h.pools
  owned w := (h'.owned w).trans (h.owned w)
  wrappers w hw := (h'.wrappers w ((h.owned w).mpr hw)).trans (h.wrappers w hw)

/-- The same pools keep each pool. -/
theorem SamePools.keepsPool (h : st.SamePools st') (g : GuardId) : st.KeepsPool st' g := by
  refine ⟨by rw [h.pools], fun w => ?_, fun w _ => by rw [h.wrappers]⟩
  rw [Owned, Owned, h.wrapped, h.wrappers]

/-- Writing another pool keeps this one. -/
theorem keepsPool_setPool {f : GuardId} (hf : f ≠ g) (pool : AtomicPool D) :
    st.KeepsPool (st.setPool f pool) g :=
  ⟨by simp [Ne.symm hf], fun _ => Iff.rfl, fun _ _ => rfl⟩

/-- Writing a wrapper of another pool keeps this one. -/
theorem keepsPool_setWrapper {w : PooledId} {wrapper : AtomicPooled D}
    (hold : (st.wrappers w).pool ≠ g) (hpool : wrapper.pool = (st.wrappers w).pool) :
    st.KeepsPool (st.setWrapper w wrapper) g := by
  refine ⟨rfl, fun v => ?_, fun v hv => ?_⟩
  · by_cases hv : v = w <;> simp [Owned, hv, hpool]
  · have hne : v ≠ w := fun heq => hold (by rw [← heq]; exact hv.2)
    simp [hne]

/-- Returning a wrapper to another pool keeps this one. -/
theorem keepsPool_poolPut {w : PooledId} (hw : (st.wrappers w).pool ≠ g)
    (h : st.poolPut w = .ok st') : st.KeepsPool st' g := by
  simp only [poolPut] at h
  split at h
  · split at h
    · cases h
    · cases h
      exact (keepsPool_setWrapper hw (by rfl)).trans (keepsPool_setPool hw _)
  · cases h
    exact (SamePools.refl st).keepsPool g

/-- A wrapper without data goes back into another pool. -/
theorem keepsPool_poolPut_setPool {w : PooledId} {pool : AtomicPool D}
    (hw : (st.wrappers w).pool ≠ g)
    (h : ((st.setPool (st.wrappers w).pool pool).setWrapper w
      { st.wrappers w with data := none }).poolPut w = .ok st') : st.KeepsPool st' g := by
  have hempty : (st.setPool (st.wrappers w).pool pool).KeepsPool ((st.setPool
      (st.wrappers w).pool pool).setWrapper w { st.wrappers w with data := none }) g :=
    keepsPool_setWrapper (by exact hw) rfl
  refine ((keepsPool_setPool hw pool).trans hempty).trans (keepsPool_poolPut ?_ h)
  simpa using hw

/-- Writing data of another pool keeps this one. -/
theorem keepsPool_setData {p : AtomicPtr} (hp : ∀ w, p = .pooled w → (st.wrappers w).pool ≠ g)
    (d : Option D) : st.KeepsPool (st.setData p d) g := by
  cases p with
  | plain a => exact ⟨rfl, fun _ => Iff.rfl, fun _ _ => rfl⟩
  | pooled w => exact keepsPool_setWrapper (hp w rfl) (by rfl)

variable [LinearOrder K] {guards : GuardId → Guard} {e : EventId} {i : Nat}
  {ha : HeldAtomic I K D} {p : AtomicPtr}

/-- Handing a reference over keeps the pools. -/
theorem samePools_handOver {rel : EventId} (h : st.handOver guards e ha p rel = .ok st') :
    st.SamePools st' := by
  simp only [handOver] at h
  split at h
  · cases h
  · split at h
    · cases h
    · split at h
      · split at h
        · cases h
          exact ⟨rfl, rfl, rfl⟩
        · cases h
      · cases h
        exact ⟨rfl, rfl, rfl⟩

/-- Handing references over keeps the pools. -/
theorem samePools_handOverAll {released : List EventId}
    (h : st.handOverAll guards e ha p released = .ok st') : st.SamePools st' := by
  induction released generalizing st with
  | nil =>
      cases h
      exact SamePools.refl _
  | cons rel rest ih =>
      simp only [handOverAll] at h
      split at h
      · cases h
      next st1 hstep => exact (samePools_handOver hstep).trans (ih h)

/-- Collecting an atomic keeps the pools. -/
theorem samePools_collect {released : List EventId}
    (h : st.collect guards ha p released = .ok (some st')) : st.SamePools st' := by
  simp only [collect] at h
  split at h
  · simp only [garbageCollect] at h
    repeat' split at h
    all_goals cases h
    exact ⟨rfl, rfl, rfl⟩
  · cases h

section Others

variable [Inhabited K]

omit [LinearOrder K] in
/-- Releasing something else keeps the pool. -/
theorem keepsPool_releaseAtomic {released : List EventId} (hc : Consistent guards st)
    (hp : ∀ w, p = .pooled w → (st.wrappers w).pool ≠ g)
    (h : st.releaseAtomic p = .ok (st', released)) : st.KeepsPool st' g := by
  cases p with
  | plain a =>
      cases h
      exact (samePools_setAtomic st a _).keepsPool g
  | pooled w =>
      have hw := hp w rfl
      simp only [releaseAtomic, releasePooled] at h
      split at h
      next ev rest hq =>
        split at h
        · cases h
        next p' hp' =>
          cases h
          -- the event waits for the same pool
          have hmem : ev ∈ st.queue (.pool (st.wrappers w).pool) := by
            rw [queue, hq]
            exact List.mem_cons_self
          obtain ⟨ha', p'', hha', hp'', -, hqueue⟩ := hc.waiting _ ev hmem
          have hsame : p'' = p' := by
            rw [hha', Option.bind_some, hp''] at hp'
            exact Option.some_injective _ hp'
          subst hsame
          have hother : ∀ v, p'' = .pooled v → (st.wrappers v).pool ≠ g := by
            intro v hv
            rw [hv] at hqueue
            simp only [queueOf, Queue.pool.injEq] at hqueue
            rw [hqueue]
            exact hw
          refine ((keepsPool_setPool hw _).trans (keepsPool_setData (by exact hother) _)).trans
            (keepsPool_setWrapper ?_ rfl)
          rw [(sameShape_setData _ _ _).pool]
          exact hw
      · cases hput : ((st.setPool (st.wrappers w).pool
            { st.pools (st.wrappers w).pool with
              dq := (st.pools (st.wrappers w).pool).dq ++ (st.wrappers w).data.toList }).setWrapper
            w { st.wrappers w with data := none }).poolPut w with
        | error err =>
            rw [hput] at h
            cases h
        | ok st1 =>
            rw [hput] at h
            cases h
            exact keepsPool_poolPut_setPool hw hput

omit [LinearOrder K] [Inhabited K] in
/-- Giving up something else keeps the pool. -/
theorem keepsPool_relinquish {should : Bool}
    (hp : ∀ w, p = .pooled w → (st.wrappers w).pool ≠ g)
    (h : st.relinquish p should = .ok st') : st.KeepsPool st' g := by
  cases p with
  | plain a =>
      cases h
      exact (SamePools.refl _).keepsPool g
  | pooled w =>
      have hw := hp w rfl
      cases should with
      | false =>
          cases h
          exact (SamePools.refl _).keepsPool g
      | true => exact keepsPool_poolPut_setPool hw h

/-- A release of an atomic that is no wrapper of the pool. -/
theorem keepsPool_releaseAt {released : List EventId} (hc : Consistent guards st)
    (hother : ∀ ha w, (st.events e).holders[i]? = some ha → ha.atom = some (.pooled w) →
      (st.wrappers w).pool ≠ g)
    (h : st.releaseAt guards e i = .ok (st', released)) : st.KeepsPool st' g := by
  rcases releaseAt_cases h with
    ⟨-, rfl, -⟩ | ⟨ha, p, st1, st2, hha, -, hp, hrelease, hhand, hend⟩
  · exact (SamePools.refl _).keepsPool g
  · have hallocated := (hc.referred e ha (List.mem_of_getElem? hha) p hp).1
    have hp' : ∀ w, p = .pooled w → (st.wrappers w).pool ≠ g :=
      fun w hw => hother ha w hha (by rw [hp, hw])
    have hkeep1 := keepsPool_releaseAtomic hc hp' hrelease
    have hsame2 := samePools_handOverAll hhand
    have hkeep2 := hkeep1.trans (hsame2.keepsPool g)
    rcases hend with ⟨st3, hcollect, rfl⟩ | ⟨-, hrelinquish⟩
    · have hcollected := (samePools_collect hcollect).trans (samePools_setHeld st3 e i
        { ha with atom := none, key := none })
      exact hkeep2.trans (hcollected.keepsPool g)
    · have hset := samePools_setHeld st2 e i { ha with atom := none }
      refine (hkeep2.trans (hset.keepsPool g)).trans (keepsPool_relinquish ?_ hrelinquish)
      intro w hw hpool
      subst hw
      have hlt : w < st.wrapped := hallocated
      have hwf1 := hc.wellFormed.releaseAtomic hallocated hrelease
      have howned : st2.Owned g w := by
        refine ⟨?_, hpool⟩
        rw [hsame2.wrapped]
        exact (hwf1.2 _ hallocated).1
      exact hp' w rfl ((hkeep2.owned w).mp howned).2

end Others

/-! ## The release of a wrapper -/

omit [LinearOrder K] in
/-- A wrapper that is not idle becomes the first one of the idle list. -/
theorem poolPut_eq {w : PooledId} (hnext : (st.wrappers w).next = none)
    (hlast : (st.pools (st.wrappers w).pool).apLast ≠ some w) (h : st.poolPut w = .ok st') :
    st' = (st.setWrapper w { st.wrappers w with
        next := (st.pools (st.wrappers w).pool).apList }).setPool (st.wrappers w).pool
      { st.pools (st.wrappers w).pool with
        apLast := if (st.pools (st.wrappers w).pool).apList.isNone then some w
          else (st.pools (st.wrappers w).pool).apLast,
        apList := some w } := by
  simp only [poolPut, hnext, true_and] at h
  rw [if_pos hlast] at h
  split at h
  · cases h
  · cases h
    rfl

/-- The wrapper {lit}`w` goes back into its pool, whose queues become {lit}`q` and
{lit}`dq`. -/
structure PutBack (st st' : Store I K D) (g : GuardId) (w : PooledId) (q : List EventId)
    (dq : List D) : Prop where
  pool : st'.pools g = {
    q := q, dq := dq, apList := some w,
    apLast := if (st.pools g).apList.isNone then some w else (st.pools g).apLast }
  wrapped : st'.wrapped = st.wrapped
  wrapper : st'.wrappers w = { data := none, pool := g, next := (st.pools g).apList }

omit [LinearOrder K] in
/-- A wrapper returned is put back at the end. -/
theorem PutBack.of_poolPut {w : PooledId} {dq : List D} (hg : (st.wrappers w).pool = g)
    (hnext : (st.wrappers w).next = none) (hlast : (st.pools g).apLast ≠ some w)
    (h : ((st.setPool g { st.pools g with dq := dq }).setWrapper w
      { st.wrappers w with data := none }).poolPut w = .ok st') :
    st.PutBack st' g w (st.pools g).q dq ∧ ∀ v, v ≠ w → st'.wrappers v = st.wrappers v := by
  subst hg
  have heq := poolPut_eq (by simpa using hnext) (by simpa using hlast) h
  subst heq
  refine ⟨⟨?_, ?_, ?_⟩, fun v hv => ?_⟩
  · simp
  · simp
  · simp
  · simp [hv]

section Release

variable [Inhabited K]

/-- What a release does with a wrapper of the pool: the resource is back in the pool, or
with the event at the front of the queue. -/
theorem releaseAt_pooled {w : PooledId} {released : List EventId} (hc : Consistent guards st)
    (hha : (st.events e).holders[i]? = some ha) (hp : ha.atom = some (.pooled w))
    (hhave : ha.haveit = true) (hg : (st.wrappers w).pool = g)
    (hnext : (st.wrappers w).next = none) (hlast : (st.pools g).apLast ≠ some w)
    (h : st.releaseAt guards e i = .ok (st', released)) :
    ((st.pools g).q = [] ∧
        st.PutBack st' g w [] ((st.pools g).dq ++ (st.wrappers w).data.toList) ∧
        released = [] ∧ ∀ v, v ≠ w → st'.wrappers v = st.wrappers v) ∨
      ∃ x rest u rel, (st.pools g).q = x :: rest ∧
        (st.events x).holders[(st.events x).workingOn]? = some rel ∧
        rel.atom = some (.pooled u) ∧ (u ≠ w → st.PutBack st' g w rest (st.pools g).dq ∧
        released = [x] ∧ st'.wrappers u = { st.wrappers u with data := (st.wrappers w).data } ∧
        ∀ v, v ≠ w → v ≠ u → st'.wrappers v = st.wrappers v) := by
  have hallocated := hc.referred e ha (List.mem_of_getElem? hha) _ hp
  have hpool : (guards ha.ref.guard).amap = .pool := by
    have hlike := (hc.wellFormed.poolLike _ hallocated.1).mp rfl
    rwa [hallocated.2.1] at hlike
  have hcollects : ∀ st2 : Store I K D, st2.collect guards ha (.pooled w) released = .ok none := by
    intro st2
    simp only [collect, garbageCollect, hpool]
    split <;> rfl
  rcases releaseAt_cases h with
    ⟨hnone, -⟩ | ⟨ha', p, st1, st2, hha', -, hp', hrelease, hhand, hend⟩
  · rw [hnone ha hha hhave] at hp
    cases hp
  · cases hha.symm.trans hha'
    cases hp.symm.trans hp'
    rw [hcollects st2] at hend
    simp only [Except.ok.injEq, reduceCtorEq, false_and, exists_false, true_and, false_or] at hend
    simp only [releaseAtomic, releasePooled, hg] at hrelease
    split at hrelease
    next x rest hq =>
      split at hrelease
      · cases hrelease
      next p' hwaiter =>
        cases hrelease
        -- the waiting event refers to a wrapper of the pool, too
        have hmem : x ∈ st.queue (.pool g) := by
          rw [queue, hq]
          exact List.mem_cons_self
        obtain ⟨rel, p, hrel, hrelp, -, hqueue⟩ := hc.waiting _ x hmem
        rw [hrel, Option.bind_some, hrelp] at hwaiter
        cases hwaiter
        cases p' with
        | plain a => simp [queueOf] at hqueue
        | pooled u =>
            simp only [queueOf, Queue.pool.injEq] at hqueue
            refine Or.inr ⟨x, rest, u, rel, hq, hrel, hrelp, fun hne => ?_⟩
            have hsame := samePools_handOverAll hhand
            have hset := hsame.trans (samePools_setHeld st2 e i { ha with atom := none })
            generalize st2.setHeld e i { ha with atom := none } = st3 at hend hset
            have hwrappers : ∀ v, st3.wrappers v =
                if v = w then { st.wrappers w with data := none }
                else if v = u then { st.wrappers u with data := (st.wrappers w).data }
                else st.wrappers v := by
              intro v
              simp [hset.wrappers, setData, Ne.symm hne]
            have hpools : st3.pools g = { st.pools g with q := rest } := by
              simp [hset.pools, setData]
            have hwrapped : st3.wrapped = st.wrapped := by simp [hset.wrapped, setData]
            have hw3 : st3.wrappers w = { st.wrappers w with data := none } := by
              simp [hwrappers]
            have hput : ((st3.setPool g { st3.pools g with dq := (st3.pools g).dq }).setWrapper w
                { st3.wrappers w with data := none }).poolPut w = .ok st' := by
              simpa [relinquish, hw3, hg] using hend
            have hback := PutBack.of_poolPut (by simp [hw3, hg]) (by simp [hw3, hnext])
              (by simpa [hpools] using hlast) hput
            refine ⟨⟨?_, ?_, ?_⟩, rfl, ?_, fun v hvw hvu => ?_⟩
            · rw [hback.1.pool, hpools]
            · rw [hback.1.wrapped, hwrapped]
            · rw [hback.1.wrapper, hpools]
            · rw [hback.2 u hne, hwrappers u]
              simp [hne]
            · rw [hback.2 v hvw, hwrappers v]
              simp [hvw, hvu]
    next hq =>
      cases hput : ((st.setPool g { st.pools g with
          dq := (st.pools g).dq ++ (st.wrappers w).data.toList }).setWrapper
          w { st.wrappers w with data := none, pool := g }).poolPut w with
      | error err =>
          rw [hput] at hrelease
          cases hrelease
      | ok st0 =>
          rw [hput] at hrelease
          cases hrelease
          have hwrapper : ({ st.wrappers w with data := none, pool := g } : AtomicPooled D) =
              { st.wrappers w with data := none } := by simp [hg]
          rw [hwrapper] at hput
          obtain ⟨hback, hothers⟩ := PutBack.of_poolPut hg hnext hlast hput
          have hset := (samePools_handOverAll hhand).trans
            (samePools_setHeld st2 e i { ha with atom := none })
          have hst' : st' = st2.setHeld e i { ha with atom := none } := by
            cases hend
            rfl
          rw [hst']
          rw [hq] at hback
          refine Or.inl ⟨hq, ⟨?_, ?_, ?_⟩, rfl, fun v hv => ?_⟩
          · rw [hset.pools, hback.pool]
          · rw [hset.wrapped, hback.wrapped]
          · rw [hset.wrappers, hback.wrapper]
          · rw [hset.wrappers, hothers v hv]

end Release

omit [LinearOrder K] in
/-- Putting a wrapper back changes no owner. -/
theorem owned_of_putBack {w : PooledId} (hg : st.Owned g w) {q : List EventId} {dq : List D}
    (hback : st.PutBack st' g w q dq)
    (hothers : ∀ v, v ≠ w → (st'.wrappers v).pool = (st.wrappers v).pool) (v : PooledId) :
    st'.Owned g v ↔ st.Owned g v := by
  rw [Owned, Owned, hback.wrapped]
  by_cases hv : v = w
  · subst hv
    simp [hback.wrapper, hg.2]
  · rw [hothers v hv]

namespace PoolInvariant

variable [DecidableEq D] {w : PooledId} {ha' : HeldAtomic I K D}

omit [LinearOrder K] in
/-- The resource of a holder goes back into the queue of the pool. -/
theorem giveBack (h : st.PoolInvariant g filled idle)
    (hha : (st.events e).holders[i]? = some ha) (hp : ha.atom = some (.pooled w))
    (hw : st.Owned g w) (hhave : ha.haveit = true)
    (hback : st.PutBack st' g w [] ((st.pools g).dq ++ (st.wrappers w).data.toList))
    (hwrappers : ∀ v, v ≠ w → st'.wrappers v = st.wrappers v)
    (hevent : (st'.events e).holders = (st.events e).holders.set i ha') (hatom : ha'.atom = none)
    (hothers : ∀ x, x ≠ e → st'.events x = st.events x) :
    st'.PoolInvariant g filled (w :: idle) := by
  have howned := owned_of_putBack hw hback fun v hv => by rw [hwrappers v hv]
  obtain ⟨others, hold, hnew⟩ := tickets_of_set (g := g) hha
  have hset := hnew st' ha' howned hevent
  rw [ticket_eq_some hp hw, Option.toList_some, hhave, List.singleton_append] at hold
  rw [ticket_eq_none hatom, Option.toList_none, List.nil_append] at hset
  have hmem : (w, true) ∈ st.tickets g e := hold.mem_iff.mpr List.mem_cons_self
  have hidle : w ∉ idle := h.not_mem_idle hmem
  have hsame : ∀ x, x ≠ e → st'.tickets g x = st.tickets g x := fun x hx =>
    tickets_of_events_eq howned (by rw [hothers x hx])
  obtain ⟨d, hd⟩ := Option.isSome_iff_exists.mp (h.heldData e _ hmem)
  refine ⟨h.toIdleWrappers.put (e := e) hidle (by rw [hback.pool]) (by rw [hback.pool]) howned
    (fun v hv => ?_) hw ?_ fun x hx => by rw [hsame x hx], fun v hv => ?_, fun x t ht => ?_,
    fun hq => ?_, ?_⟩
  · by_cases hvw : v = w
    · subst hvw
      simp [hback.wrapper]
    · simp [hwrappers v hvw, hvw]
  · exact (hold.map Prod.fst).trans ((hset.map Prod.fst).symm.cons w)
  · rcases List.mem_cons.mp hv with rfl | hv
    · rw [hback.wrapper]
    · have hne : v ≠ w := fun heq => hidle (heq ▸ hv)
      rw [hwrappers v hne]
      exact h.idleData v hv
  · have hkept : t ∈ st.tickets g x ∧ t.1 ≠ w := by
      by_cases hx : x = e
      · subst hx
        have hother := hset.mem_iff.mp ht
        exact ⟨hold.mem_iff.mpr (List.mem_cons_of_mem _ hother), h.not_mem_others hold t hother⟩
      · rw [hsame x hx] at ht
        exact ⟨ht, fun heq => hx (h.event_unique ht hmem heq)⟩
    rw [hwrappers t.1 hkept.2]
    exact h.heldData x t hkept.1
  · rw [hback.pool] at hq
    exact absurd rfl hq
  · obtain ⟨place, hlocated, hplace⟩ := h.resources
    have hat : place d = some (.wrapper w) := hlocated.mem_iff.mp (by simp [Store.resources, hw, hd])
    refine ⟨_, hlocated.move (x := d) (p := .wrapper w) (q := .queue) (by simp) ?_ ?_
      fun r hr hrq => ?_, fun d' => ?_⟩
    · simp [Store.resources, hw, hd, (howned w).mpr hw, hback.wrapper]
    · simp only [Store.resources, hback.pool, hd, Option.toList_some]
      exact List.perm_append_singleton d _
    · cases r with
      | queue => exact absurd rfl hrq
      | wrapper v =>
          have hne : v ≠ w := fun heq => hr (by rw [heq])
          simp [Store.resources, howned v, hwrappers v hne]
    · rw [← hplace d']
      by_cases hd' : d' = d <;> simp [hd', hat]

omit [LinearOrder K] in
/-- The resource of a holder goes to the event at the front of the queue. -/
theorem handTo (h : st.PoolInvariant g filled idle)
    (hha : (st.events e).holders[i]? = some ha) (hp : ha.atom = some (.pooled w))
    (hw : st.Owned g w) (hhave : ha.haveit = true) {x : EventId} {rest : List EventId}
    {j : Nat} {rel : HeldAtomic I K D} {u : PooledId} (hq : (st.pools g).q = x :: rest)
    (hxe : x ≠ e) (hrel : (st.events x).holders[j]? = some rel)
    (hrelp : rel.atom = some (.pooled u)) (hu : st.Owned g u) (hfree : rel.haveit = false)
    (hback : st.PutBack st' g w rest (st.pools g).dq)
    (htaken : st'.wrappers u = { st.wrappers u with data := (st.wrappers w).data })
    (hwrappers : ∀ v, v ≠ w → v ≠ u → st'.wrappers v = st.wrappers v)
    (hevent : (st'.events e).holders = (st.events e).holders.set i ha') (hatom : ha'.atom = none)
    (hwaiter : (st'.events x).holders = (st.events x).holders.set j { rel with haveit := true })
    (hothers : ∀ y, y ≠ e → y ≠ x → st'.events y = st.events y) :
    st'.PoolInvariant g filled (w :: idle) := by
  have hpoolOf : ∀ v, v ≠ w → (st'.wrappers v).pool = (st.wrappers v).pool := by
    intro v hv
    by_cases hvu : v = u
    · subst hvu
      rw [htaken]
    · rw [hwrappers v hv hvu]
  have howned := owned_of_putBack hw hback hpoolOf
  obtain ⟨others, hold, hnew⟩ := tickets_of_set (g := g) hha
  have hset := hnew st' ha' howned hevent
  rw [ticket_eq_some hp hw, Option.toList_some, hhave, List.singleton_append] at hold
  rw [ticket_eq_none hatom, Option.toList_none, List.nil_append] at hset
  obtain ⟨others', hold', hnew'⟩ := tickets_of_set (g := g) hrel
  have hset' := hnew' st' _ howned hwaiter
  rw [ticket_eq_some hrelp hu, Option.toList_some, hfree, List.singleton_append] at hold'
  rw [ticket_eq_some (by exact hrelp) hu, Option.toList_some, List.singleton_append] at hset'
  have hmem : (w, true) ∈ st.tickets g e := hold.mem_iff.mpr List.mem_cons_self
  have hmem' : (u, false) ∈ st.tickets g x := hold'.mem_iff.mpr List.mem_cons_self
  have hidle : w ∉ idle := h.not_mem_idle hmem
  have hidle' : u ∉ idle := h.not_mem_idle hmem'
  have hne : u ≠ w := fun heq => hxe (h.event_unique hmem' hmem heq)
  have hsame : ∀ y, y ≠ e → y ≠ x → st'.tickets g y = st.tickets g y := fun y hye hyx =>
    tickets_of_events_eq howned (by rw [hothers y hye hyx])
  obtain ⟨d, hd⟩ := Option.isSome_iff_exists.mp (h.heldData e _ hmem)
  have hnodata : (st.wrappers u).data = none := by
    have hdata := h.heldData x _ hmem'
    simpa using hdata
  have hempty : (st.pools g).dq = [] := h.waiting (by simp [hq])
  refine ⟨h.toIdleWrappers.put (e := e) hidle (by rw [hback.pool]) (by rw [hback.pool]) howned
    (fun v hv => ?_) hw ?_ fun y hy => ?_, fun v hv => ?_, fun y t ht => ?_, fun _ => ?_, ?_⟩
  · by_cases hvw : v = w
    · subst hvw
      simp [hback.wrapper]
    · by_cases hvu : v = u
      · subst hvu
        simp [htaken, hvw]
      · simp [hwrappers v hvw hvu, hvw]
  · exact (hold.map Prod.fst).trans ((hset.map Prod.fst).symm.cons w)
  · by_cases hyx : y = x
    · subst hyx
      exact (hset'.map Prod.fst).trans (hold'.map Prod.fst).symm
    · rw [hsame y hy hyx]
  · rcases List.mem_cons.mp hv with rfl | hv
    · rw [hback.wrapper]
    · have hvw : v ≠ w := fun heq => hidle (heq ▸ hv)
      have hvu : v ≠ u := fun heq => hidle' (heq ▸ hv)
      rw [hwrappers v hvw hvu]
      exact h.idleData v hv
  · -- the ticket of the waiting event is the only one whose wrapper has changed
    have hkept : t = (u, true) ∨ t ∈ st.tickets g y ∧ t.1 ≠ w ∧ t.1 ≠ u := by
      by_cases hye : y = e
      · subst hye
        have hother := hset.mem_iff.mp ht
        have hmemt : t ∈ st.tickets g y := hold.mem_iff.mpr (List.mem_cons_of_mem _ hother)
        exact Or.inr ⟨hmemt, h.not_mem_others hold t hother,
          fun heq => hxe (h.event_unique hmem' hmemt heq.symm)⟩
      · by_cases hyx : y = x
        · subst hyx
          rcases List.mem_cons.mp (hset'.mem_iff.mp ht) with rfl | hother
          · exact Or.inl rfl
          · have hmemt : t ∈ st.tickets g y := hold'.mem_iff.mpr (List.mem_cons_of_mem _ hother)
            exact Or.inr ⟨hmemt, fun heq => hye (h.event_unique hmemt hmem heq),
              h.not_mem_others hold' t hother⟩
        · rw [hsame y hye hyx] at ht
          exact Or.inr ⟨ht, fun heq => hye (h.event_unique ht hmem heq),
            fun heq => hyx (h.event_unique ht hmem' heq)⟩
    rcases hkept with rfl | ⟨hold, hvw, hvu⟩
    · simp [htaken, hd]
    · rw [hwrappers t.1 hvw hvu]
      exact h.heldData y t hold
  · rw [hback.pool]
    exact hempty
  · obtain ⟨place, hlocated, hplace⟩ := h.resources
    have hat : place d = some (.wrapper w) := hlocated.mem_iff.mp (by simp [Store.resources, hw, hd])
    refine ⟨_, hlocated.move (x := d) (p := .wrapper w) (q := .wrapper u) (by simp [Ne.symm hne])
      ?_ ?_ fun r hrw hru => ?_, fun d' => ?_⟩
    · simp [Store.resources, hw, hd, (howned w).mpr hw, hback.wrapper]
    · simp [Store.resources, hu, hnodata, (howned u).mpr hu, htaken, hd]
    · cases r with
      | queue => simp [Store.resources, hback.pool]
      | wrapper v =>
          have hvw : v ≠ w := fun heq => hrw (by rw [heq])
          have hvu : v ≠ u := fun heq => hru (by rw [heq])
          simp [Store.resources, howned v, hwrappers v hvw hvu]
    · rw [← hplace d']
      by_cases hd' : d' = d <;> simp [hd', hat]

variable [Inhabited K]

omit [LinearOrder K] [DecidableEq D] [Inhabited K] in
/-- An event that is handed another atomic keeps its wrappers of the pool. -/
theorem tickets_taken {x : EventId} {p : AtomicPtr} (howned : ∀ v, st'.Owned g v ↔ st.Owned g v)
    (hp : ∀ v, p = .pooled v → (st.wrappers v).pool ≠ g)
    (hwaits : st.WaitsAt (st.events x) (st.queueOf p))
    (htaken : st'.events x = (st.events x).taken) : (st'.tickets g x).Perm (st.tickets g x) := by
  obtain ⟨rel, p', hrel, hp', -, hqueue⟩ := hwaits
  obtain ⟨others, hold, hnew⟩ := tickets_of_set (g := g) hrel
  have hother : ∀ v, rel.atom = some (.pooled v) → ¬ st.Owned g v := by
    intro v hv hno
    rw [hp'] at hv
    cases hv
    cases p with
    | plain a => simp [queueOf] at hqueue
    | pooled w =>
        simp only [queueOf, Queue.pool.injEq] at hqueue
        exact hp w rfl (hqueue.symm.trans hno.2)
  have hset := hnew st' { rel with haveit := true } howned (by simp [htaken, Event.taken, hrel])
  rw [ticket_eq_none_of_not_owned hother] at hold
  rw [ticket_eq_none_of_not_owned (by exact hother)] at hset
  exact hset.trans hold.symm

/-- One turn of a release. -/
theorem releaseAt (h : st.PoolInvariant g filled idle) (hc : Consistent guards st)
    (hnot : ∀ q, e ∉ st.queue q) {released : List EventId}
    (heffect : Released guards st e i st' released)
    (hrelease : st.releaseAt guards e i = .ok (st', released)) :
    ∃ idle', st'.PoolInvariant g filled idle' := by
  obtain ⟨ha, ha', hha, hevent, -, hsame, hatom⟩ := heffect.event
  have hset : (st'.events e).holders = (st.events e).holders.set i ha' := by rw [hevent]
  by_cases hpool : ∃ w, ha.atom = some (.pooled w) ∧ (st.wrappers w).pool = g
  · obtain ⟨w, hp, hg⟩ := hpool
    have hw : st.Owned g w := ⟨(hc.referred e ha (List.mem_of_getElem? hha) _ hp).1, hg⟩
    rcases releaseAt_cases hrelease with ⟨-, rfl, -⟩ | ⟨ha1, -, -, -, hha1, hhave, -⟩
    · exact ⟨idle, h⟩
    · cases hha.symm.trans hha1
      have hmem : (w, true) ∈ st.tickets g e := by
        refine List.mem_filterMap.mpr ⟨ha, List.mem_of_getElem? hha, ?_⟩
        rw [ticket_eq_some hp hw, hhave]
      have hidle : w ∉ idle := h.not_mem_idle hmem
      have hlast : (st.pools g).apLast ≠ some w := by
        rw [h.last]
        exact fun hlast => hidle (List.mem_of_getLast? hlast)
      rcases releaseAt_pooled hc hha hp hhave hg (h.next w hw hidle) hlast hrelease with
        ⟨-, hback, rfl, hwrappers⟩ | ⟨x, rest, u, rel, hq, hrel, hrelp, hgive⟩
      · refine ⟨w :: idle, h.giveBack hha hp hw hhave hback hwrappers hset hatom fun x hx => ?_⟩
        simpa using heffect.others x hx
      · have hqueue : x ∈ st.queue (.pool g) := by
          rw [queue, hq]
          exact List.mem_cons_self
        obtain ⟨rel', p', hrel', hp', hfree, hat⟩ := hc.waiting _ x hqueue
        cases hrel.symm.trans hrel'
        cases hrelp.symm.trans hp'
        have hxe : x ≠ e := fun heq => hnot _ (heq ▸ hqueue)
        have hu : st.Owned g u := by
          refine ⟨(hc.referred x rel (List.mem_of_getElem? hrel) _ hrelp).1, ?_⟩
          simpa [queueOf] using hat
        have hmem' : (u, false) ∈ st.tickets g x := by
          refine List.mem_filterMap.mpr ⟨rel, List.mem_of_getElem? hrel, ?_⟩
          rw [ticket_eq_some hrelp hu, hfree]
        have hne : u ≠ w := fun heq => hxe (h.event_unique hmem' hmem heq)
        obtain ⟨hback, rfl, htaken, hwrappers⟩ := hgive hne
        refine ⟨w :: idle, h.handTo hha hp hw hhave hq hxe hrel hrelp hu hfree hback htaken
          hwrappers hset hatom ?_ fun y hye hyx => ?_⟩
        · rw [heffect.others x hxe, if_pos List.mem_cons_self]
          simp [Event.taken, hrel]
        · rw [heffect.others y hye, if_neg (by simpa using hyx)]
  · have hother : ∀ w, ha.atom = some (.pooled w) → (st.wrappers w).pool ≠ g :=
      fun w hw hg => hpool ⟨w, hw, hg⟩
    have hkeeps : st.KeepsPool st' g := by
      refine keepsPool_releaseAt hc (fun ha1 w hha1 hw => ?_) hrelease
      cases hha.symm.trans hha1
      exact hother w hw
    refine ⟨idle, h.of_samePool ⟨hkeeps.pools, hkeeps.owned, hkeeps.wrappers, fun x => ?_⟩⟩
    by_cases hx : x = e
    · subst hx
      obtain ⟨others, hold, hnew⟩ := tickets_of_set (g := g) hha
      have hassigned := hnew st' ha' hkeeps.owned hset
      rw [ticket_eq_none_of_not_owned fun w hw hno => hother w hw hno.2] at hold
      rw [ticket_eq_none hatom] at hassigned
      exact hassigned.trans hold.symm
    · by_cases hreleased : x ∈ released
      · obtain ⟨ha1, p, hha1, hp, hmem⟩ := heffect.waited x hreleased
        cases hha.symm.trans hha1
        refine tickets_taken hkeeps.owned (fun v hv => hother v (by rw [hp, hv]))
          (hc.waiting _ x hmem) ?_
        rw [heffect.others x hx, if_pos hreleased]
      · refine List.Perm.of_eq (tickets_of_events_eq hkeeps.owned ?_)
        rw [heffect.others x hx, if_neg hreleased]

/-! ## One turn of an acquisition -/

omit [LinearOrder K] [Inhabited K] in
/-- Going on to the next guard keeps the invariant. -/
theorem raiseWorkingOn (h : st.PoolInvariant g filled idle) :
    (st.raiseWorkingOn e i).PoolInvariant g filled idle := by
  refine h.of_samePool (samePool_of_eq rfl rfl rfl fun x => ?_)
  by_cases hx : x = e
  · subst hx
    rw [Store.raiseWorkingOn, events_setEvent_self]
  · rw [Store.raiseWorkingOn, events_setEvent_ne _ hx]

/-- A visit keeps the invariant. -/
theorem visit (h : st.PoolInvariant g filled idle) (htyped : Typed guards st)
    (hfree : ∀ ha, (st.events e).holders[i]? = some ha → ha.haveit = false) {res : Bool}
    (hvisit : st.visit guards e i = .ok (st', res)) :
    ∃ idle', st'.PoolInvariant g filled idle' := by
  simp only [Store.visit] at hvisit
  split at hvisit
  · cases hvisit
  next st1 hbuild =>
    obtain ⟨idle', hbuilt⟩ := h.build htyped.wellFormed htyped.referred hfree hbuild
    have hraised := hbuilt.raiseWorkingOn (e := e) (i := i)
    split at hvisit
    · cases hvisit
      exact ⟨idle', hraised⟩
    next ha hha =>
      split at hvisit
      · cases hvisit
        exact ⟨idle', hraised⟩
      next hnot =>
        simp only [Bool.or_eq_true, not_or, Bool.not_eq_true] at hnot
        have heffect := htyped.built hbuild
        have hha1 : (st1.events e).holders[i]? = some ha := by
          rwa [Store.raiseWorkingOn, events_setEvent_self] at hha
        have href := (heffect.held ha hha1).1.mono
          (sameShape_setEvent st1 e { st1.events e with
            workingOn := max (st1.events e).workingOn i }).extends
        exact ⟨idle', hraised.acquireOrWait href hha hnot.1 hvisit⟩

/-- The first loop of {lit}`get_keys_sort`. -/
theorem getKeys {positions : List Nat} (h : st.PoolInvariant g filled idle)
    (htyped : Typed guards st) (hfree : ∀ ha ∈ (st.events e).holders, ha.haveit = false)
    (hkeys : st.getKeys guards e positions = .ok st') :
    ∃ idle', st'.PoolInvariant g filled idle' := by
  refine getKeys_induction (P := fun st => ∃ idle, st.PoolInvariant g filled idle)
    (fun st st1 j htyped hfree hbuild hpool => ?_) htyped hfree hkeys ⟨idle, h⟩
  obtain ⟨idle1, hpool⟩ := hpool
  exact hpool.build htyped.wellFormed htyped.referred
    (fun ha hha => hfree ha (List.mem_of_getElem? hha)) hbuild

omit [LinearOrder K] [Inhabited K] in
/-- Sorting the references keeps the invariant. -/
theorem setSorted (h : st.PoolInvariant g filled idle) {sorted : List (HeldAtomic I K D)}
    (hperm : sorted.Perm (st.events e).holders) :
    (st.setSorted e sorted).PoolInvariant g filled idle := by
  refine h.of_samePool (samePool_of_eq rfl rfl rfl fun x => ?_)
  by_cases hx : x = e
  · subst hx
    rw [Store.setSorted, events_setEvent_self]
    exact hperm
  · rw [Store.setSorted, events_setEvent_ne _ hx]

end PoolInvariant

end Store

/-! ## Whole runs -/

section Runs

open Store TransitionSystem

variable [DecidableEq D] {g : GuardId} {filled : List D} {idle : List PooledId}

namespace Store

/-- A pool after its guard initializer: every wrapper is idle and every resource is in
the queue. -/
structure PoolFilled (st : Store I K D) (g : GuardId) (filled : List D)
    (idle : List PooledId) : Prop where
  chain : Chain (fun w => (st.wrappers w).next) (st.pools g).apList idle
  last : (st.pools g).apLast = idle.getLast?
  nodup : idle.Nodup
  wrappers : ∀ w, w ∈ idle ↔ st.Owned g w
  data : ∀ w ∈ idle, (st.wrappers w).data = none
  queue : (st.pools g).dq = filled
  distinct : filled.Nodup

/-- Every resource is in the queue of the pool or in the wrapper of one event, the idle
wrappers are a list without data and without events, and nobody waits in vain. -/
structure PoolConserved (st : Store I K D) (g : GuardId) (filled : List D) : Prop where
  resource : ∀ d ∈ filled, ∃! place, d ∈ st.resources g place
  nodup : ∀ place, (st.resources g place).Nodup
  noOther : ∀ place, ∀ d ∈ st.resources g place, d ∈ filled
  holder : ∀ w, st.Owned g w → (st.wrappers w).data ≠ none →
    ∃! x, (w, true) ∈ st.tickets g x
  idle : ∃ idle, Chain (fun w => (st.wrappers w).next) (st.pools g).apList idle ∧
    idle.Nodup ∧ (st.pools g).apLast = idle.getLast? ∧
    ∀ w ∈ idle, (st.wrappers w).data = none ∧ ∀ x, ∀ t ∈ st.tickets g x, t.1 ≠ w
  waiting : ∀ x ∈ st.queue (.pool g), (st.pools g).dq = []

variable {st : Store I K D}

/-- A filled pool that nobody uses meets the invariant. -/
theorem PoolFilled.poolInvariant (h : st.PoolFilled g filled idle)
    (hevents : ∀ x, (st.events x).holders = []) (hq : (st.pools g).q = []) :
    st.PoolInvariant g filled idle := by
  have htickets : ∀ x, st.tickets g x = [] := fun x => by simp [tickets, ticketsOf, hevents x]
  refine ⟨⟨h.chain, h.last, ⟨fun w => if w ∈ idle then some .idle else none, ?_, ?_⟩, ?_⟩,
    h.data, ?_, ?_, ⟨fun d => if d ∈ filled then some .queue else none, ?_, ?_⟩⟩
  · intro w place
    cases place with
    | idle => simp [wrapperContents, h.nodup.count]
    | event x => simp [wrapperContents, htickets x]
  · intro w
    simp [h.wrappers w]
  · intro w hw hmem
    exact absurd ((h.wrappers w).mpr hw) hmem
  · intro x t ht
    simp [htickets x] at ht
  · intro hwaits
    exact absurd hq hwaits
  · intro d place
    cases place with
    | queue => simp [resources, h.queue, h.distinct.count]
    | wrapper w =>
        by_cases hw : st.Owned g w
        · simp [resources, h.data w ((h.wrappers w).mpr hw)]
        · simp [resources, hw]
  · intro d
    simp

/-- Under the invariant the data of the pool is conserved. -/
theorem PoolInvariant.poolConserved (h : st.PoolInvariant g filled idle) :
    st.PoolConserved g filled := by
  obtain ⟨place, hlocated, hplace⟩ := h.resources
  refine ⟨fun d hd => hlocated.existsUnique ((hplace d).mpr hd), hlocated.nodup,
    fun p d hd => (hplace d).mp ?_, fun w hw hdata => ?_,
    ⟨idle, h.chain, h.nodup_idle, h.last, fun w hw => ⟨h.idleData w hw, fun x t ht heq => ?_⟩⟩,
    fun x hx => ?_⟩
  · rw [hlocated.mem_iff.mp hd]
    exact Option.some_ne_none p
  · obtain ⟨home, hat, hhome⟩ := h.wrappers
    obtain ⟨p, hp, -⟩ := hat.existsUnique ((hhome w).mpr hw)
    cases p with
    | idle => exact absurd (h.idleData w hp) hdata
    | event x =>
        obtain ⟨⟨v, haveit⟩, hv, rfl⟩ := List.mem_map.mp hp
        have hheld : haveit = true :=
          (h.heldData x _ hv).symm.trans (Option.isSome_iff_ne_none.mpr hdata)
        subst hheld
        exact ⟨x, hv, fun y hy => h.event_unique hy hv rfl⟩
  · exact h.not_mem_idle ht (heq ▸ hw)
  · exact h.waiting (List.ne_nil_of_mem hx)

end Store

variable [LinearOrder K] [Inhabited K] {guards : GuardId → Guard} {s t : State I K D}

/-- The step assigns no data pointer of the pool. -/
def LeavesPool (g : GuardId) (s : State I K D) (a : Action) (_ : State I K D) : Prop :=
  match a with
  | .write e i => ∀ ha w, (s.store.events e).holders[i]? = some ha →
      ha.atom = some (.pooled w) → (s.store.wrappers w).pool ≠ g
  | _ => True

/-- The pool is as it should be, and events to come have no references. -/
structure PoolKept (g : GuardId) (filled : List D) (s : State I K D) : Prop where
  pool : ∃ idle, s.store.PoolInvariant g filled idle
  fresh : ∀ x, s.created ≤ x → (s.store.events x).holders = []

namespace PoolKept

omit [LinearOrder K] [Inhabited K] in
/-- The store is the same, and no event is created. -/
theorem of_store_eq (h : PoolKept g filled s) (hstore : t.store = s.store)
    (hcreated : t.created = s.created) : PoolKept g filled t := by
  refine ⟨?_, fun x hx => ?_⟩
  · rw [hstore]
    exact h.pool
  · rw [hstore]
    exact h.fresh x (hcreated ▸ hx)

omit [LinearOrder K] [Inhabited K] in
/-- Only events that exist change. -/
theorem of_pool (h : PoolKept g filled s) (hpool : ∃ idle, t.store.PoolInvariant g filled idle)
    (hcreated : t.created = s.created)
    (hothers : ∀ x, s.created ≤ x → t.store.events x = s.store.events x) :
    PoolKept g filled t := by
  refine ⟨hpool, fun x hx => ?_⟩
  rw [hcreated] at hx
  rw [hothers x hx]
  exact h.fresh x hx

theorem step {a : Action} (h : PoolKept g filled s) (hinv : Invariant guards s)
    (hstep : Step guards s a t) (hleaves : LeavesPool g s a t) : PoolKept g filled t := by
  obtain ⟨idle, hpool⟩ := h.pool
  have hlt : ∀ {e σ}, s.has e σ → ∀ x, s.created ≤ x → x ≠ e :=
    fun hσ x hx heq => absurd (hinv.lt_created hσ) (by rw [← heq]; exact Nat.not_lt.mpr hx)
  cases hstep with
  | create node input =>
      have hnew : ∀ x, x ≠ s.created →
          (s.store.setEvent s.created (node.newEvent input)).events x = s.store.events x :=
        fun x hx => events_setEvent_ne _ hx
      refine ⟨⟨idle, hpool.of_samePool ⟨rfl, fun _ => Iff.rfl, fun _ _ => rfl, fun x => ?_⟩⟩,
        fun x hx => ?_⟩
      · by_cases hx : x = s.created
        · subst hx
          -- neither the event that was there nor the new one has references to wrappers
          have hnone : (s.store.setEvent s.created (node.newEvent input)).tickets g s.created =
              [] := by
            rw [tickets, events_setEvent_self]
            simp [ticketsOf, Node.newEvent, ticket]
          rw [hnone, tickets, h.fresh s.created le_rfl]
          simp [ticketsOf]
        · rw [tickets, hnew x hx]
          exact List.Perm.refl _
      · rw [hnew x (Nat.ne_of_gt hx)]
        exact h.fresh x (Nat.le_of_succ_le hx)
  | getKeysSort hcall hnew hkeys hsort =>
      next e st sorted =>
      have hcall' : s.has e (.acquiring 0) := hcall
      have hkeyed := keyed_of_getKeys _ hinv.typed.wellFormed (hinv.typed.referred e) hkeys
      have hfree : ∀ ha ∈ (s.store.events e).holders, ha.haveit = false := by
        intro ha hha
        obtain ⟨j, hj⟩ := List.getElem?_of_mem hha
        exact (hinv.status e _ hcall').2.2.2.2 j ha (Nat.zero_le j) hj
      obtain ⟨idle', hpool'⟩ := hpool.getKeys hinv.typed hfree hkeys
      have hperm : sorted.Perm (st.events e).holders := by
        split at hsort
        · exact List.Perm.of_eq hsort
        · exact hsort.1
      refine h.of_pool ⟨idle', hpool'.setSorted hperm⟩ rfl fun x hx => ?_
      rw [Store.setSorted, events_setEvent_ne _ (hlt hcall' x hx)]
      exact hkeyed.others x (hlt hcall' x hx)
  | acquired hcall hsorted hlen hvisit =>
      next e i st =>
      have hcall' : s.has e (.acquiring i) := hcall
      have heffect := hinv.typed.visited hlen hvisit
      refine h.of_pool (hpool.visit hinv.typed ?_ hvisit) rfl fun x hx =>
        heffect.others x (hlt hcall' x hx)
      exact fun ha => (hinv.status e _ hcall').2.2.2.2 i ha le_rfl
  | queued hcall hsorted hlen hvisit =>
      next e i st =>
      have hcall' : s.has e (.acquiring i) := hcall
      have heffect := hinv.typed.visited hlen hvisit
      refine h.of_pool (hpool.visit hinv.typed ?_ hvisit) rfl fun x hx =>
        heffect.others x (hlt hcall' x hx)
      exact fun ha => (hinv.status e _ hcall').2.2.2.2 i ha le_rfl
  | write hx hrunning hi hheld hp d =>
      next x i ha p =>
      have hkeeps : s.store.KeepsPool (s.store.setData p d) g :=
        keepsPool_setData (fun w hw => hleaves ha w hi (hp.trans (congrArg some hw))) d
      refine h.of_pool ⟨idle, hpool.of_samePool ⟨hkeeps.pools, hkeeps.owned, hkeeps.wrappers,
        fun y => ?_⟩⟩ rfl fun y _ => congrFun (events_setData p d) y
      rw [tickets_of_events_eq hkeeps.owned (by rw [events_setData])]
  | releaseAt hx hleft hrelease =>
      next x i st released =>
      have hcall' : s.has x.event (.executing x) := ⟨hx, rfl⟩
      have heffect := hinv.released_of_releaseAt hx hleft hrelease
      have hnot : ∀ q, x.event ∉ s.store.queue q := by
        intro q hq
        have hwaits : s.has x.event (.waiting q) := hq
        cases hinv.status_unique hcall' hwaits
      refine h.of_pool (hpool.releaseAt hinv.consistent hnot heffect hrelease) rfl fun y hy => ?_
      rw [heffect.others y (hlt hcall' y hy), if_neg]
      intro hmem
      obtain ⟨-, p, -, -, hqueue⟩ := heffect.waited y hmem
      have hwaits : s.has y (.waiting (s.store.queueOf p)) := hqueue
      exact hlt hwaits y hy rfl
  | ready hcall hsorted hend => exact h.of_store_eq rfl rfl
  | start hrunnable => exact h.of_store_eq rfl rfl
  | beginRelease hx hrunning isLast => exact h.of_store_eq rfl rfl
  | releasedEarly hx hleft hlast => exact h.of_store_eq rfl rfl
  | finish hx hleft hlast => exact h.of_store_eq rfl rfl

end PoolKept

/-- What every run of events over a filled pool keeps. -/
theorem statesMeet_poolKept {path : List (Action × State I K D)} (hinit : Initial guards s)
    (hfilled : s.store.PoolFilled g filled idle) (hrun : (system I K D guards).Run s path)
    (hleaves : StepsMeet (LeavesPool g) s path) : StatesMeet (PoolKept g filled) path := by
  refine hrun.statesMeet_of_stepsMeet (I := Invariant guards)
    (fun s a t hs hstep => Invariant.step hs hstep)
    (fun s a t hs hp hstep hleaves => hp.step hs hstep hleaves) (.of_initial hinit) ?_ hleaves
  exact ⟨⟨idle, hfilled.poolInvariant hinit.events (hinit.queues (.pool g))⟩,
    fun x _ => hinit.events x⟩

/-- Along every run of events over a filled pool its resources are conserved. -/
theorem pool_conserves {path : List (Action × State I K D)} (hinit : Initial guards s)
    (hfilled : s.store.PoolFilled g filled idle) (hrun : (system I K D guards).Run s path)
    (hleaves : StepsMeet (LeavesPool g) s path) :
    StatesMeet (fun t => t.store.PoolConserved g filled) path := by
  intro p hp
  obtain ⟨idle', hpool⟩ := (statesMeet_poolKept hinit hfilled hrun hleaves p hp).pool
  exact hpool.poolConserved

omit [DecidableEq D] in
/-- A schedule without assignments leaves the resources of a pool as they are. -/
theorem leavesPool_runOf (g : GuardId) (s : State I K D) (commands : List (Command guards I K D))
    (hcommands : ∀ command ∈ commands, command.assigns = false) :
    StepsMeet (LeavesPool g) s (s.runOf commands) := by
  induction commands generalizing s with
  | nil => trivial
  | cons command rest ih =>
      rw [State.runOf]
      cases s.perform command with
      | none => trivial
      | some t =>
          refine ⟨?_, ih t fun other hother => hcommands other (List.mem_cons_of_mem _ hother)⟩
          have hassigns := hcommands command List.mem_cons_self
          cases command with
          | write x i d => cases hassigns
          | _ => trivial

end Runs

/-! ## Two events, one resource -/

/-- Every guard is a pool. -/
def poolGuards : GuardId → Guard :=
  fun g => { magicNumber := g, amap := .pool, isGC := false }

/-- Before the first event, with the resource 7 in the pool and the wrapper of its
initializer idle. -/
def State.onePooled : State Unit Nat Nat where
  store := { (State.empty Unit Nat Nat).store with
    wrapped := 1
    pools := Function.update (fun _ => {}) 0 { dq := [7], apList := some 0, apLast := some 0 }
    madeFor := fun _ => (0, 0) }

/-- The example is an initial state. -/
theorem State.initial_onePooled : Initial poolGuards State.onePooled where
  wellFormed := {
    entry := fun _ _ _ h => nomatch h
    trivialAtom := fun _ _ h => nomatch h
    wrapper := fun _ _ => rfl
    idle := by
      intro g w h
      by_cases hg : g = 0
      · subst hg
        simp only [State.onePooled, Function.update_self, Option.some.injEq] at h
        subst h
        exact ⟨Nat.zero_lt_one, rfl⟩
      · simp [State.onePooled, Function.update_of_ne hg] at h
    next := fun _ _ _ h => nomatch h
    poolLike := by
      intro p h
      cases p with
      | plain a => exact absurd h (Nat.not_lt_zero a)
      | pooled w => exact ⟨fun _ => rfl, fun _ => rfl⟩
    fresh := fun _ _ => rfl }
  queues q := by
    cases q with
    | atomic a => rfl
    | pool g => by_cases hg : g = 0 <;> simp [State.onePooled, Store.queue, hg]
  collected := rfl
  events _ := rfl
  created := rfl
  acquiring := rfl
  runnable := rfl
  executing := rfl
  finished := rfl

/-- The pool of the example is filled. -/
theorem State.poolFilled_onePooled : State.onePooled.store.PoolFilled 0 [7] [0] where
  chain := ⟨rfl, rfl⟩
  last := rfl
  nodup := List.nodup_singleton 0
  wrappers w := by
    rw [List.mem_singleton, Store.Owned]
    exact ⟨fun hw => ⟨hw ▸ Nat.zero_lt_one, rfl⟩, fun hw => Nat.lt_one_iff.mp hw.1⟩
  data _ _ := rfl
  queue := rfl
  distinct := List.nodup_singleton 7

/-- A node with one guard, a pool. -/
def poolNode : Node poolGuards Unit Nat Nat where
  guardRefs := [{
    guard := 0, guardFn := none, wtype := WType.pool, isLate := false, lexicalIndex := 0 }]
  ascending := by simp
  poolMode := by simp

/-- The second event waits for the resource that the first one releases. -/
def poolSchedule : List (Command poolGuards Unit Nat Nat) := [
  .create poolNode (), .getKeysSort 0, .visit 0 0, .ready 0 1, .start 0,
  .create poolNode (), .getKeysSort 1, .visit 1 0,
  .beginRelease { event := 0 } true,
  .releaseAt { event := 0, releasing := some 1, isLast := true } 0]

/-- The released resource is with the second event, and the first wrapper is idle. -/
theorem pool_conserves_poolSchedule :
    ∃ step ∈ State.onePooled.runOf poolSchedule,
      step.2.store.tickets 0 1 = [(1, true)] ∧
        step.2.store.resources 0 (.wrapper 1) = [7] ∧
        (step.2.store.pools 0).apList = some 0 ∧ step.2.store.PoolConserved 0 [7] := by
  have hend : ∃ step ∈ State.onePooled.runOf poolSchedule,
      step.2.store.tickets 0 1 = [(1, true)] ∧
        step.2.store.resources 0 (.wrapper 1) = [7] ∧
        (step.2.store.pools 0).apList = some 0 := by decide
  obtain ⟨step, hstep, htickets, hresources, hidle⟩ := hend
  have hrun := State.run_runOf (fun _ _ h => h) State.onePooled poolSchedule
  exact ⟨step, hstep, htickets, hresources, hidle, pool_conserves State.initial_onePooled
    State.poolFilled_onePooled hrun (leavesPool_runOf 0 _ _ (by decide)) step hstep⟩

end Guards
end OFlux
