import OFlux.Guards.Collection
import OFlux.Guards.ReadWriteLock
import OFlux.Guards.Schedule

/-!
# Who holds a guard beside whom

The events of the whole run time share the atomics of the guards.  A reference that was
granted a read/write atomic for reading has only readers beside it, and any other
reference that was granted an atomic has nobody, as long as it holds.

Main results:

- Theorem {lit}`Sharing.step`: what each step keeps of an atomic and its holders.
- Theorem {lit}`holders_share`: two references that hold one atomic read it, or the atomic
  is a free one.
- Theorem {lit}`data_kept_while_held`: until it is released, only the event that holds an
  atomic alone changes its data.
-/

namespace OFlux
namespace Guards

open Library

variable {I K D : Type}

/-! ## What an atomic says of its holders -/

namespace Atomic

/-- Unless it is read, a read/write atomic counts one holder at most. -/
def Settled : Atomic D → Prop
  | .readWrite atom => atom.mode ≠ WType.read → atom.held ≤ 1
  | _ => True

/-- The modes of the holders of an atomic that is read. -/
def Admits (wtype : Nat) : Atomic D → Prop
  | .readWrite atom => atom.mode = WType.read → wtype = WType.read ∨ wtype = WType.upgradeable
  | _ => True

/-- A holder of the atomic has no other beside it. -/
def Alone : Atomic D → Prop
  | .free _ => False
  | .exclusive _ => True
  | .readWrite atom => atom.mode ≠ WType.read

instance : (atom : Atomic D) → Decidable atom.Alone
  | .free _ => isFalse id
  | .exclusive _ => isTrue trivial
  | .readWrite atom => inferInstanceAs (Decidable (atom.mode ≠ WType.read))

/-- The entries that record the modes of the waiting events. -/
def requests : Atomic D → List AtomicQueueEntry
  | .readWrite atom => atom.waiters
  | _ => []

variable {atom : Atomic D} {ev : EventId} {wtype w : Nat}

@[simp]
theorem settled_setData (d : Option D) : (atom.setData d).Settled ↔ atom.Settled := by
  cases atom <;> rfl

@[simp]
theorem admits_setData (d : Option D) : (atom.setData d).Admits w ↔ atom.Admits w := by
  cases atom <;> rfl

@[simp]
theorem alone_setData (d : Option D) : (atom.setData d).Alone ↔ atom.Alone := by
  cases atom <;> rfl

@[simp]
theorem requests_setData (d : Option D) : (atom.setData d).requests = atom.requests := by
  cases atom <;> rfl

@[simp]
theorem settled_new (cls : AtomicClass) : (cls.new : Atomic D).Settled := by
  cases cls <;> simp [AtomicClass.new, Settled]

@[simp]
theorem requests_new (cls : AtomicClass) : (cls.new : Atomic D).requests = [] := by
  cases cls <;> rfl

/-- A request comes from a waiting event. -/
theorem event_mem_waiting {entry : AtomicQueueEntry} (h : entry ∈ atom.requests) :
    entry.event ∈ atom.waiting := by
  cases atom with
  | free d => cases h
  | exclusive atom => cases h
  | readWrite atom => exact List.mem_map_of_mem h

/-- A request leaves the data as it is. -/
@[simp]
theorem data_acquireOrWait : (atom.acquireOrWait ev wtype).1.data = atom.data := by
  cases atom with
  | free d => rfl
  | exclusive atom =>
      simp only [acquireOrWait, AtomicExclusive.acquireOrWait]
      split <;> rfl
  | readWrite atom =>
      simp only [acquireOrWait, AtomicReadWrite.acquireOrWait]
      split
      · rfl
      · split <;> rfl

/-- A request that is granted leaves one holder, or readers. -/
theorem settled_of_granted (h : (atom.acquireOrWait ev wtype).2 = true) :
    (atom.acquireOrWait ev wtype).1.Settled := by
  cases atom with
  | free d => trivial
  | exclusive atom => trivial
  | readWrite atom =>
      simp only [acquireOrWait, AtomicReadWrite.acquireOrWait] at h ⊢
      by_cases hfree : atom.held = 0
      · simp [hfree, Settled]
      · simp only [hfree, if_false] at h ⊢
        by_cases hjoins : atom.mode = WType.read ∧ atom.waiters = [] ∧
            atom.joinsReaders wtype = true
        · simp only [hjoins, and_self, if_true, Prod.map, id, Settled]
          simp
        · simp [hjoins] at h

/-- A request that waits leaves the atomic settled. -/
theorem settled_of_queued (h : (atom.acquireOrWait ev wtype).2 = false) (hset : atom.Settled) :
    (atom.acquireOrWait ev wtype).1.Settled := by
  cases atom with
  | free d => trivial
  | exclusive atom => trivial
  | readWrite atom =>
      simp only [acquireOrWait, AtomicReadWrite.acquireOrWait] at h ⊢
      by_cases hfree : atom.held = 0
      · simp [hfree] at h
      · simp only [hfree, if_false] at h ⊢
        by_cases hjoins : atom.mode = WType.read ∧ atom.waiters = [] ∧
            atom.joinsReaders wtype = true
        · simp [hjoins] at h
        · simp only [hjoins, if_false, Prod.map, id, Settled]
          exact hset

/-- A release leaves the atomic settled. -/
theorem settled_release (hset : atom.Settled) : atom.release.1.Settled := by
  cases atom with
  | free d => trivial
  | exclusive atom => trivial
  | readWrite atom =>
      by_cases hlast : atom.held - 1 = 0
      · cases hw : atom.waiters with
        | nil => simp [release, AtomicReadWrite.release_of_no_waiters hlast hw, Settled]
        | cons entry rest =>
            by_cases hread : entry.wtype = WType.read
            · simp [release, AtomicReadWrite.release_of_reader hlast hw hread, Settled]
            · simp [release, AtomicReadWrite.release_of_other hlast hw hread, Settled]
      · simp only [release, AtomicReadWrite.release_of_others hlast, Prod.map, id, Settled]
        intro hmode
        exact (Nat.sub_le _ _).trans (hset hmode)

/-- The mode of the new holder is one that the atomic admits. -/
theorem admits_of_granted (h : (atom.acquireOrWait ev wtype).2 = true) :
    (atom.acquireOrWait ev wtype).1.Admits wtype := by
  cases atom with
  | free d => trivial
  | exclusive atom => trivial
  | readWrite atom =>
      simp only [acquireOrWait, AtomicReadWrite.acquireOrWait] at h ⊢
      by_cases hfree : atom.held = 0
      · simp only [hfree, if_true, Prod.map, id, Admits]
        exact Or.inl
      · simp only [hfree, if_false] at h ⊢
        by_cases hjoins : atom.mode = WType.read ∧ atom.waiters = [] ∧
            atom.joinsReaders wtype = true
        · simp only [hjoins, and_self, if_true, Prod.map, id, Admits]
          intro _
          have hmode := hjoins.2.2
          simp only [AtomicReadWrite.joinsReaders, Bool.or_eq_true, beq_iff_eq,
            Bool.and_eq_true] at hmode
          exact hmode.imp_right And.right
        · simp [hjoins] at h

/-- A request on a held atomic leaves the mode as it is. -/
theorem mode_acquireOrWait (hheld : atom.held ≠ 0) :
    ((atom.acquireOrWait ev wtype).1.Admits w ↔ atom.Admits w) ∧
      ((atom.acquireOrWait ev wtype).1.Alone ↔ atom.Alone) := by
  cases atom with
  | free d => exact ⟨Iff.rfl, Iff.rfl⟩
  | exclusive atom => exact ⟨Iff.rfl, Iff.rfl⟩
  | readWrite atom =>
      simp only [acquireOrWait, AtomicReadWrite.acquireOrWait_of_held hheld]
      split <;> exact ⟨Iff.rfl, Iff.rfl⟩

/-- A call adds at most its own request, when it waits. -/
theorem mem_requests_acquireOrWait {entry : AtomicQueueEntry}
    (h : entry ∈ (atom.acquireOrWait ev wtype).1.requests) :
    entry ∈ atom.requests ∨ (atom.acquireOrWait ev wtype).2 = false ∧ entry = ⟨ev, wtype⟩ := by
  cases atom with
  | free d => cases h
  | exclusive atom => cases h
  | readWrite atom =>
      simp only [acquireOrWait, AtomicReadWrite.acquireOrWait] at h ⊢
      split at h
      · exact Or.inl h
      next hheld =>
        split at h
        · exact Or.inl h
        next hnot =>
          rw [if_neg hheld, if_neg hnot]
          simp only [Prod.map, id, requests, List.mem_append, List.mem_singleton] at h
          exact h.imp_right fun heq => ⟨rfl, heq⟩

/-- A release adds no request. -/
theorem mem_requests_release {entry : AtomicQueueEntry} (h : entry ∈ atom.release.1.requests) :
    entry ∈ atom.requests := by
  cases atom with
  | free d => cases h
  | exclusive atom => cases h
  | readWrite atom =>
      have hsplit := atom.waiters_eq_handed.1
      show entry ∈ atom.waiters
      rw [hsplit]
      exact List.mem_append_right _ h

/-- The holders that stay when one of many leaves are still admitted. -/
theorem admits_release_of_many (hmany : ¬ atom.held ≤ 1) (h : atom.Admits w) :
    atom.release.1.Admits w := by
  cases atom with
  | free d => trivial
  | exclusive atom => trivial
  | readWrite atom =>
      have hothers : atom.held - 1 ≠ 0 := by
        simp only [held] at hmany
        omega
      simp only [release, AtomicReadWrite.release_of_others hothers, Prod.map, id]
      exact h

/-- The events that the atomic is handed over to asked for modes that it admits. -/
theorem admits_handed {r : EventId} (hr : r ∈ atom.release.2)
    (hw : ∀ entry ∈ atom.requests, entry.event = r → w = entry.wtype) :
    atom.release.1.Admits w := by
  cases atom with
  | free d => trivial
  | exclusive atom => trivial
  | readWrite atom =>
      by_cases hlast : atom.held - 1 = 0
      · cases hwaiters : atom.waiters with
        | nil => simp [release, AtomicReadWrite.release_of_no_waiters hlast hwaiters] at hr
        | cons entry rest =>
            simp only [requests, hwaiters] at hw
            by_cases hread : entry.wtype = WType.read
            · simp only [release, AtomicReadWrite.release_of_reader hlast hwaiters hread,
                Prod.map, id, List.mem_cons, List.mem_map, Admits] at hr ⊢
              intro _
              rcases hr with rfl | ⟨reader, hreader, rfl⟩
              · exact Or.inl ((hw entry List.mem_cons_self rfl).trans hread)
              · have hjoins := List.mem_takeWhile_imp hreader
                have hmem := (List.takeWhile_prefix _).subset hreader
                rw [hw reader (List.mem_cons_of_mem _ hmem) rfl]
                simp only [AtomicReadWrite.joinsReaders, Bool.or_eq_true, beq_iff_eq,
                  Bool.and_eq_true] at hjoins
                exact hjoins.imp_right And.right
            · simp only [release, AtomicReadWrite.release_of_other hlast hwaiters hread, Prod.map,
                id, Admits]
              exact fun hmode => absurd hmode hread
      · simp [release, AtomicReadWrite.release_of_others hlast] at hr

end Atomic

/-! ## The holders of an atomic -/

namespace Store

/-- No reference holds the atomic. -/
def Unheld (st : Store I K D) (a : AtomicId) : Prop :=
  ∀ x, ∀ ha ∈ (st.events x).holders, ha.holds a = false

/-- What every step keeps of an atomic, of the references that hold it and of those that
wait for it. -/
structure Sharing (st : Store I K D) (a : AtomicId) : Prop where
  settled : (st.atomics a).Settled ∨ st.Unheld a
  admitted : ∀ x, ∀ ha ∈ (st.events x).holders, ha.holds a = true →
    (st.atomics a).Admits ha.ref.wtype
  queued : ∀ entry ∈ (st.atomics a).requests, ∀ ha,
    (st.events entry.event).holders[(st.events entry.event).workingOn]? = some ha →
      ha.ref.wtype = entry.wtype

variable {st st' : Store I K D} {a : AtomicId} {e : EventId} {i n : Nat}

/-- The holders of the later store held the atomic before, with the same modes. -/
def HeldBefore (st st' : Store I K D) (a : AtomicId) : Prop :=
  ∀ x, ∀ ha ∈ (st'.events x).holders, ha.holds a = true →
    ∃ ha0 ∈ (st.events x).holders, ha0.holds a = true ∧ ha0.ref = ha.ref

/-- An atomic nobody held is not held by fewer. -/
theorem Unheld.of_heldBefore (h : st.Unheld a) (hbefore : st.HeldBefore st' a) :
    st'.Unheld a := by
  intro x ha hha
  by_contra hholds
  obtain ⟨ha0, hha0, hheld, -⟩ := hbefore x ha hha (by simpa using hholds)
  rw [h x ha0 hha0] at hheld
  cases hheld

/-- The atomic stays as it is, but for its data, and nobody new holds it. -/
theorem Sharing.of_heldBefore (h : st.Sharing a)
    (hatom : st'.atomics a = st.atomics a ∨ ∃ d, st'.atomics a = (st.atomics a).setData d)
    (hbefore : st.HeldBefore st' a)
    (hwaiting : ∀ x ∈ st.queue (.atomic a), st'.events x = st.events x) : st'.Sharing a := by
  have hsame : ((st.atomics a).Settled → (st'.atomics a).Settled) ∧
      (∀ w, (st.atomics a).Admits w → (st'.atomics a).Admits w) ∧
      (st'.atomics a).requests = (st.atomics a).requests := by
    rcases hatom with heq | ⟨d, heq⟩ <;> simp [heq]
  refine ⟨?_, fun x ha hha hholds => ?_, fun entry hentry ha hget => ?_⟩
  · exact h.settled.imp hsame.1 fun hunheld => hunheld.of_heldBefore hbefore
  · obtain ⟨ha0, hha0, hheld, href⟩ := hbefore x ha hha hholds
    exact href ▸ hsame.2.1 _ (h.admitted x ha0 hha0 hheld)
  · rw [hsame.2.2] at hentry
    rw [hwaiting _ (Atomic.event_mem_waiting hentry)] at hget
    exact h.queued entry hentry ha hget

/-- An atomic that was just made. -/
theorem sharing_new {cls : AtomicClass} (hatom : st.atomics a = cls.new) (h : st.Unheld a) :
    st.Sharing a := by
  refine ⟨Or.inr h, fun x ha hha hholds => ?_, fun entry hentry => ?_⟩
  · rw [h x ha hha] at hholds
    cases hholds
  · rw [hatom, Atomic.requests_new] at hentry
    cases hentry

/-! ## Two holders -/

/-- The reference at a position of an event holds the atomic. -/
def HoldsAt (st : Store I K D) (x : EventId) (j : Nat) (a : AtomicId) : Prop :=
  ∃ ha, (st.events x).holders[j]? = some ha ∧ ha.holds a = true

/-- A held position is one of the guards of the event. -/
theorem HoldsAt.lt_length {x : EventId} {j : Nat} (h : st.HoldsAt x j a) :
    j < (st.events x).holders.length := by
  obtain ⟨ha, hj, -⟩ := h
  exact (List.getElem?_eq_some_iff.mp hj).1

/-- An atomic with one holder at most does not have two. -/
theorem HoldsAt.unique {x y : EventId} {j k : Nat} (hx : st.HoldsAt x j a)
    (hy : st.HoldsAt y k a) (hltx : x < n) (hlty : y < n) (hone : st.holding n a ≤ 1) :
    x = y ∧ j = k := by
  obtain ⟨ha, hj, hholds⟩ := hx
  obtain ⟨hb, hk, hholdsb⟩ := hy
  by_contra hne
  -- without the first reference the second one still counts
  let st1 := st.setHeld x j { ha with haveit := false }
  have hothers : ∀ z, z ≠ x → st1.events z = st.events z := fun z hz => events_setHeld_ne _ hz
  have hassigned : (st1.events x).holders =
      (st.events x).holders.set j { ha with haveit := false } := by simp [st1]
  have hset := holding_of_set (a := a) hltx hothers hj hassigned
  rw [if_pos hholds, HeldAtomic.holds_of_haveit_eq_false rfl] at hset
  have hrest : hb ∈ (st1.events y).holders := by
    by_cases hyx : y = x
    · subst hyx
      have hkj : j ≠ k := fun heq => hne ⟨rfl, heq⟩
      rw [events_setHeld_self]
      exact List.mem_of_getElem? ((List.getElem?_set_ne hkj).trans hk)
    · rw [hothers y hyx]
      exact List.mem_of_getElem? hk
  have hpos := holding_pos hlty hrest hholdsb
  simp only [Bool.false_eq_true, if_false] at hset
  omega

/-! ## What the operations do to the atomics -/

/-- The atomics stay as they are, and some are made. -/
structure Grown (st st' : Store I K D) : Prop where
  allocated : st.allocated ≤ st'.allocated
  atomics : ∀ b, st'.atomics b = st.atomics b ∨
    st.allocated ≤ b ∧ ∃ cls : AtomicClass, st'.atomics b = cls.new

theorem Grown.of_eq (hallocated : st'.allocated = st.allocated)
    (hatomics : st'.atomics = st.atomics) : st.Grown st' :=
  ⟨hallocated.ge, fun b => Or.inl (congrFun hatomics b)⟩

theorem Grown.trans {st'' : Store I K D} (h : st.Grown st') (h' : st'.Grown st'') :
    st.Grown st'' := by
  refine ⟨h.allocated.trans h'.allocated, fun b => ?_⟩
  rcases h'.atomics b with heq | ⟨hle, hnew⟩
  · rw [heq]
    exact h.atomics b
  · exact Or.inr ⟨h.allocated.trans hle, hnew⟩

/-- Returning a pooled wrapper touches no atomic. -/
theorem atomics_poolPut {w : PooledId} (h : st.poolPut w = .ok st') :
    st'.atomics = st.atomics := by
  simp only [poolPut] at h
  split at h
  · split at h <;> cases h
    rfl
  · cases h
    rfl

/-- Giving an atomic up touches none. -/
theorem atomics_relinquish {p : AtomicPtr} {should : Bool}
    (h : st.relinquish p should = .ok st') : st'.atomics = st.atomics := by
  cases p with
  | plain a =>
      cases h
      rfl
  | pooled w =>
      cases should with
      | false =>
          cases h
          rfl
      | true =>
          simp only [relinquish] at h
          rw [atomics_poolPut h]
          rfl

section Acquisitions

variable [LinearOrder K] [Inhabited K] {guards : GuardId → Guard}

/-- Looking an atomic up may make one. -/
theorem grown_getAtomic {g : GuardId} {key key' : K} {p : AtomicPtr}
    (h : st.getAtomic guards g key = .ok (st', p, key')) : st.Grown st' := by
  cases hmap : (guards g).amap with
  | trivial b =>
      simp only [getAtomic, hmap, Except.ok.injEq, Prod.mk.injEq] at h
      obtain ⟨rfl, -, -⟩ := h
      exact .of_eq rfl rfl
  | pool =>
      simp only [getAtomic, hmap, poolGet] at h
      split at h
      · split at h <;> cases h
        exact .of_eq rfl rfl
      · cases h
        exact .of_eq rfl rfl
  | std cls =>
      simp only [getAtomic, hmap] at h
      split at h
      · cases h
        exact .of_eq rfl rfl
      · cases h
        refine ⟨Nat.le_succ _, fun b => ?_⟩
        by_cases hb : b = st.allocated
        · exact Or.inr ⟨hb.ge, cls, by simp [newAtomic, setMap, setAtomic, hb]⟩
        · exact Or.inl (by simp [newAtomic, setMap, setAtomic, hb])

/-- Building a reference may make an atomic. -/
theorem grown_build {allowLate : Bool} (h : st.build guards e i allowLate = .ok st') :
    st.Grown st' := by
  rcases build_cases h with rfl | ⟨ha, -, -, -, ⟨-, rfl⟩ | ⟨key, st1, p, key', -, hget, rfl⟩⟩
  · exact .of_eq rfl rfl
  · exact .of_eq rfl rfl
  · exact (grown_getAtomic hget).trans (.of_eq rfl rfl)

/-- Computing the keys may make atomics. -/
theorem grown_getKeys {positions : List Nat} (h : st.getKeys guards e positions = .ok st') :
    st.Grown st' := by
  induction positions generalizing st with
  | nil =>
      cases h
      exact .of_eq rfl rfl
  | cons j rest ih =>
      simp only [getKeys] at h
      split at h
      · cases h
      next st1 hbuild => exact (grown_build hbuild).trans (ih h)

omit [LinearOrder K] [Inhabited K] in
/-- A request concerns one atomic. -/
theorem atomics_acquireOrWait {ha : HeldAtomic I K D} {res : Bool}
    (h : st.acquireOrWait e i ha = .ok (st', res)) (b : AtomicId) :
    (ha.atom = some (.plain b) → res = ((st.atomics b).acquireOrWait e ha.ref.wtype).2 ∧
        st'.atomics b = ((st.atomics b).acquireOrWait e ha.ref.wtype).1) ∧
      (ha.atom ≠ some (.plain b) → st'.atomics b = st.atomics b) := by
  simp only [acquireOrWait] at h
  split at h
  · cases h
  · cases h
  next key p hkey hp =>
    have hatomics : ∀ (c : Bool) (st1 : Store I K D) (ha' : HeldAtomic I K D),
        (if c then st1.setHeld e i ha' else st1).atomics = st1.atomics := by
      intro c st1 ha'
      split <;> rfl
    cases h
    rw [hatomics, hp]
    cases p with
    | plain c =>
        by_cases hcb : c = b
        · subst hcb
          exact ⟨fun _ => ⟨rfl, by simp [acquireAtomic, setAtomic, setHeld, setEvent]⟩,
            fun hne => absurd rfl hne⟩
        · have hbc : ¬ b = c := fun heq => hcb heq.symm
          refine ⟨fun heq => absurd (AtomicPtr.plain.inj (Option.some.inj heq)) hcb, fun _ => ?_⟩
          simp [acquireAtomic, setAtomic, setHeld, setEvent, hbc]
    | pooled w =>
        refine ⟨fun heq => (by cases heq), fun _ => ?_⟩
        simp only [acquireAtomic]
        split <;> rfl

/-- One turn of an acquisition builds the reference, and then it may make a request. -/
theorem visit_cases {res : Bool} (h : st.visit guards e i = .ok (st', res)) :
    ∃ st1, st.build guards e i true = .ok st1 ∧
      (st' = st1.raiseWorkingOn e i ∨
        ∃ ha, ((st1.raiseWorkingOn e i).events e).holders[i]? = some ha ∧ ha.haveit = false ∧
          (st1.raiseWorkingOn e i).acquireOrWait e i ha = .ok (st', res)) := by
  simp only [visit] at h
  split at h
  · cases h
  next st1 hbuild =>
    refine ⟨st1, hbuild, ?_⟩
    split at h
    · cases h
      exact Or.inl rfl
    next ha hi =>
      split at h
      · cases h
        exact Or.inl rfl
      next hnot =>
        simp only [Bool.or_eq_true, not_or, Bool.not_eq_true] at hnot
        exact Or.inr ⟨ha, hi, hnot.1, h⟩

end Acquisitions

section Releases

variable [LinearOrder K] {guards : GuardId → Guard}

/-- Handing a reference over touches no atomic. -/
theorem atomics_handOver {ha : HeldAtomic I K D} {p : AtomicPtr} {rel : EventId}
    (h : st.handOver guards e ha p rel = .ok st') : st'.atomics = st.atomics := by
  simp only [handOver] at h
  split at h
  · cases h
  · split at h
    · cases h
    · split at h
      · split at h
        · cases h
          rfl
        · cases h
      · cases h
        rfl

/-- Handing references over touches no atomic. -/
theorem atomics_handOverAll {ha : HeldAtomic I K D} {p : AtomicPtr} {released : List EventId}
    (h : st.handOverAll guards e ha p released = .ok st') : st'.atomics = st.atomics := by
  induction released generalizing st with
  | nil =>
      cases h
      rfl
  | cons rel rest ih =>
      simp only [handOverAll] at h
      split at h
      · cases h
      next st1 hstep => exact (ih h).trans (atomics_handOver hstep)

omit [LinearOrder K] in
/-- A wrapper gives its resource to another wrapper of the pool. -/
theorem atomics_releasePooled [Inhabited K] {w : PooledId} {released : List EventId}
    (hc : Consistent guards st) (h : st.releasePooled w = .ok (st', released)) :
    st'.atomics = st.atomics := by
  simp only [releasePooled] at h
  split at h
  next ev rest hq =>
    split at h
    · cases h
    next p hp =>
      have hwaits : st.WaitsAt (st.events ev) (.pool (st.wrappers w).pool) :=
        hc.waiting _ ev (by rw [queue, hq]; exact List.mem_cons_self)
      obtain ⟨ha, p', hget, hp', -, hqueue⟩ := hwaits
      rw [hget, Option.bind_some, hp'] at hp
      cases hp
      cases p with
      | plain b => cases hqueue
      | pooled v =>
          cases h
          rfl
  next hq =>
    cases hput : ((st.setPool (st.wrappers w).pool
        { st.pools (st.wrappers w).pool with
          dq := (st.pools (st.wrappers w).pool).dq ++ (st.wrappers w).data.toList }).setWrapper
        w { st.wrappers w with data := none }).poolPut w with
    | error err =>
        rw [hput] at h
        cases h
    | ok st1 =>
        rw [hput] at h
        cases h
        rw [atomics_poolPut hput]
        rfl

/-- One turn of a release concerns the atomic of the reference, when that holds. -/
theorem atomics_releaseAt [Inhabited K] {ha : HeldAtomic I K D} {released : List EventId}
    (hc : Consistent guards st) (hi : (st.events e).holders[i]? = some ha)
    (h : st.releaseAt guards e i = .ok (st', released)) (b : AtomicId) :
    (ha.holds b = true → released = (st.atomics b).release.2 ∧
        st'.atomics b = (st.atomics b).release.1) ∧
      (ha.holds b = false → st'.atomics b = st.atomics b) := by
  rcases releaseAt_cases h with
    ⟨hpass, rfl, rfl⟩ | ⟨ha1, p, st1, st2, hi1, hhave, hp, hrelease, hhand, hend⟩
  · refine ⟨fun hholds => ?_, fun _ => rfl⟩
    obtain ⟨hhave, hp⟩ := HeldAtomic.holds_iff.mp hholds
    rw [hpass ha hi hhave] at hp
    cases hp
  · cases hi.symm.trans hi1
    have hrest : st'.atomics = st1.atomics := by
      rw [← atomics_handOverAll hhand]
      rcases hend with ⟨st3, hcollect, rfl⟩ | ⟨-, hrelinquish⟩
      · obtain ⟨-, -, -, -, c, k, -, -, -, -, -, rfl⟩ := collect_eq_some hcollect
        rfl
      · exact (atomics_relinquish hrelinquish).trans rfl
    rw [hrest, HeldAtomic.holds, hhave, hp]
    cases p with
    | pooled w =>
        refine ⟨fun hholds => by simp at hholds, fun _ => ?_⟩
        rw [atomics_releasePooled hc hrelease]
    | plain c =>
        cases hrelease
        by_cases hcb : c = b
        · subst hcb
          exact ⟨fun _ => ⟨rfl, by simp [setAtomic]⟩, fun hnot => by simp at hnot⟩
        · have hbc : ¬ b = c := fun heq => hcb heq.symm
          exact ⟨fun hholds => by simp [hcb] at hholds, fun _ => by simp [setAtomic, hbc]⟩

end Releases

/-! ## Requests and releases keep the sharing -/

/-- What is made is not held by anybody. -/
theorem Sharing.of_grown [Inhabited K] {guards : GuardId → Guard} (h : st.Sharing a)
    (htyped : Typed guards st) (hgrown : st.Grown st') (hbefore : st.HeldBefore st' a)
    (hwaiting : ∀ x ∈ st.queue (.atomic a), st'.events x = st.events x) : st'.Sharing a := by
  rcases hgrown.atomics a with heq | ⟨hle, cls, hnew⟩
  · exact h.of_heldBefore (Or.inl heq) hbefore hwaiting
  · refine sharing_new hnew (Unheld.of_heldBefore (fun x ha hha => ?_) hbefore)
    by_contra hholds
    have hp := (HeldAtomic.holds_iff.mp (by simpa using hholds)).2
    have hlt : a < st.allocated := (htyped.referred x ha hha _ hp).1
    exact absurd hlt (Nat.not_lt.mpr hle)

/-- A request of an event that does not wait yet. -/
theorem Sharing.acquireOrWait (h : st.Sharing a) {ha : HeldAtomic I K D} {res : Bool}
    (hi : (st.events e).holders[i]? = some ha) (hwork : (st.events e).workingOn = i)
    (hnot : e ∉ st.queue (.atomic a)) (hzero : (st.atomics a).held = 0 → st.Unheld a)
    (hallocated : ∀ p, ha.atom = some p → st.Allocated p)
    (hrequest : st.acquireOrWait e i ha = .ok (st', res)) : st'.Sharing a := by
  obtain ⟨p, hp, hrequested⟩ := requested_of_acquireOrWait hallocated hrequest
  have hevent := hrequested.event
  have hwaiting : ∀ x ∈ st.queue (.atomic a), st'.events x = st.events x :=
    fun x hx => hrequested.others x fun heq => hnot (heq ▸ hx)
  -- the holders are the old ones, and the reference that is granted
  have hholders : ∀ x, ∀ hb ∈ (st'.events x).holders, hb.holds a = true →
      (∃ ha0 ∈ (st.events x).holders, ha0.holds a = true ∧ ha0.ref = hb.ref) ∨
        res = true ∧ ha.atom = some (.plain a) ∧ hb.ref = ha.ref := by
    intro x hb hhb hholds
    by_cases hx : x = e
    · subst hx
      rw [hevent] at hhb
      rcases List.mem_or_eq_of_mem_set hhb with hold | rfl
      · exact Or.inl ⟨hb, hold, hholds, rfl⟩
      · obtain ⟨hhave, hatom⟩ := HeldAtomic.holds_iff.mp hholds
        exact Or.inr ⟨hhave, hatom, rfl⟩
    · rw [hrequested.others x hx] at hhb
      exact Or.inl ⟨hb, hhb, hholds, rfl⟩
  have hatomics := atomics_acquireOrWait hrequest a
  by_cases hpa : ha.atom = some (.plain a)
  · obtain ⟨hres, hatom⟩ := hatomics.1 hpa
    refine ⟨?_, fun x hb hhb hholds => ?_, fun entry hentry hb hget => ?_⟩
    · rw [hatom]
      cases res with
      | true => exact Or.inl (Atomic.settled_of_granted hres.symm)
      | false =>
          refine h.settled.imp (Atomic.settled_of_queued hres.symm) fun hunheld => ?_
          refine hunheld.of_heldBefore fun x hb hhb hholds => ?_
          exact (hholders x hb hhb hholds).resolve_right fun hgranted => by cases hgranted.1
    · rw [hatom]
      rcases hholders x hb hhb hholds with ⟨ha0, hha0, hheld, href⟩ | ⟨hgranted, -, href⟩
      · have hne : (st.atomics a).held ≠ 0 := by
          intro hfree
          rw [hzero hfree x ha0 hha0] at hheld
          cases hheld
        rw [← href]
        exact (Atomic.mode_acquireOrWait hne).1.mpr (h.admitted x ha0 hha0 hheld)
      · rw [href]
        exact Atomic.admits_of_granted (hres.symm.trans hgranted)
    · rw [hatom] at hentry
      rcases Atomic.mem_requests_acquireOrWait hentry with hold | ⟨-, rfl⟩
      · rw [hwaiting _ (Atomic.event_mem_waiting hold)] at hget
        exact h.queued entry hold hb hget
      · have hlt := (List.getElem?_eq_some_iff.mp hi).1
        rw [hevent, hwork, List.getElem?_set_self hlt] at hget
        cases hget
        rfl
  · refine h.of_heldBefore (Or.inl (hatomics.2 hpa)) (fun x hb hhb hholds => ?_) hwaiting
    exact (hholders x hb hhb hholds).resolve_right fun hgranted => hpa hgranted.2.1

section Releases

variable [LinearOrder K] [Inhabited K] {guards : GuardId → Guard} {released : List EventId}

omit [LinearOrder K] in
/-- The references that hold an atomic after one turn of a release: those that held it
before, but for the one that is released, and those of the released events. -/
theorem holder_of_released (hc : Consistent guards st)
    (heffect : Released guards st e i st' released) {x : EventId} {hb : HeldAtomic I K D}
    (hhb : hb ∈ (st'.events x).holders) (hholds : hb.holds a = true) :
    (∃ k, (x = e → k ≠ i) ∧ (st.events x).holders[k]? = some hb) ∨
      x ∈ released ∧ ∃ h0, (st.events x).holders[(st.events x).workingOn]? = some h0 ∧
        h0.atom = some (.plain a) ∧ h0.ref = hb.ref := by
  obtain ⟨k, hk⟩ := List.getElem?_of_mem hhb
  by_cases hx : x = e
  · subst hx
    obtain ⟨ha, ha', hi, hevent, -, -, hatom⟩ := heffect.event
    rw [hevent] at hk
    by_cases hki : k = i
    · subst hki
      rw [List.getElem?_set_self (List.getElem?_eq_some_iff.mp hi).1, Option.some.injEq] at hk
      subst hk
      rw [HeldAtomic.holds_of_atom_eq_none hatom] at hholds
      cases hholds
    · exact Or.inl ⟨k, fun _ => hki, by rwa [List.getElem?_set_ne (Ne.symm hki)] at hk⟩
  · rw [heffect.others x hx] at hk
    by_cases hreleased : x ∈ released
    · obtain ⟨-, p, -, -, hqueue⟩ := heffect.waited x hreleased
      obtain ⟨h0, -, hget, -⟩ := hc.waiting _ x hqueue
      rw [if_pos hreleased, Event.taken, hget] at hk
      by_cases hw : k = (st.events x).workingOn
      · subst hw
        simp only [List.getElem?_set_self (List.getElem?_eq_some_iff.mp hget).1,
          Option.some.injEq] at hk
        subst hk
        exact Or.inr ⟨hreleased, h0, hget, (HeldAtomic.holds_iff.mp hholds).2, rfl⟩
      · exact Or.inl ⟨k, fun heq => absurd heq hx, by
          simpa [List.getElem?_set_ne (Ne.symm hw)] using hk⟩
    · rw [if_neg hreleased] at hk
      exact Or.inl ⟨k, fun heq => absurd heq hx, hk⟩

/-- One turn of a release. -/
theorem Sharing.releaseAt (h : st.Sharing a) (hc : Consistent guards st)
    (hcounted : st.Counted n) (hborn : ∀ x, n ≤ x → (st.events x).holders = [])
    (heffect : Released guards st e i st' released)
    (hnot : e ∉ st.queue (.atomic a))
    (hstay : ∀ x ∈ st'.queue (.atomic a), x ∈ st.queue (.atomic a) ∧ x ∉ released)
    (hrelease : st.releaseAt guards e i = .ok (st', released)) : st'.Sharing a := by
  obtain ⟨ha, ha', hi, hevent, -, -, hatom⟩ := heffect.event
  have hlt : ∀ {x k : Nat} {hb : HeldAtomic I K D}, (st.events x).holders[k]? = some hb → x < n := by
    intro x k hb hk
    by_contra hle
    rw [hborn x (Nat.not_lt.mp hle)] at hk
    cases hk
  have hsame : ∀ x ∈ st.queue (.atomic a), x ∉ released → st'.events x = st.events x := by
    intro x hx hkeeps
    rw [heffect.others x fun heq => hnot (heq ▸ hx), if_neg hkeeps]
  obtain ⟨hheld, hfree⟩ := atomics_releaseAt hc hi hrelease a
  by_cases hholds : ha.holds a = true
  · obtain ⟨hreleased, hnew⟩ := hheld hholds
    have hat : st.HoldsAt e i a := ⟨ha, hi, hholds⟩
    refine ⟨Or.inl ?_, fun x hb hhb hholdsb => ?_, fun entry hentry hb hget => ?_⟩
    · rw [hnew]
      refine Atomic.settled_release (h.settled.resolve_right fun hunheld => ?_)
      rw [hunheld e ha (List.mem_of_getElem? hi)] at hholds
      cases hholds
    · rw [hnew]
      rcases holder_of_released hc heffect hhb hholdsb with
        ⟨k, hne, hk⟩ | ⟨hmem, h0, hget, -, href⟩
      · by_cases hmany : (st.atomics a).held ≤ 1
        · -- nobody but the releasing reference held it
          cases hkind : st.atomics a with
          | free d => trivial
          | exclusive atom => trivial
          | readWrite atom =>
              have hcount : st.holding n a ≤ 1 := by
                have hle := hcounted a
                rw [hkind] at hle hmany
                exact le_trans hle hmany
              have hboth := HoldsAt.unique ⟨hb, hk, hholdsb⟩ hat (hlt hk) (hlt hi) hcount
              exact absurd hboth.2 (hne hboth.1)
        · exact Atomic.admits_release_of_many hmany
            (h.admitted x hb (List.mem_of_getElem? hk) hholdsb)
      · refine Atomic.admits_handed (hreleased ▸ hmem) fun entry hentry heq => ?_
        rw [← href]
        exact h.queued entry hentry h0 (heq ▸ hget)
    · rw [hnew] at hentry
      have hin : entry.event ∈ st'.queue (.atomic a) := by
        rw [queue, hnew]
        exact Atomic.event_mem_waiting hentry
      obtain ⟨hwas, hkeeps⟩ := hstay _ hin
      rw [hsame _ hwas hkeeps] at hget
      exact h.queued entry (Atomic.mem_requests_release hentry) hb hget
  · have hkept := hfree (by simpa using hholds)
    have hunchanged : ∀ x ∈ st.queue (.atomic a), x ∉ released := by
      intro x hx
      exact (hstay x (by rwa [queue, hkept])).2
    refine h.of_heldBefore (Or.inl hkept) (fun x hb hhb hholdsb => ?_)
      fun x hx => hsame x hx (hunchanged x hx)
    rcases holder_of_released hc heffect hhb hholdsb with
      ⟨k, -, hk⟩ | ⟨hmem, h0, hget, hatom0, -⟩
    · exact ⟨hb, List.mem_of_getElem? hk, hholdsb, rfl⟩
    · -- a released event waited in the queue of the atomic
      obtain ⟨-, p, -, -, hqueue⟩ := heffect.waited x hmem
      obtain ⟨h1, p1, hget1, hp1, -, hq⟩ := hc.waiting _ x hqueue
      cases hget.symm.trans hget1
      cases hatom0.symm.trans hp1
      have hin : x ∈ st.queue (.atomic a) := by
        rwa [← hq] at hqueue
      exact absurd hmem (hunchanged x hin)

/-- Building a reference that is not held makes no holder. -/
theorem heldBefore_of_build (htyped : Typed guards st)
    (hfree : ∀ ha, (st.events e).holders[i]? = some ha → ha.haveit = false) {allowLate : Bool}
    {st1 : Store I K D} (hbuild : st.build guards e i allowLate = .ok st1) :
    st.HeldBefore (st1.raiseWorkingOn e i) a := by
  have hbuilt := htyped.built hbuild
  intro x hb hhb hholds
  by_cases hx : x = e
  · subst hx
    rw [raiseWorkingOn, events_setEvent_self] at hhb
    obtain ⟨k, hk⟩ := List.getElem?_of_mem hhb
    by_cases hki : k = i
    · subst hki
      obtain ⟨-, ha, hi, hsame, -⟩ := hbuilt.held hb hk
      rw [HeldAtomic.holds_of_haveit_eq_false (hsame.trans (hfree ha hi))] at hholds
      cases hholds
    · rw [hbuilt.changed.elsewhere k hki] at hk
      exact ⟨hb, List.mem_of_getElem? hk, hholds, rfl⟩
  · rw [raiseWorkingOn, events_setEvent_ne _ hx, hbuilt.others x hx] at hhb
    exact ⟨hb, hhb, hholds, rfl⟩

omit [LinearOrder K] in
/-- An atomic that counts no holder has none, also when it was just made. -/
theorem Grown.unheld (hgrown : st.Grown st') (htyped : Typed guards st)
    (hbefore : st.HeldBefore st' a) (hzero : (st.atomics a).held = 0 → st.Unheld a)
    (hfree : (st'.atomics a).held = 0) : st'.Unheld a := by
  rcases hgrown.atomics a with heq | ⟨hle, -⟩
  · exact (hzero (heq ▸ hfree)).of_heldBefore hbefore
  · refine Unheld.of_heldBefore (fun x ha hha => ?_) hbefore
    by_contra hholds
    have hp := (HeldAtomic.holds_iff.mp (by simpa using hholds)).2
    have hlt : a < st.allocated := (htyped.referred x ha hha _ hp).1
    exact absurd hlt (Nat.not_lt.mpr hle)

/-- One turn of an acquisition. -/
theorem Sharing.visit (h : st.Sharing a) (htyped : Typed guards st)
    (hfree : ∀ ha, (st.events e).holders[i]? = some ha → ha.haveit = false)
    (hwork : (st.events e).workingOn ≤ i) (hnot : e ∉ st.queue (.atomic a))
    (hzero : (st.atomics a).held = 0 → st.Unheld a) {res : Bool}
    (hvisit : st.visit guards e i = .ok (st', res)) : st'.Sharing a := by
  obtain ⟨st1, hbuild, hend⟩ := visit_cases hvisit
  have hbuilt := htyped.built hbuild
  have hgrown : st.Grown (st1.raiseWorkingOn e i) :=
    (grown_build hbuild).trans (.of_eq rfl rfl)
  have hbefore := heldBefore_of_build (a := a) htyped hfree hbuild
  have hqueue : (st1.raiseWorkingOn e i).queue (.atomic a) = st.queue (.atomic a) := by
    rw [raiseWorkingOn, queue_setEvent, hbuilt.queue]
  have hraised : (st1.raiseWorkingOn e i).Sharing a := by
    refine h.of_grown htyped hgrown hbefore fun x hx => ?_
    have hxe : x ≠ e := fun heq => hnot (heq ▸ hx)
    rw [raiseWorkingOn, events_setEvent_ne _ hxe, hbuilt.others x hxe]
  rcases hend with rfl | ⟨ha, hi, -, hrequest⟩
  · exact hraised
  · have hi1 : (st1.events e).holders[i]? = some ha := by
      rwa [raiseWorkingOn, events_setEvent_self] at hi
    have hreferred := ((htyped.build hbuild).referred e ha (List.mem_of_getElem? hi1)).mono
      (sameShape_setEvent st1 e { st1.events e with
        workingOn := max (st1.events e).workingOn i }).extends
    refine hraised.acquireOrWait hi ?_ (hqueue ▸ hnot) (hgrown.unheld htyped hbefore hzero)
      (fun p hp => (hreferred p hp).1) hrequest
    rw [raiseWorkingOn, events_setEvent_self, hbuilt.workingOn]
    exact max_eq_right hwork

/-- The first loop of {lit}`get_keys_sort`, and the sort. -/
theorem Sharing.getKeysSort (h : st.Sharing a) (htyped : Typed guards st)
    (hfree : ∀ ha ∈ (st.events e).holders, ha.haveit = false) (hnot : e ∉ st.queue (.atomic a))
    {positions : List Nat} (hkeys : st.getKeys guards e positions = .ok st')
    {sorted : List (HeldAtomic I K D)} (hperm : sorted.Perm (st'.events e).holders) :
    (st'.setSorted e sorted).Sharing a := by
  have hkeyed := keyed_of_getKeys positions htyped.wellFormed (htyped.referred e) hkeys
  have hothers : ∀ x, x ≠ e → (st'.setSorted e sorted).events x = st.events x :=
    fun x hx => (events_setEvent_ne _ hx).trans (hkeyed.others x hx)
  refine h.of_grown htyped ((grown_getKeys hkeys).trans (.of_eq rfl rfl)) (fun x hb hhb hholds => ?_)
    fun x hx => hothers x fun heq => hnot (heq ▸ hx)
  by_cases hx : x = e
  · subst hx
    rw [setSorted, events_setEvent_self] at hhb
    have hmem : hb.haveit ∈ (st.events x).holders.map HeldAtomic.haveit := by
      rw [← hkeyed.haveit]
      exact List.mem_map_of_mem (hperm.mem_iff.mp hhb)
    obtain ⟨ha, hha, hsame⟩ := List.mem_map.mp hmem
    rw [HeldAtomic.holds_of_haveit_eq_false (hsame ▸ hfree ha hha)] at hholds
    cases hholds
  · rw [hothers x hx] at hhb
    exact ⟨hb, hhb, hholds, rfl⟩

end Releases

end Store

/-! ## What every run keeps -/

/-- The atomics of all guards are shared as their modes say, and events that are not
created have no references. -/
structure State.Shares (s : State I K D) : Prop where
  sharing : ∀ a, s.store.Sharing a
  fresh : ∀ x, s.created ≤ x → (s.store.events x).holders = []

namespace State
namespace Shares

variable [LinearOrder K] [Inhabited K] {guards : GuardId → Guard} {s t : State I K D}

omit [LinearOrder K] [Inhabited K] in
theorem of_store_eq (h : s.Shares) (hstore : t.store = s.store)
    (hcreated : t.created = s.created) : t.Shares := by
  refine ⟨fun a => ?_, fun x hx => ?_⟩
  · rw [hstore]
    exact h.sharing a
  · rw [hcreated] at hx
    rw [hstore]
    exact h.fresh x hx

omit [Inhabited K] in
/-- An atomic that counts no holder has none. -/
theorem unheld_of_held_eq_zero (h : s.Shares) (hcoll : Collecting guards s) {a : AtomicId}
    (hfree : (s.store.atomics a).held = 0) : s.store.Unheld a := by
  intro x ha hha
  by_cases hx : x < s.created
  · exact Store.holding_eq_zero ((hcoll.tracking.counted a).eq_zero hfree) hx hha
  · rw [h.fresh x (Nat.not_lt.mp hx)] at hha
    cases hha

omit [LinearOrder K] [Inhabited K] in
/-- A new event holds nothing. -/
theorem create {node : Node guards I K D} {input : I} (h : s.Shares)
    (hnot : ∀ q, s.created ∉ s.store.queue q) :
    State.Shares { s with
      store := s.store.setEvent s.created (node.newEvent input),
      created := s.created + 1,
      acquiring := (s.created, 0) :: s.acquiring } := by
  have hold : ∀ x, x ≠ s.created →
      (s.store.setEvent s.created (node.newEvent input)).events x = s.store.events x :=
    fun x hx => Store.events_setEvent_ne _ hx
  refine ⟨fun a => (h.sharing a).of_heldBefore (Or.inl rfl) (fun x hb hhb hholds => ?_)
    fun x hx => hold x fun heq => hnot _ (heq ▸ hx), fun x hx => ?_⟩
  · by_cases hx : x = s.created
    · subst hx
      rw [Store.events_setEvent_self] at hhb
      obtain ⟨ref, -, rfl⟩ := List.mem_map.mp hhb
      cases hholds
    · rw [hold x hx] at hhb
      exact ⟨hb, hhb, hholds, rfl⟩
  · rw [hold x (Nat.ne_of_gt hx)]
    exact h.fresh x (Nat.le_of_succ_le hx)

/-- One turn of an acquisition, whatever its answer. -/
theorem visit (h : s.Shares) (hinv : Invariant guards s) (hcoll : Collecting guards s)
    {e : EventId} {i : Nat} {st : Store I K D} {res : Bool} (hcall : (e, i) ∈ s.acquiring)
    (hlt : i < (s.store.events e).holders.length)
    (hvisit : s.store.visit guards e i = .ok (st, res)) (acquiring : List (EventId × Nat)) :
    State.Shares { s with store := st, acquiring := acquiring } := by
  have hcall' : s.has e (.acquiring i) := hcall
  have hok := hinv.status e _ hcall'
  have hvisited := hinv.typed.visited hlt hvisit
  have hnot : ∀ q, e ∉ s.store.queue q := by
    intro q hq
    have hwaits : s.has e (.waiting q) := hq
    cases hinv.status_unique hcall' hwaits
  refine ⟨fun a => (h.sharing a).visit hinv.typed (fun ha => hok.2.2.2.2 i ha le_rfl) hok.1
    (hnot _) (h.unheld_of_held_eq_zero hcoll) hvisit, fun x hx => ?_⟩
  have hxe : x ≠ e := fun heq => absurd (hinv.lt_created hcall') (Nat.not_lt.mpr (heq ▸ hx))
  exact (congrArg Event.holders (hvisited.others x hxe)).trans (h.fresh x hx)

omit [LinearOrder K] [Inhabited K] in
/-- Writing data changes no holder. -/
theorem write (h : s.Shares) (p : AtomicPtr) (d : Option D) :
    State.Shares { s with store := s.store.setData p d } := by
  have hevents : (s.store.setData p d).events = s.store.events := Store.events_setData p d
  refine ⟨fun a => ?_, fun x hx => ?_⟩
  · refine (h.sharing a).of_heldBefore ?_ (fun x hb hhb hholds => ?_) fun x _ => by rw [hevents]
    · cases p with
      | pooled w => exact Or.inl rfl
      | plain b =>
          by_cases hab : a = b
          · exact Or.inr ⟨d, by simp [Store.setData, Store.setAtomic, hab]⟩
          · exact Or.inl (by simp [Store.setData, Store.setAtomic, hab])
    · rw [hevents] at hhb
      exact ⟨hb, hhb, hholds, rfl⟩
  · rw [hevents]
    exact h.fresh x hx

/-- A release leaves an atomic with holders that may share it. -/
theorem releaseAt (h : s.Shares) (hinv : Invariant guards s) (hcoll : Collecting guards s)
    {x : Execution} {i : Nat} {st : Store I K D} {released : List EventId}
    (hx : x ∈ s.executing) (hleft : x.releasing = some (i + 1))
    (hrelease : s.store.releaseAt guards x.event i = .ok (st, released))
    (executing : List Execution) (acquiring : List (EventId × Nat)) :
    State.Shares { s with store := st, executing := executing, acquiring := acquiring } := by
  have hcall' : s.has x.event (.executing x) := ⟨hx, rfl⟩
  have heffect := hinv.released_of_releaseAt hx hleft hrelease
  refine ⟨fun a => ?_, fun y hy => ?_⟩
  · refine (h.sharing a).releaseAt hinv.consistent hcoll.tracking.counted h.fresh heffect ?_
      (fun y hy => hinv.waiting_of_released heffect hy) hrelease
    intro hq
    have hwaits : s.has x.event (.waiting (.atomic a)) := hq
    cases hinv.status_unique hcall' hwaits
  · have hne : y ≠ x.event :=
      fun heq => absurd (hinv.lt_created hcall') (Nat.not_lt.mpr (heq ▸ hy))
    have hkeeps : y ∉ released := by
      intro hmem
      obtain ⟨-, p, -, -, hqueue⟩ := heffect.waited y hmem
      have hwaits : s.has y (.waiting (s.store.queueOf p)) := hqueue
      exact absurd (hinv.lt_created hwaits) (Nat.not_lt.mpr hy)
    have hsame := heffect.others y hne
    rw [if_neg hkeeps] at hsame
    exact (congrArg Event.holders hsame).trans (h.fresh y hy)

theorem step {a : Action} (h : s.Shares) (hinv : Invariant guards s)
    (hcoll : Collecting guards s) (hstep : Step guards s a t) : t.Shares := by
  cases hstep with
  | create node input =>
      refine h.create fun q hq => ?_
      have hwaits : s.has s.created (.waiting q) := hq
      exact absurd (hinv.lt_created hwaits) (Nat.lt_irrefl _)
  | getKeysSort hcall hnew hkeys hsort =>
      next e st sorted =>
      have hcall' : s.has e (.acquiring 0) := hcall
      have hperm : sorted.Perm (st.events e).holders := by
        split at hsort
        · exact List.Perm.of_eq hsort
        · exact hsort.1
      have hfree : ∀ ha ∈ (s.store.events e).holders, ha.haveit = false := by
        intro ha hha
        obtain ⟨j, hj⟩ := List.getElem?_of_mem hha
        exact (hinv.status e _ hcall').2.2.2.2 j ha (Nat.zero_le j) hj
      have hkeyed := Store.keyed_of_getKeys _ hinv.typed.wellFormed (hinv.typed.referred e) hkeys
      have hnot : ∀ q, e ∉ s.store.queue q := by
        intro q hq
        have hwaits : s.has e (.waiting q) := hq
        cases hinv.status_unique hcall' hwaits
      refine ⟨fun b => (h.sharing b).getKeysSort hinv.typed hfree (hnot _) hkeys hperm,
        fun x hx => ?_⟩
      have hxe : x ≠ e := fun heq => absurd (hinv.lt_created hcall') (Nat.not_lt.mpr (heq ▸ hx))
      rw [Store.setSorted, Store.events_setEvent_ne _ hxe, hkeyed.others x hxe]
      exact h.fresh x hx
  | acquired hcall hsorted hlt hvisit =>
      exact h.visit hinv hcoll hcall hlt hvisit _
  | queued hcall hsorted hlt hvisit =>
      exact h.visit hinv hcoll hcall hlt hvisit _
  | ready hcall hsorted hend => exact h.of_store_eq rfl rfl
  | start hrunnable => exact h.of_store_eq rfl rfl
  | write hx hrunning hi hheld hp d => exact h.write _ d
  | beginRelease hx hrunning isLast => exact h.of_store_eq rfl rfl
  | releaseAt hx hleft hrelease => exact h.releaseAt hinv hcoll hx hleft hrelease _ _
  | releasedEarly hx hleft hlast => exact h.of_store_eq rfl rfl
  | finish hx hleft hlast => exact h.of_store_eq rfl rfl

omit [LinearOrder K] in
theorem of_initial (h : Initial guards s) : s.Shares := by
  refine ⟨fun a => ⟨Or.inr fun x ha hha => ?_, fun x ha hha => ?_, fun entry hentry => ?_⟩,
    fun x _ => h.events x⟩
  · rw [h.events] at hha
    cases hha
  · rw [h.events] at hha
    cases hha
  · have hin : entry.event ∈ s.store.queue (.atomic a) := Atomic.event_mem_waiting hentry
    rw [h.queues] at hin
    cases hin

theorem of_reachable (h : (system I K D guards).Reachable s) : s.Shares := by
  have hkeep : ∀ s a t, (Invariant guards s ∧ Collecting guards s ∧ s.Shares) →
      (system I K D guards).step s a t →
        Invariant guards t ∧ Collecting guards t ∧ t.Shares :=
    fun _ _ _ hs hstep => ⟨hs.1.step hstep, hs.2.1.step hs.1 hstep,
      hs.2.2.step hs.1 hs.2.1 hstep⟩
  have hinit : ∀ s, (system I K D guards).init s →
      Invariant guards s ∧ Collecting guards s ∧ s.Shares :=
    fun _ hinit => ⟨.of_initial hinit, .of_initial hinit, of_initial hinit⟩
  exact (TransitionSystem.Reachable.invariant hinit hkeep h).2.2

omit [LinearOrder K] [Inhabited K] in
/-- An event with a reference is one of those that were created. -/
theorem lt_created (h : s.Shares) {x : EventId} {j : Nat} {a : AtomicId}
    (hx : s.store.HoldsAt x j a) : x < s.created := by
  by_contra hle
  have hlt := hx.lt_length
  rw [h.fresh x (Nat.not_lt.mp hle)] at hlt
  exact absurd hlt (Nat.not_lt_zero j)

omit [Inhabited K] in
/-- Of an atomic that is not shared there is one holder. -/
theorem unique_of_alone (h : s.Shares) (hcoll : Collecting guards s) {x y : EventId} {j k : Nat}
    {a : AtomicId} (halone : (s.store.atomics a).Alone) (hx : s.store.HoldsAt x j a)
    (hy : s.store.HoldsAt y k a) : x = y ∧ j = k := by
  refine hx.unique hy (h.lt_created hx) (h.lt_created hy) ?_
  have hcount := hcoll.tracking.counted a
  have hsettled : (s.store.atomics a).Settled := by
    refine (h.sharing a).settled.resolve_right fun hunheld => ?_
    obtain ⟨ha, hj, hholds⟩ := hx
    rw [hunheld x ha (List.mem_of_getElem? hj)] at hholds
    cases hholds
  cases hkind : s.store.atomics a with
  | free d =>
      rw [hkind] at halone
      exact halone.elim
  | exclusive atom =>
      rw [hkind] at hcount
      exact hcount.2
  | readWrite atom =>
      rw [hkind] at hcount halone hsettled
      exact le_trans hcount (hsettled halone)

end Shares
end State

/-! ## Two holders of one atomic -/

/-- A reference that holds the atomic with that mode may have others beside it. -/
def Atomic.Shares (wtype : Nat) : Atomic D → Prop
  | .free _ => True
  | .exclusive _ => False
  | .readWrite atom =>
      atom.mode = WType.read ∧ (wtype = WType.read ∨ wtype = WType.upgradeable)

section Main

variable [LinearOrder K] [Inhabited K] {guards : GuardId → Guard} {s t : State I K D}

/-- In every reachable state two references that hold the same atomic, of one event or of
two, share it: the guard is free, or both of them read. -/
theorem holders_share (h : (system I K D guards).Reachable s) {x y : EventId} {j k : Nat}
    {a : AtomicId} {ha hb : HeldAtomic I K D} (hj : (s.store.events x).holders[j]? = some ha)
    (hk : (s.store.events y).holders[k]? = some hb) (hholdsa : ha.holds a = true)
    (hholdsb : hb.holds a = true) (hne : (x, j) ≠ (y, k)) :
    (s.store.atomics a).Shares ha.ref.wtype ∧ (s.store.atomics a).Shares hb.ref.wtype := by
  have hshares := State.Shares.of_reachable h
  have hnot : ¬ (s.store.atomics a).Alone := by
    intro halone
    obtain ⟨rfl, rfl⟩ := hshares.unique_of_alone (Collecting.of_reachable h) halone
      ⟨ha, hj, hholdsa⟩ ⟨hb, hk, hholdsb⟩
    exact hne rfl
  have hadmits := (hshares.sharing a).admitted
  have hadmita := hadmits x ha (List.mem_of_getElem? hj) hholdsa
  have hadmitb := hadmits y hb (List.mem_of_getElem? hk) hholdsb
  cases hkind : s.store.atomics a with
  | free d => exact ⟨trivial, trivial⟩
  | exclusive atom =>
      rw [hkind] at hnot
      exact absurd trivial hnot
  | readWrite atom =>
      rw [hkind] at hnot hadmita hadmitb
      have hmode : atom.mode = WType.read := not_not.mp hnot
      exact ⟨⟨hmode, hadmita hmode⟩, hmode, hadmitb hmode⟩

/-- A node with one read/write guard that has no key. -/
def modeNode (wtype : Nat) : Node (keyedGuards .readWrite) Unit Nat Unit where
  guardRefs := [{
    guard := 0, guardFn := none, wtype := wtype, isLate := false, lexicalIndex := 0 }]
  ascending := by simp
  poolMode := by simp [keyedGuards]

/-- An event that writes. -/
def writerSchedule : List (Command (keyedGuards .readWrite) Unit Nat Unit) := [
  .create (modeNode WType.write) (), .getKeysSort 0, .visit 0 0, .ready 0 1, .start 0]

/-- Two events that read what another one writes. -/
def readersSchedule : List (Command (keyedGuards .readWrite) Unit Nat Unit) := [
  .create (modeNode WType.read) (), .getKeysSort 1, .visit 1 0,
  .create (modeNode WType.read) (), .getKeysSort 2, .visit 2 0,
  .beginRelease { event := 0 } true,
  .releaseAt { event := 0, releasing := some 1, isLast := true } 0]

omit [LinearOrder K] [Inhabited K] in
/-- Does the first reference of an event hold the first atomic? -/
def State.holdsFirst (s : State I K D) (x : EventId) : Bool :=
  match (s.store.events x).holders with
  | ha :: _ => ha.holds 0
  | [] => false

omit [LinearOrder K] [Inhabited K] in
/-- The first reference of an event that holds it. -/
theorem State.exists_of_holdsFirst {x : EventId} (h : s.holdsFirst x = true) :
    ∃ ha, (s.store.events x).holders[0]? = some ha ∧ ha.holds 0 = true := by
  rw [State.holdsFirst] at h
  split at h
  next ha rest hholders => exact ⟨ha, by rw [hholders]; rfl, h⟩
  · cases h

/-- Both readers are handed what the writer releases. -/
theorem holders_share_readers :
    ∃ step ∈ (State.empty Unit Nat Unit).runOf (writerSchedule ++ readersSchedule),
      (step.2.store.atomics 0).held = 2 ∧ ∃ w, (step.2.store.atomics 0).Shares w := by
  have hend : ∃ step ∈ (State.empty Unit Nat Unit).runOf (writerSchedule ++ readersSchedule),
      (step.2.store.atomics 0).held = 2 ∧ step.2.holdsFirst 1 = true ∧
        step.2.holdsFirst 2 = true := by decide
  obtain ⟨step, hstep, hheld, hfirst, hsecond⟩ := hend
  have hreach := State.reachable_of_mem_runOf (keyedGuards_injective _)
    (.init (initial_empty_keyedGuards _)) hstep
  obtain ⟨ha, hj, hholdsa⟩ := State.exists_of_holdsFirst hfirst
  obtain ⟨hb, hk, hholdsb⟩ := State.exists_of_holdsFirst hsecond
  exact ⟨step, hstep, hheld, _, (holders_share hreach hj hk hholdsa hholdsb (by decide)).1⟩

/-! ## The data of an atomic that is held alone -/

/-- What a step leaves of an atomic that one reference holds alone: only a write through
that reference changes the data. -/
structure KeptAlone (s t : State I K D) (act : Action) (e : EventId) (i : Nat)
    (ha : HeldAtomic I K D) (a : AtomicId) : Prop where
  holder : (t.store.events e).holders[i]? = some ha
  data : act ≠ .write e i → (t.store.atomics a).data = (s.store.atomics a).data
  alone : (t.store.atomics a).Alone

section Kept

variable {e : EventId} {i : Nat} {ha : HeldAtomic I K D} {a : AtomicId} {act : Action}

omit [LinearOrder K] [Inhabited K] in
theorem KeptAlone.of_atomics_eq (halone : (s.store.atomics a).Alone)
    (hatom : t.store.atomics a = s.store.atomics a)
    (hi : (t.store.events e).holders[i]? = some ha) : KeptAlone s t act e i ha a :=
  ⟨hi, fun _ => by rw [hatom], by rwa [hatom]⟩

/-- Requests of others on the atomic are queued. -/
theorem keptAlone_of_visit (hinv : Invariant guards s) (hcoll : Collecting guards s)
    (hshares : s.Shares) (hi : (s.store.events e).holders[i]? = some ha)
    (hholds : ha.holds a = true) (halone : (s.store.atomics a).Alone) {y : EventId} {j : Nat}
    {st : Store I K D} {res : Bool} (hcall : (y, j) ∈ s.acquiring)
    (hlt : j < (s.store.events y).holders.length)
    (hvisit : s.store.visit guards y j = .ok (st, res)) (acquiring : List (EventId × Nat)) :
    KeptAlone s { s with store := st, acquiring := acquiring } act e i ha a := by
  have hcall' : s.has y (.acquiring j) := hcall
  have hvisited := hinv.typed.visited hlt hvisit
  obtain ⟨hhave, hp⟩ := HeldAtomic.holds_iff.mp hholds
  have hallocated : a < s.store.allocated :=
    (hinv.typed.referred e ha (List.mem_of_getElem? hi) _ hp).1
  have hholder : (st.events e).holders[i]? = some ha := by
    by_cases hy : e = y
    · subst hy
      rw [hvisited.changed.elsewhere i ?_]
      · exact hi
      · rintro rfl
        have hfree := (hinv.status e _ hcall').2.2.2.2 i ha le_rfl hi
        rw [hhave] at hfree
        cases hfree
    · rw [hvisited.others e hy]
      exact hi
  obtain ⟨st1, hbuild, hend⟩ := Store.visit_cases hvisit
  have hsame : (st1.raiseWorkingOn y j).atomics a = s.store.atomics a := by
    rcases (Store.grown_build hbuild).atomics a with heq | ⟨hle, -⟩
    · exact heq
    · exact absurd hallocated (Nat.not_lt.mpr hle)
  rcases hend with rfl | ⟨hb, -, -, hrequest⟩
  · exact .of_atomics_eq halone hsame hholder
  · have hatomics := Store.atomics_acquireOrWait hrequest a
    rw [hsame] at hatomics
    by_cases hpb : hb.atom = some (.plain a)
    · have hne : (s.store.atomics a).held ≠ 0 := by
        intro hzero
        have hnone := hshares.unheld_of_held_eq_zero hcoll hzero e ha (List.mem_of_getElem? hi)
        rw [hnone] at hholds
        cases hholds
      have hatom := (hatomics.1 hpb).2
      refine ⟨hholder, fun _ => ?_, ?_⟩
      · exact (congrArg Atomic.data hatom).trans Atomic.data_acquireOrWait
      · show (st.atomics a).Alone
        rw [hatom]
        exact (Atomic.mode_acquireOrWait (w := 0) hne).2.mpr halone
    · exact .of_atomics_eq halone (hatomics.2 hpb) hholder

/-- A release of something else leaves the holder alone with its atomic. -/
theorem keptAlone_of_releaseAt (hinv : Invariant guards s) (hcoll : Collecting guards s)
    (hshares : s.Shares) (hi : (s.store.events e).holders[i]? = some ha)
    (hholds : ha.holds a = true) (halone : (s.store.atomics a).Alone) {x : Execution} {k : Nat}
    {st : Store I K D} {released : List EventId} (hx : x ∈ s.executing)
    (hleft : x.releasing = some (k + 1)) (hother : x.event = e → k ≠ i)
    (hrelease : s.store.releaseAt guards x.event k = .ok (st, released))
    (executing : List Execution) (acquiring : List (EventId × Nat)) :
    KeptAlone s { s with store := st, executing := executing, acquiring := acquiring }
      act e i ha a := by
  have heffect := hinv.released_of_releaseAt hx hleft hrelease
  obtain ⟨hb, hb', hk, hevent, -, -, -⟩ := heffect.event
  have hnot : hb.holds a = false := by
    by_contra hholdsb
    have hboth := hshares.unique_of_alone hcoll halone ⟨hb, hk, by simpa using hholdsb⟩
      ⟨ha, hi, hholds⟩
    exact hother hboth.1 hboth.2
  refine .of_atomics_eq halone ((Store.atomics_releaseAt hinv.consistent hk hrelease a).2 hnot) ?_
  show (st.events e).holders[i]? = some ha
  by_cases hxe : e = x.event
  · subst hxe
    rw [hevent, List.getElem?_set_ne (hother rfl)]
    exact hi
  · rw [heffect.others e hxe]
    split
    next hmem =>
      -- the reference at which a released event waits is not held
      obtain ⟨-, p, -, -, hqueue⟩ := heffect.waited e hmem
      obtain ⟨h0, -, hget, -, hfree, -⟩ := hinv.consistent.waiting _ e hqueue
      have hne : (s.store.events e).workingOn ≠ i := by
        rintro rfl
        cases hi.symm.trans hget
        rw [HeldAtomic.holds_of_haveit_eq_false hfree] at hholds
        cases hholds
      simp only [Event.taken, hget, List.getElem?_set_ne hne]
      exact hi
    · exact hi

/-- Computing and sorting keys leaves the holder alone with its atomic: an event that has
something computes no keys. -/
theorem keptAlone_of_getKeysSort (hinv : Invariant guards s)
    (hi : (s.store.events e).holders[i]? = some ha) (hholds : ha.holds a = true)
    (halone : (s.store.atomics a).Alone) {y : EventId} {st : Store I K D}
    (hcall : (y, 0) ∈ s.acquiring)
    (hkeys : s.store.getKeys guards y (List.range (s.store.events y).holders.length) = .ok st)
    (sorted : List (HeldAtomic I K D)) :
    KeptAlone s { s with store := st.setSorted y sorted } act e i ha a := by
  obtain ⟨hhave, hp⟩ := HeldAtomic.holds_iff.mp hholds
  have hallocated : a < s.store.allocated :=
    (hinv.typed.referred e ha (List.mem_of_getElem? hi) _ hp).1
  have hcall' : s.has y (.acquiring 0) := hcall
  have hne : e ≠ y := by
    rintro rfl
    have hfree := (hinv.status e _ hcall').2.2.2.2 i ha (Nat.zero_le i) hi
    rw [hhave] at hfree
    cases hfree
  have hkeyed := Store.keyed_of_getKeys _ hinv.typed.wellFormed (hinv.typed.referred y) hkeys
  refine .of_atomics_eq halone ?_ ?_
  · rcases (Store.grown_getKeys hkeys).atomics a with heq | ⟨hle, -⟩
    · exact heq
    · exact absurd hallocated (Nat.not_lt.mpr hle)
  · show ((st.setSorted y sorted).events e).holders[i]? = some ha
    rw [Store.setSorted, Store.events_setEvent_ne _ hne, hkeyed.others e hne]
    exact hi

omit [Inhabited K] in
/-- A write leaves the holder alone with its atomic, and changes the data only when it is the
holder's: who writes through a reference to the atomic is its only holder. -/
theorem keptAlone_of_write (hcoll : Collecting guards s) (hshares : s.Shares)
    (hi : (s.store.events e).holders[i]? = some ha) (hholds : ha.holds a = true)
    (halone : (s.store.atomics a).Alone) {y : EventId} {j : Nat} {hb : HeldAtomic I K D}
    {p : AtomicPtr} (hj : (s.store.events y).holders[j]? = some hb) (hheld : hb.haveit = true)
    (hp : hb.atom = some p) (d : Option D) :
    KeptAlone s { s with store := s.store.setData p d } (.write y j) e i ha a := by
  have hholder : ((s.store.setData p d).events e).holders[i]? = some ha := by
    rw [Store.events_setData]
    exact hi
  by_cases hpa : p = .plain a
  · subst hpa
    have hboth := hshares.unique_of_alone hcoll halone
      ⟨hb, hj, HeldAtomic.holds_iff.mpr ⟨hheld, hp⟩⟩ ⟨ha, hi, hholds⟩
    refine ⟨hholder, fun hwrite => absurd (by rw [hboth.1, hboth.2]) hwrite, ?_⟩
    show ((s.store.setData (.plain a) d).atomics a).Alone
    simpa [Store.setData, Store.setAtomic] using halone
  · refine .of_atomics_eq halone ?_ hholder
    cases p with
    | pooled w => rfl
    | plain b =>
        have hba : a ≠ b := fun hab => hpa (by rw [hab])
        simp [Store.setData, Store.setAtomic, hba]

/-- Until its own release the holder stays alone with its atomic. -/
theorem keptAlone_of_step (hinv : Invariant guards s)
    (hcoll : Collecting guards s) (hshares : s.Shares)
    (hi : (s.store.events e).holders[i]? = some ha) (hholds : ha.holds a = true)
    (halone : (s.store.atomics a).Alone) (hstep : Step guards s act t)
    (hrelease : act ≠ .releaseAt e i) : KeptAlone s t act e i ha a := by
  cases hstep with
  | create node input =>
      refine .of_atomics_eq halone rfl ?_
      show ((s.store.setEvent s.created (node.newEvent input)).events e).holders[i]? = some ha
      rw [Store.events_setEvent_ne _ (hshares.lt_created ⟨ha, hi, hholds⟩).ne]
      exact hi
  | getKeysSort hcall hnew hkeys hsort =>
      exact keptAlone_of_getKeysSort hinv hi hholds halone hcall hkeys _
  | acquired hcall hsorted hlen hvisit =>
      exact keptAlone_of_visit hinv hcoll hshares hi hholds halone hcall hlen hvisit _
  | queued hcall hsorted hlen hvisit =>
      exact keptAlone_of_visit hinv hcoll hshares hi hholds halone hcall hlen hvisit _
  | write hx hrunning hk hheld hq d =>
      exact keptAlone_of_write hcoll hshares hi hholds halone hk hheld hq d
  | releaseAt hx hleft hrel =>
      next x k st released =>
      refine keptAlone_of_releaseAt hinv hcoll hshares hi hholds halone hx hleft ?_ hrel _ _
      rintro rfl rfl
      exact hrelease rfl
  | ready hcall hsorted hend => exact .of_atomics_eq halone rfl hi
  | start hrunnable => exact .of_atomics_eq halone rfl hi
  | beginRelease hx hrunning isLast => exact .of_atomics_eq halone rfl hi
  | releasedEarly hx hleft hlast => exact .of_atomics_eq halone rfl hi
  | finish hx hleft hlast => exact .of_atomics_eq halone rfl hi

/-- From the state in which a reference holds an atomic alone, along every run that does not
release that reference, it is the only holder, and only a write of its event through it
changes the data. -/
theorem data_kept_while_held {path : List (Action × State I K D)}
    (h : (system I K D guards).Reachable s) (hi : (s.store.events e).holders[i]? = some ha)
    (hholds : ha.holds a = true) (halone : (s.store.atomics a).Alone)
    (hrun : (system I K D guards).Run s path) (hpath : ∀ p ∈ path, p.1 ≠ .releaseAt e i) :
    TransitionSystem.StatesMeet (fun t => (t.store.events e).holders[i]? = some ha ∧
      ∀ x j, t.store.HoldsAt x j a → x = e ∧ j = i) path ∧
    TransitionSystem.StepsMeet (fun s act t => act ≠ .write e i →
      (t.store.atomics a).data = (s.store.atomics a).data) s path := by
  induction hrun with
  | nil s => simp
  | @cons s t act rest hstep _ ih =>
      have hkept := keptAlone_of_step (Invariant.of_reachable h) (Collecting.of_reachable h)
        (.of_reachable h) hi hholds halone hstep (hpath _ List.mem_cons_self)
      have ht := h.step hstep
      have hrest := ih ht hkept.holder hkept.alone fun q hq =>
        hpath q (List.mem_cons_of_mem _ hq)
      rw [TransitionSystem.statesMeet_cons, TransitionSystem.stepsMeet_cons]
      refine ⟨⟨⟨hkept.holder, fun x j hx => ?_⟩, hrest.1⟩, hkept.data, hrest.2⟩
      exact (State.Shares.of_reachable ht).unique_of_alone (Collecting.of_reachable ht)
        hkept.alone hx ⟨ha, hkept.holder, hholds⟩

end Kept

/-- The writer assigns the data while the readers begin to wait. -/
def assigningSchedule : List (Command (keyedGuards .readWrite) Unit Nat Unit) :=
  readersSchedule.take 3 ++ [.write { event := 0 } 0 (some ())] ++
    (readersSchedule.drop 3).take 3

/-- The readers wait while the writer executes, and the data changes by its assignment. -/
theorem data_kept_while_held_writer :
    ∃ step ∈ (State.empty Unit Nat Unit).runOf writerSchedule,
      (step.2.store.atomics 0).data = none ∧
      (∃ p ∈ step.2.runOf assigningSchedule, p.2.store.queue (.atomic 0) = [1, 2] ∧
        (p.2.store.atomics 0).data = some () ∧
        ∀ x j, p.2.store.HoldsAt x j 0 → x = 0 ∧ j = 0) ∧
      TransitionSystem.StepsMeet (fun s act t => act ≠ .write 0 0 →
        (t.store.atomics 0).data = (s.store.atomics 0).data) step.2
        (step.2.runOf assigningSchedule) := by
  have hend : ∃ step ∈ (State.empty Unit Nat Unit).runOf writerSchedule,
      step.2.holdsFirst 0 = true ∧ (step.2.store.atomics 0).Alone ∧
        (step.2.store.atomics 0).data = none ∧
        (∃ p ∈ step.2.runOf assigningSchedule, p.2.store.queue (.atomic 0) = [1, 2] ∧
          (p.2.store.atomics 0).data = some ()) ∧
        ∀ p ∈ step.2.runOf assigningSchedule, p.1 ≠ .releaseAt 0 0 := by
    decide
  obtain ⟨step, hstep, hfirst, halone, hnone, ⟨p, hp, hqueue, hdata⟩, hactions⟩ := hend
  have hreach := State.reachable_of_mem_runOf (keyedGuards_injective _)
    (.init (initial_empty_keyedGuards _)) hstep
  obtain ⟨ha, hi, hholds⟩ := State.exists_of_holdsFirst hfirst
  have hrun := State.run_runOf (keyedGuards_injective _) step.2 assigningSchedule
  have hkept := data_kept_while_held hreach hi hholds halone hrun hactions
  exact ⟨step, hstep, hnone, ⟨p, hp, hqueue, hdata, (hkept.1 p hp).2⟩, hkept.2⟩

end Main

end Guards
end OFlux
