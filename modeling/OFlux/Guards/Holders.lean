import OFlux.Guards.ReleaseEffect
import Mathlib.Algebra.BigOperators.Group.Finset.Basic
import Mathlib.Algebra.BigOperators.Group.Finset.Piecewise

/-!
# Counting the holders of an atomic

An atomic counts its holders; the events have the references that hold it.  The count
of the atomic is never below the number of these references, so an atomic that says it
has no holder has none.

Main results:

- Theorem {lit}`bounds_acquireOrWait`, {lit}`bounds_release`: requests and releases
  keep the count above the number of holders.
- Theorem {lit}`holding_of_set`, {lit}`holding_of_taken`: what becomes of the number of
  holders when a reference changes, and when an atomic is handed over.
-/

namespace OFlux
namespace Guards

variable {I K D : Type}

/-! ## The count of an atomic -/

namespace Atomic

/-- The atomic knows of that many holders; a free one does not count them. -/
def Bounds (count : Nat) : Atomic D → Prop
  | .free _ => True
  | .exclusive atom => count ≤ atom.held ∧ count ≤ 1
  | .readWrite atom => count ≤ atom.held

variable {atom : Atomic D} {count : Nat}

/-- Nobody is within every bound. -/
theorem bounds_zero (atom : Atomic D) : atom.Bounds 0 := by
  cases atom <;> simp [Bounds]

@[simp]
theorem bounds_setData (d : Option D) : (atom.setData d).Bounds count ↔ atom.Bounds count := by
  cases atom <;> rfl

/-- An atomic that is not held has no holder. -/
theorem Bounds.eq_zero (h : atom.Bounds count) (hheld : atom.held = 0) : count = 0 := by
  cases atom with
  | free d => simp [held] at hheld
  | exclusive atom =>
      have hle := h.1
      simp only [held] at hheld
      omega
  | readWrite atom =>
      simp only [held] at hheld
      simp only [Bounds] at h
      omega

/-- A granted request counts one holder more. -/
theorem bounds_acquireOrWait (h : atom.Bounds count) (ev : EventId) (wtype : Nat) :
    (atom.acquireOrWait ev wtype).1.Bounds
      (count + if (atom.acquireOrWait ev wtype).2 then 1 else 0) := by
  cases atom with
  | free d => trivial
  | exclusive atom =>
      simp only [Bounds] at h
      simp only [acquireOrWait, AtomicExclusive.acquireOrWait]
      by_cases hfree : atom.held = 0
      · simp only [hfree, if_true, Prod.map, id, Bounds]
        omega
      · simp only [hfree, if_false, Prod.map, id, Bounds, Bool.false_eq_true]
        omega
  | readWrite atom =>
      simp only [Bounds] at h
      simp only [acquireOrWait, AtomicReadWrite.acquireOrWait]
      by_cases hfree : atom.held = 0
      · simp only [hfree, if_true, Prod.map, id, Bounds]
        omega
      · simp only [hfree, if_false]
        by_cases hjoins : atom.mode = WType.read ∧ atom.waiters = [] ∧
            atom.joinsReaders wtype = true
        · simp only [hjoins, and_self, if_true, Prod.map, id, Bounds]
          omega
        · simp only [hjoins, if_false, Prod.map, id, Bounds, Bool.false_eq_true]
          omega

/-- One holder leaves, and the events that are handed back become holders. -/
theorem bounds_release (h : atom.Bounds count) (hpos : 0 < count) :
    atom.release.1.Bounds (count - 1 + atom.release.2.length) := by
  cases atom with
  | free d => trivial
  | exclusive atom =>
      simp only [Bounds] at h
      simp only [release, AtomicExclusive.release]
      split
      · simp only [Prod.map, id, Bounds, List.length_nil]
        omega
      · simp only [Prod.map, id, Bounds, List.length_cons, List.length_nil]
        omega
  | readWrite atom =>
      simp only [Bounds] at h
      simp only [release, AtomicReadWrite.release]
      split
      next hlast =>
        split
        · simp only [Prod.map, id, Bounds, List.length_nil]
          omega
        · split
          · simp only [Prod.map, id, Bounds, List.length_cons, List.length_map]
            omega
          · simp only [Prod.map, id, Bounds, List.length_cons, List.length_nil]
            omega
      next hlast =>
        simp only [Prod.map, id, Bounds, List.length_nil]
        omega

end Atomic

/-! ## The references that hold an atomic -/

/-- The reference holds that atomic. -/
def HeldAtomic.holds (a : AtomicId) (ha : HeldAtomic I K D) : Bool :=
  ha.haveit && ha.atom == some (.plain a)

/-- A reference holds the atomic that it has. -/
theorem HeldAtomic.holds_iff {a : AtomicId} {ha : HeldAtomic I K D} :
    ha.holds a = true ↔ ha.haveit = true ∧ ha.atom = some (.plain a) := by
  simp [holds]

/-- A reference without an atomic holds none. -/
theorem HeldAtomic.holds_of_atom_eq_none {a : AtomicId} {ha : HeldAtomic I K D}
    (h : ha.atom = none) : ha.holds a = false := by
  simp [holds, h]

/-- A reference that has nothing holds nothing. -/
theorem HeldAtomic.holds_of_haveit_eq_false {a : AtomicId} {ha : HeldAtomic I K D}
    (h : ha.haveit = false) : ha.holds a = false := by
  simp [holds, h]

namespace Store

variable {st st' : Store I K D} {e : EventId} {i n : Nat} {a : AtomicId}

/-- How many references of the first {lit}`n` events hold an atomic. -/
def holding (st : Store I K D) (n : Nat) (a : AtomicId) : Nat :=
  ∑ e ∈ Finset.range n, (st.events e).holders.countP (HeldAtomic.holds a)

theorem holding_congr
    (h : ∀ e, e < n → (st'.events e).holders.countP (HeldAtomic.holds a) =
      (st.events e).holders.countP (HeldAtomic.holds a)) :
    st'.holding n a = st.holding n a :=
  Finset.sum_congr rfl fun e he => h e (Finset.mem_range.mp he)

/-- The same events hold the same. -/
theorem holding_of_events (h : st'.events = st.events) : st'.holding n a = st.holding n a :=
  holding_congr fun e _ => by rw [h]

/-- One event changes. -/
theorem holding_of_event (he : e < n) (hothers : ∀ x, x ≠ e → st'.events x = st.events x) :
    st'.holding n a + (st.events e).holders.countP (HeldAtomic.holds a) =
      st.holding n a + (st'.events e).holders.countP (HeldAtomic.holds a) := by
  have hmem : e ∈ Finset.range n := Finset.mem_range.mpr he
  have hnew := Finset.add_sum_erase (Finset.range n)
    (fun x => (st'.events x).holders.countP (HeldAtomic.holds a)) hmem
  have hold := Finset.add_sum_erase (Finset.range n)
    (fun x => (st.events x).holders.countP (HeldAtomic.holds a)) hmem
  have hrest : ∑ x ∈ (Finset.range n).erase e,
        (st'.events x).holders.countP (HeldAtomic.holds a) =
      ∑ x ∈ (Finset.range n).erase e, (st.events x).holders.countP (HeldAtomic.holds a) :=
    Finset.sum_congr rfl fun x hx => by rw [hothers x (Finset.ne_of_mem_erase hx)]
  simp only [holding]
  omega

/-- One reference of one event changes. -/
theorem holding_of_set {ha ha' : HeldAtomic I K D} (he : e < n)
    (hothers : ∀ x, x ≠ e → st'.events x = st.events x)
    (hi : (st.events e).holders[i]? = some ha)
    (hset : (st'.events e).holders = (st.events e).holders.set i ha') :
    st'.holding n a + (if ha.holds a then 1 else 0) =
      st.holding n a + (if ha'.holds a then 1 else 0) := by
  have hevent := holding_of_event (a := a) he hothers
  have hlt := (List.getElem?_eq_some_iff.mp hi).1
  have hget := (List.getElem?_eq_some_iff.mp hi).2
  have hcount : (st'.events e).holders.countP (HeldAtomic.holds a) = _ :=
    hset ▸ List.countP_set hlt
  rw [hget] at hcount
  have hle : (if ha.holds a then 1 else 0) ≤
      (st.events e).holders.countP (HeldAtomic.holds a) := by
    split
    next hholds =>
      exact List.countP_pos_iff.mpr ⟨ha, List.mem_of_getElem? hi, hholds⟩
    · exact Nat.zero_le _
  omega

/-- Nobody holds an atomic that is held by none. -/
theorem holding_eq_zero (h : st.holding n a = 0) (he : e < n) {ha : HeldAtomic I K D}
    (hha : ha ∈ (st.events e).holders) : ha.holds a = false := by
  have hnone := Finset.sum_eq_zero_iff.mp h e (Finset.mem_range.mpr he)
  simpa using List.countP_eq_zero.mp hnone ha hha

/-- A reference that holds is counted. -/
theorem holding_pos (he : e < n) {ha : HeldAtomic I K D} (hha : ha ∈ (st.events e).holders)
    (hholds : ha.holds a = true) : 0 < st.holding n a := by
  apply Nat.pos_of_ne_zero
  intro hzero
  rw [holding_eq_zero hzero he hha] at hholds
  cases hholds

/-- Nobody holds an atomic that no reference points to. -/
theorem holding_of_unreferred (h : ∀ e, e < n → ∀ ha ∈ (st.events e).holders,
    ha.atom ≠ some (.plain a)) : st.holding n a = 0 := by
  refine Finset.sum_eq_zero fun e he => List.countP_eq_zero.mpr fun ha hha hholds => ?_
  exact h e (Finset.mem_range.mp he) ha hha (HeldAtomic.holds_iff.mp hholds).2

/-- Taking a guard adds one holder. -/
theorem countP_taken {ev : Event I K D} {ha : HeldAtomic I K D}
    (hget : ev.holders[ev.workingOn]? = some ha) (hfree : ha.haveit = false) :
    ev.taken.holders.countP (HeldAtomic.holds a) =
      ev.holders.countP (HeldAtomic.holds a) +
        (if ha.atom = some (.plain a) then 1 else 0) := by
  rcases List.getElem?_eq_some_iff.mp hget with ⟨hlt, hat⟩
  simp only [Event.taken, hget]
  rw [List.countP_set hlt, hat, HeldAtomic.holds_of_haveit_eq_false hfree]
  simp [HeldAtomic.holds]

/-- The events that an atomic is handed over to become its holders. -/
theorem holding_of_taken {released : List EventId} {q : Queue}
    (hevents : ∀ x, st'.events x =
      if x ∈ released then (st.events x).taken else st.events x)
    (hnodup : released.Nodup) (hlt : ∀ x ∈ released, x < n)
    (hwaits : ∀ x ∈ released, st.WaitsAt (st.events x) q) :
    st'.holding n a = st.holding n a + if q = .atomic a then released.length else 0 := by
  have hqueue : ∀ p : AtomicPtr, st.queueOf p = .atomic a ↔ p = .plain a := by
    intro p
    cases p <;> simp [queueOf]
  have hcount : ∀ x ∈ Finset.range n, (st'.events x).holders.countP (HeldAtomic.holds a) =
      (st.events x).holders.countP (HeldAtomic.holds a) +
        (if x ∈ released.toFinset then (if q = .atomic a then 1 else 0) else 0) := by
    intro x _
    rw [hevents x]
    by_cases hx : x ∈ released
    · rcases hwaits x hx with ⟨ha, p, hget, hp, hfree, hq⟩
      have hin : x ∈ released.toFinset := List.mem_toFinset.mpr hx
      rw [if_pos hx, if_pos hin, countP_taken hget hfree, hp, ← hq]
      simp [hqueue]
    · simp [hx]
  have hsub : released.toFinset ⊆ Finset.range n := by
    intro x hx
    exact Finset.mem_range.mpr (hlt x (by simpa using hx))
  have hcard : released.toFinset.card = released.length := List.toFinset_card_of_nodup hnodup
  rw [holding, Finset.sum_congr rfl hcount, Finset.sum_add_distrib, Finset.sum_ite_mem,
    Finset.inter_eq_right.mpr hsub, Finset.sum_const, hcard]
  split <;> simp [holding]

end Store

end Guards
end OFlux
