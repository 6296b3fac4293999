import Mathlib.Data.Finset.Basic
import Mathlib.Data.Nat.ModEq
import OFlux.Library.TransitionSystem

/-!
# The circular buffer

Threads submit items to a buffer that runs them one after another.  A submit call takes a ticket,
runs the first part of its item, and plants the item in the slot of its ticket.  If the ticket is
the next one out, the call then runs the second part of this item, and of those behind it that have
been planted.  Every read, write, fetch-and-add and compare-and-swap of the shared fields is one
step, and the steps of the threads interleave freely.

The counters and the number of slots are natural numbers: the counters have 64 bits in the source,
and would wrap around after 2^63 items.

Main results:

- Theorem {lit}`Invariant.step`: what one step keeps.
- Theorem {lit}`submit_keeps_promises`: the second parts do not overlap and run in the order of the
  tickets, and when all calls have returned, every item has been run and deleted.
-/

namespace OFlux
namespace Util

open Library

variable {T ι : Type}

/-! ## State -/

/-- Where a call of {lit}`submit` is; {lit}`k` is the local {lit}`in`, and {lit}`x` and {lit}`tmp`
are items. -/
inductive Pc (ι : Type) where
  | idle
  | run1 (k : Nat) (x : ι)
  | readSlot (k : Nat) (x : ι)
  | readCounts (k : Nat) (x : ι) (inSeen outSeen : Option Nat)
  | plant (k : Nat) (x : ι)
  | readOut (k : Nat)
  | readItem (k : Nat)
  | readBefore (k : Nat) (tmp : ι)
  | claim (k : Nat) (tmp : ι)
  | clear (k : Nat) (tmp : ι)
  | startRun2 (k : Nat) (tmp : ι)
  | run2 (k : Nat) (tmp : ι)
  | delete (k : Nat) (tmp : ι)
  | advance (k : Nat)

/-- The fields of the buffer, and where the threads are.  The items that were submitted, in the
order of the tickets, those that were run, and those that were deleted are kept to account for
them. -/
structure CircularBuffer (T ι : Type) where
  inTicket : Nat
  halfOut : Nat
  out : Nat
  array : Nat → Option ι
  pc : T → Pc ι
  submitted : List ι
  ran : List ι
  deleted : List ι

namespace CircularBuffer

/-- The number of slots. -/
def size (logSize : Nat) : Nat :=
  1 <<< logSize

/-- The buffer has room. -/
theorem size_pos (logSize : Nat) : 0 < size logSize := by
  rw [size, Nat.one_shiftLeft]
  exact Nat.two_pow_pos logSize

/-- The test {lit}`(_in-_out) > sz-1`; the difference is compared as an unsigned number. -/
def Full (sz i o : Nat) : Prop :=
  ¬ (o ≤ i ∧ i - o ≤ sz - 1)

instance (sz i o : Nat) : Decidable (Full sz i o) := by
  unfold Full
  infer_instance

/-- The test of the planting loop, as soon as both counters have been read. -/
def afterCounts (sz k : Nat) (x : ι) : Option Nat → Option Nat → Pc ι
  | some i, some o => if Full sz i o then .readSlot k x else .plant k x
  | inSeen, outSeen => .readCounts k x inSeen outSeen

/-- One thread goes on. -/
@[simps]
def setPc [DecidableEq T] (s : CircularBuffer T ι) (t : T) (p : Pc ι) : CircularBuffer T ι :=
  { s with pc := Function.update s.pc t p }

/-! ## Steps -/

/-- What a thread does next.  The two counters of the planting test are read in either order. -/
inductive Action (T ι : Type) where
  | submit (t : T) (x : ι)
  | run1 (t : T)
  | readSlot (t : T)
  | countIn (t : T)
  | countOut (t : T)
  | plant (t : T)
  | readOut (t : T)
  | readItem (t : T)
  | readBefore (t : T)
  | claim (t : T)
  | clear (t : T)
  | startRun2 (t : T)
  | endRun2 (t : T)
  | delete (t : T)
  | advance (t : T)

section

variable [DecidableEq T]

/-- One step of one thread. -/
inductive Step (sz : Nat) (s : CircularBuffer T ι) : Action T ι → CircularBuffer T ι → Prop where
  | submit {t : T} {x : ι} :
      s.pc t = .idle →
      Step sz s (.submit t x)
        (setPc { s with inTicket := s.inTicket + 1, submitted := s.submitted ++ [x] } t
          (.run1 s.inTicket x))
  | run1 {t : T} {k : Nat} {x : ι} :
      s.pc t = .run1 k x → Step sz s (.run1 t) (s.setPc t (.readSlot k x))
  | readSlot {t : T} {k : Nat} {x : ι} :
      s.pc t = .readSlot k x →
      Step sz s (.readSlot t) (s.setPc t
        (if s.array (k % sz) = none then .readCounts k x none none else .readSlot k x))
  | countIn {t : T} {k : Nat} {x : ι} {outSeen : Option Nat} :
      s.pc t = .readCounts k x none outSeen →
      Step sz s (.countIn t) (s.setPc t (afterCounts sz k x (some s.inTicket) outSeen))
  | countOut {t : T} {k : Nat} {x : ι} {inSeen : Option Nat} :
      s.pc t = .readCounts k x inSeen none →
      Step sz s (.countOut t) (s.setPc t (afterCounts sz k x inSeen (some s.out)))
  | plant {t : T} {k : Nat} {x : ι} :
      s.pc t = .plant k x → s.array (k % sz) = none →
      Step sz s (.plant t)
        (setPc { s with array := Function.update s.array (k % sz) (some x) } t (.readOut k))
  | plantFails {t : T} {k : Nat} {x : ι} :
      s.pc t = .plant k x → s.array (k % sz) ≠ none →
      Step sz s (.plant t) (s.setPc t (.readSlot k x))
  | readOut {t : T} {k : Nat} :
      s.pc t = .readOut k →
      Step sz s (.readOut t) (s.setPc t (if s.out = k then .readItem k else .idle))
  | readItem {t : T} {k : Nat} :
      s.pc t = .readItem k →
      Step sz s (.readItem t) (s.setPc t
        ((s.array (k % sz)).elim .idle fun tmp => .readBefore k tmp))
  | readBefore {t : T} {k : Nat} {tmp : ι} :
      s.pc t = .readBefore k tmp →
      Step sz s (.readBefore t) (s.setPc t
        (if k = 0 ∨ s.array ((k + sz - 1) % sz) = none then .claim k tmp else .idle))
  | claim {t : T} {k : Nat} {tmp : ι} :
      s.pc t = .claim k tmp → s.halfOut = k →
      Step sz s (.claim t) (setPc { s with halfOut := k + 1 } t (.clear k tmp))
  | claimFails {t : T} {k : Nat} {tmp : ι} :
      s.pc t = .claim k tmp → s.halfOut ≠ k → Step sz s (.claim t) (s.setPc t .idle)
  | clear {t : T} {k : Nat} {tmp : ι} :
      s.pc t = .clear k tmp →
      Step sz s (.clear t)
        (setPc { s with array := Function.update s.array (k % sz) none } t (.startRun2 k tmp))
  | startRun2 {t : T} {k : Nat} {tmp : ι} :
      s.pc t = .startRun2 k tmp →
      Step sz s (.startRun2 t) (setPc { s with ran := s.ran ++ [tmp] } t (.run2 k tmp))
  | endRun2 {t : T} {k : Nat} {tmp : ι} :
      s.pc t = .run2 k tmp → Step sz s (.endRun2 t) (s.setPc t (.delete k tmp))
  | delete {t : T} {k : Nat} {tmp : ι} :
      s.pc t = .delete k tmp →
      Step sz s (.delete t) (setPc { s with deleted := s.deleted ++ [tmp] } t (.advance k))
  | advance {t : T} {k : Nat} :
      s.pc t = .advance k →
      Step sz s (.advance t)
        (setPc { s with out := if s.out = k then k + 1 else s.out } t (.readOut (k + 1)))

end

/-- The buffer is new, and no thread is in a call. -/
structure Initial (s : CircularBuffer T ι) : Prop where
  inTicket : s.inTicket = 0
  halfOut : s.halfOut = 0
  out : s.out = 0
  array : ∀ j, s.array j = none
  pc : ∀ t, s.pc t = .idle
  submitted : s.submitted = []
  ran : s.ran = []
  deleted : s.deleted = []

variable (T ι) in
/-- The threads on one buffer as a transition system. -/
def system [DecidableEq T] (logSize : Nat) :
    TransitionSystem (CircularBuffer T ι) (Action T ι) where
  init := Initial
  step := Step (size logSize)

end CircularBuffer

/-! ## What a call is doing -/

namespace Pc

/-- The ticket and the item of a call that has not planted its item. -/
def waiting : Pc ι → Option (Nat × ι)
  | .run1 k x => some (k, x)
  | .readSlot k x => some (k, x)
  | .readCounts k x _ _ => some (k, x)
  | .plant k x => some (k, x)
  | _ => none

/-- The ticket of which a call tests whether it is the next one out. -/
def watching : Pc ι → Option Nat
  | .readOut k => some k
  | .readItem k => some k
  | .readBefore k _ => some k
  | .claim k _ => some k
  | _ => none

/-- The ticket that a call has claimed. -/
def executing : Pc ι → Option Nat
  | .clear k _ => some k
  | .startRun2 k _ => some k
  | .run2 k _ => some k
  | .delete k _ => some k
  | .advance k => some k
  | _ => none

/-- The number of claimed items whose second part has begun. -/
def started : Pc ι → Nat
  | .run2 _ _ => 1
  | .delete _ _ => 1
  | .advance _ => 1
  | _ => 0

/-- The number of claimed items that have been deleted. -/
def disposed : Pc ι → Nat
  | .advance _ => 1
  | _ => 0

/-- A thread has started at most one item. -/
theorem started_le (p : Pc ι) : p.started ≤ 1 := by
  cases p <;> simp [started]

/-- A thread has disposed of at most one item. -/
theorem disposed_le (p : Pc ι) : p.disposed ≤ 1 := by
  cases p <;> simp [disposed]

/-- An item is disposed of after it was started. -/
theorem disposed_le_started (p : Pc ι) : p.disposed ≤ p.started := by
  cases p <;> simp [started, disposed]

/-- A thread with an item to plant executes nothing. -/
theorem of_waiting {p : Pc ι} {k : Nat} {x : ι} (h : p.waiting = some (k, x)) :
    p.executing = none ∧ p.watching = none ∧ p.started = 0 ∧ p.disposed = 0 := by
  cases p <;> first | contradiction | exact ⟨rfl, rfl, rfl, rfl⟩

/-- A thread that only watches has nothing to plant. -/
theorem of_watching {p : Pc ι} {k : Nat} (h : p.watching = some k ∨ p = .idle) :
    p.waiting = none ∧ p.executing = none ∧ p.started = 0 ∧ p.disposed = 0 := by
  cases p <;> first | exact ⟨rfl, rfl, rfl, rfl⟩ | simp [watching] at h

end Pc

namespace CircularBuffer

/-- What a call may rely on where it is. -/
def Facts (sz : Nat) (s : CircularBuffer T ι) (planted : Finset Nat) : Pc ι → Prop
  | .readCounts k _ inSeen outSeen =>
      (inSeen = none ∨ outSeen = none) ∧
        (∀ i ∈ inSeen, k < i ∧ i ≤ s.inTicket) ∧ ∀ o ∈ outSeen, o ≤ s.out
  | .plant k _ => k + 2 ≤ s.out + sz
  | .readItem k => k ≤ s.out
  | .readBefore k tmp | .claim k tmp =>
      k ≤ s.out ∧ (s.halfOut ≤ k → k ∈ planted ∧ s.submitted[k]? = some tmp)
  | .clear k tmp => k ∈ planted ∧ s.submitted[k]? = some tmp
  | .startRun2 k tmp | .run2 k tmp | .delete k tmp =>
      k ∉ planted ∧ s.submitted[k]? = some tmp
  | .advance k => k ∉ planted
  | _ => True

variable {sz : Nat} {s s' : CircularBuffer T ι} {planted : Finset Nat} {exec : Option T} {t : T}
  {k : Nat} {x tmp : ι}

/-- Two tickets of one window that share a slot are equal. -/
theorem eq_of_slot_eq {o j k : Nat} (hj : o ≤ j) (hj' : j < o + sz) (hk : o ≤ k)
    (hk' : k < o + sz) (h : j % sz = k % sz) : j = k :=
  Nat.ModEq.eq_of_abs_lt h (by rw [abs_lt]; omega)

theorem Facts.mono {planted' : Finset Nat} {p : Pc ι} (h : Facts sz s planted p)
    (hin : s.inTicket ≤ s'.inTicket) (hhalf : s.halfOut ≤ s'.halfOut) (hout : s.out ≤ s'.out)
    (hsub : ∀ (k : Nat) (x : ι), s.submitted[k]? = some x → s'.submitted[k]? = some x)
    (hkeep : ∀ k ∈ planted, s'.halfOut ≤ k → k ∈ planted')
    (hexec : ∀ k, p.executing = some k → (k ∈ planted' ↔ k ∈ planted)) :
    Facts sz s' planted' p := by
  have hwatch : ∀ {k : Nat} {tmp : ι},
      (k ≤ s.out ∧ (s.halfOut ≤ k → k ∈ planted ∧ s.submitted[k]? = some tmp)) →
      k ≤ s'.out ∧ (s'.halfOut ≤ k → k ∈ planted' ∧ s'.submitted[k]? = some tmp) := by
    intro k tmp hk
    refine ⟨hk.1.trans hout, fun hle => ?_⟩
    obtain ⟨hmem, hitem⟩ := hk.2 (hhalf.trans hle)
    exact ⟨hkeep k hmem hle, hsub k tmp hitem⟩
  cases p with
  | readCounts k x inSeen outSeen =>
      obtain ⟨hnone, hseen, hseen'⟩ := h
      exact ⟨hnone, fun i hi => ⟨(hseen i hi).1, (hseen i hi).2.trans hin⟩,
        fun o ho => (hseen' o ho).trans hout⟩
  | plant k x => exact Nat.le_trans h (Nat.add_le_add_right hout sz)
  | readItem k => exact Nat.le_trans h hout
  | readBefore k tmp => exact hwatch h
  | claim k tmp => exact hwatch h
  | clear k tmp => exact ⟨(hexec k rfl).mpr h.1, hsub k tmp h.2⟩
  | startRun2 k tmp => exact ⟨mt (hexec k rfl).mp h.1, hsub k tmp h.2⟩
  | run2 k tmp => exact ⟨mt (hexec k rfl).mp h.1, hsub k tmp h.2⟩
  | delete k tmp => exact ⟨mt (hexec k rfl).mp h.1, hsub k tmp h.2⟩
  | advance k => exact mt (hexec k rfl).mp h
  | idle => trivial
  | run1 k x => trivial
  | readSlot k x => trivial
  | readOut k => trivial

/-- After the counts are read the item still waits. -/
theorem waiting_afterCounts (sz k : Nat) (x : ι) (inSeen outSeen : Option Nat) :
    (afterCounts sz k x inSeen outSeen).waiting = some (k, x) := by
  unfold afterCounts
  split
  · split <;> rfl
  · rfl

/-- A ticket that passes the test of the planting loop is in the window of the tickets out. -/
theorem facts_afterCounts {inSeen outSeen : Option Nat} (hsz : 0 < sz)
    (hin : ∀ i ∈ inSeen, k < i ∧ i ≤ s.inTicket) (hout : ∀ o ∈ outSeen, o ≤ s.out) :
    Facts sz s planted (afterCounts sz k x inSeen outSeen) := by
  unfold afterCounts
  split
  · rename_i i o
    split
    · trivial
    · rename_i hfull
      have hlt := (hin i rfl).1
      have hle := hout o rfl
      simp only [Full, not_not] at hfull
      change k + 2 ≤ s.out + sz
      omega
  · rename_i hnone
    refine ⟨?_, hin, hout⟩
    cases inSeen with
    | none => exact .inl rfl
    | some i =>
        cases outSeen with
        | none => exact .inr rfl
        | some o => exact absurd rfl (hnone i o rfl)

/-- The tickets whose items are in the buffer, and the thread that executes, account for the
fields.  An item that is next out has a thread that still looks for it. -/
structure Invariant [DecidableEq T] (sz : Nat) (s : CircularBuffer T ι) (planted : Finset Nat)
    (exec : Option T) : Prop where
  length_submitted : s.submitted.length = s.inTicket
  halfOut : s.halfOut = s.out + exec.elim 0 fun _ => 1
  halfOut_le : s.halfOut ≤ s.inTicket
  executing : ∀ t, (s.pc t).executing = if exec = some t then some s.out else none
  inWindow : ∀ k ∈ planted, s.out ≤ k ∧ k + 2 ≤ s.out + sz ∧ k < s.inTicket
  array : ∀ j x, s.array j = some x ↔ ∃ k ∈ planted, k % sz = j ∧ s.submitted[k]? = some x
  waiting : ∀ t k x, (s.pc t).waiting = some (k, x) →
    s.halfOut ≤ k ∧ k ∉ planted ∧ s.submitted[k]? = some x
  unique : ∀ t u k x y, (s.pc t).waiting = some (k, x) → (s.pc u).waiting = some (k, y) → t = u
  covered : ∀ k, s.halfOut ≤ k → k < s.inTicket →
    k ∈ planted ∨ ∃ t x, (s.pc t).waiting = some (k, x)
  facts : ∀ t, Facts sz s planted (s.pc t)
  watched : s.halfOut = s.out → s.out ∈ planted → ∃ t, (s.pc t).watching = some s.out
  ran : s.ran = s.submitted.take (s.out + exec.elim 0 fun t => (s.pc t).started)
  deleted : s.deleted = s.submitted.take (s.out + exec.elim 0 fun t => (s.pc t).disposed)

variable [DecidableEq T]

theorem Initial.invariant (h : Initial s) : Invariant sz s ∅ none where
  length_submitted := by rw [h.submitted, h.inTicket, List.length_nil]
  halfOut := by rw [h.halfOut, h.out, Option.elim_none]
  halfOut_le := by rw [h.halfOut, h.inTicket]
  executing t := by simp [h.pc, Pc.executing]
  inWindow := by simp
  array j x := by simp [h.array]
  waiting t k x hw := by simp [h.pc, Pc.waiting] at hw
  unique t u k x y hw := by simp [h.pc, Pc.waiting] at hw
  covered k _ hk := by simp [h.inTicket] at hk
  facts t := by simp [h.pc, Facts]
  watched _ hp := by simp at hp
  ran := by simp [h.ran, h.submitted]
  deleted := by simp [h.deleted, h.submitted]

/-! ## One step -/

/-- A step that keeps `f` of its thread keeps it of all. -/
theorem congr_update {β : Type} {pc : T → Pc ι} {p q : Pc ι} (f : Pc ι → β) (hpc : pc t = q)
    (h : f p = f q) (u : T) : f (Function.update pc t p u) = f (pc u) := by
  by_cases hu : u = t
  · rw [hu, Function.update_self, h, hpc]
  · rw [Function.update_of_ne hu]

theorem pc_setPc_self (s : CircularBuffer T ι) (t : T) (p : Pc ι) : (s.setPc t p).pc t = p :=
  Function.update_self ..

theorem pc_setPc_of_ne {u : T} (p : Pc ι) (h : u ≠ t) : (s.setPc t p).pc u = s.pc u :=
  Function.update_of_ne h ..

/-- The item that is next out is added to those that have been run or deleted. -/
theorem take_concat {submitted items : List ι} {k : Nat} (hitem : submitted[k]? = some tmp)
    (hitems : items = submitted.take k) : items ++ [tmp] = submitted.take (k + 1) := by
  rw [List.take_add_one, hitem, hitems]
  rfl

namespace Invariant

/-- An item submitted has a ticket. -/
theorem lt_inTicket (h : Invariant sz s planted exec) (hk : s.submitted[k]? = some x) :
    k < s.inTicket := by
  rw [← h.length_submitted]
  exact (List.getElem?_eq_some_iff.mp hk).1

/-- A call that executes is the only one, and has the ticket that is next out. -/
theorem of_executing (h : Invariant sz s planted exec) (hk : (s.pc t).executing = some k) :
    exec = some t ∧ s.out = k ∧ s.halfOut = k + 1 := by
  rw [h.executing t] at hk
  split at hk
  · rename_i hexec
    have hhalf := h.halfOut
    rw [hexec, Option.some.injEq] at *
    exact ⟨rfl, hk, hk ▸ hhalf⟩
  · contradiction

theorem executing_of_ne {u : T} (h : Invariant sz s planted exec)
    (hk : (s.pc t).executing = some k) (hu : u ≠ t) : (s.pc u).executing = none := by
  rw [h.executing u, (h.of_executing hk).1, if_neg]
  simpa using hu.symm

/-- The slot of the ticket that is next out holds only its item. -/
theorem item_of_out (h : Invariant sz s planted exec) (hout : k = s.out)
    (hk : s.array (k % sz) = some tmp) : k ∈ planted ∧ s.submitted[k]? = some tmp := by
  obtain ⟨j, hj, hslot, hitem⟩ := (h.array _ _).mp hk
  have hwin := h.inWindow j hj
  have heq : j = k := eq_of_slot_eq (o := s.out) (by omega) (by omega) (by omega) (by omega) hslot
  exact heq ▸ ⟨hj, hitem⟩

/-- A step that changes only where a call is, and what has been run and deleted. -/
theorem progress {p : Pc ι} {ran deleted : List ι} (h : Invariant sz s planted exec)
    (hwait : p.waiting = (s.pc t).waiting) (hexec : p.executing = (s.pc t).executing)
    (hfacts : Facts sz s planted p)
    (hwatch : s.halfOut = s.out → s.out ∈ planted → (s.pc t).watching = some s.out →
      p.watching = some s.out)
    (hran : ran = s.submitted.take (s.out +
      exec.elim 0 fun u => (Function.update s.pc t p u).started))
    (hdeleted : deleted = s.submitted.take (s.out +
      exec.elim 0 fun u => (Function.update s.pc t p u).disposed)) :
    Invariant sz (setPc { s with ran := ran, deleted := deleted } t p) planted exec where
  length_submitted := h.length_submitted
  halfOut := h.halfOut
  halfOut_le := h.halfOut_le
  executing u := (congr_update Pc.executing rfl hexec u).trans (h.executing u)
  inWindow := h.inWindow
  array := h.array
  waiting u k x hw := h.waiting u k x ((congr_update Pc.waiting rfl hwait u).symm.trans hw)
  unique u v k x y hu hv := h.unique u v k x y ((congr_update Pc.waiting rfl hwait u).symm.trans hu)
    ((congr_update Pc.waiting rfl hwait v).symm.trans hv)
  covered k hk hk' := by
    simp only [setPc_pc, congr_update Pc.waiting rfl hwait]
    exact h.covered k hk hk'
  facts u := by
    by_cases hu : u = t
    · rw [hu, pc_setPc_self]
      exact hfacts
    · rw [pc_setPc_of_ne p hu]
      exact h.facts u
  watched hhalf hout := by
    obtain ⟨u, hu⟩ := h.watched hhalf hout
    refine ⟨u, ?_⟩
    by_cases hut : u = t
    · rw [hut, pc_setPc_self]
      exact hwatch hhalf hout (hut ▸ hu)
    · rw [pc_setPc_of_ne p hut]
      exact hu
  ran := hran
  deleted := hdeleted

/-- A step that changes only where a call is. -/
theorem move {p q : Pc ι} (h : Invariant sz s planted exec) (hpc : s.pc t = q)
    (hwait : p.waiting = q.waiting) (hexec : p.executing = q.executing)
    (hstart : p.started = q.started) (hdisp : p.disposed = q.disposed)
    (hfacts : Facts sz s planted p)
    (hwatch : s.halfOut = s.out → s.out ∈ planted → q.watching = some s.out →
      p.watching = some s.out) : Invariant sz (s.setPc t p) planted exec := by
  refine h.progress (hpc ▸ hwait) (hpc ▸ hexec) hfacts (hpc ▸ hwatch) ?_ ?_
  · simp only [congr_update Pc.started hpc hstart]
    exact h.ran
  · simp only [congr_update Pc.disposed hpc hdisp]
    exact h.deleted

theorem waiting_of_ne {u : T} (h : Invariant sz s planted exec)
    (ht : (s.pc t).waiting = some (k, x)) {j : Nat} {y : ι} (hu : u ≠ t)
    (hw : (s.pc u).waiting = some (j, y)) : j ≠ k := by
  intro hjk
  exact hu (h.unique u t k y x (hjk ▸ hw) ht)

/-- No more items are executed than submitted. -/
theorem executed_le (h : Invariant sz s planted exec) {f : Pc ι → Nat} (hf : ∀ p, f p ≤ 1) :
    s.out + (exec.elim 0 fun t => f (s.pc t)) ≤ s.submitted.length := by
  rw [h.length_submitted]
  refine le_trans ?_ (h.halfOut ▸ h.halfOut_le)
  cases exec with
  | none => exact le_rfl
  | some t => exact Nat.add_le_add_left (hf _) _

/-- Taking a ticket keeps the invariant. -/
theorem submit (h : Invariant sz s planted exec) (hpc : s.pc t = .idle) (x : ι) :
    Invariant sz
      (setPc { s with inTicket := s.inTicket + 1, submitted := s.submitted ++ [x] } t
        (.run1 s.inTicket x)) planted exec where
  length_submitted := by
    rw [setPc_submitted, List.length_append, h.length_submitted, List.length_singleton]
    rfl
  halfOut := h.halfOut
  halfOut_le := Nat.le_succ_of_le h.halfOut_le
  executing u :=
    (congr_update (p := .run1 s.inTicket x) Pc.executing hpc rfl u).trans (h.executing u)
  inWindow k hk := by
    obtain ⟨hout, hlt, hin⟩ := h.inWindow k hk
    exact ⟨hout, hlt, Nat.lt_succ_of_lt hin⟩
  array j y := by
    refine (h.array j y).trans (exists_congr fun k => and_congr_right fun hk => ?_)
    rw [setPc_submitted, List.getElem?_append_left (h.length_submitted ▸ (h.inWindow k hk).2.2)]
  waiting u k y hw := by
    by_cases hu : u = t
    · rw [hu, pc_setPc_self] at hw
      obtain ⟨rfl, rfl⟩ := Prod.mk.inj (Option.some.inj hw)
      refine ⟨h.halfOut_le, fun hmem => ?_, ?_⟩
      · exact Nat.lt_irrefl _ (h.inWindow _ hmem).2.2
      · rw [setPc_submitted, ← h.length_submitted, List.getElem?_concat_length]
    · rw [pc_setPc_of_ne _ hu] at hw
      obtain ⟨hle, hmem, hitem⟩ := h.waiting u k y hw
      exact ⟨hle, hmem, (List.getElem?_append_left (h.length_submitted ▸ h.lt_inTicket hitem)).trans
        hitem⟩
  unique u v k y z hy hz := by
    have hnew : ∀ w : T, w ≠ t → (s.pc w).waiting ≠ some (s.inTicket, y) ∧
        (s.pc w).waiting ≠ some (s.inTicket, z) := by
      intro w _
      constructor
      all_goals
        intro hw
        exact Nat.lt_irrefl _ (h.lt_inTicket (h.waiting w _ _ hw).2.2)
    by_cases hu : u = t
    · by_cases hv : v = t
      · rw [hu, hv]
      · rw [hu, pc_setPc_self] at hy
        rw [pc_setPc_of_ne _ hv] at hz
        obtain ⟨rfl, rfl⟩ := Prod.mk.inj (Option.some.inj hy)
        exact absurd hz (hnew v hv).2
    · rw [pc_setPc_of_ne _ hu] at hy
      by_cases hv : v = t
      · rw [hv, pc_setPc_self] at hz
        obtain ⟨rfl, rfl⟩ := Prod.mk.inj (Option.some.inj hz)
        exact absurd hy (hnew u hu).1
      · rw [pc_setPc_of_ne _ hv] at hz
        exact h.unique u v k y z hy hz
  covered k hk hk' := by
    rcases Nat.lt_succ_iff_lt_or_eq.mp hk' with hlt | rfl
    · refine (h.covered k hk hlt).imp_right fun ⟨u, y, hw⟩ => ⟨u, y, ?_⟩
      have hu : u ≠ t := by
        rintro rfl
        rw [hpc] at hw
        contradiction
      rw [pc_setPc_of_ne _ hu]
      exact hw
    · exact .inr ⟨t, x, by rw [pc_setPc_self]; rfl⟩
  facts u := by
    by_cases hu : u = t
    · rw [hu, pc_setPc_self]
      trivial
    · rw [pc_setPc_of_ne _ hu]
      refine (h.facts u).mono (Nat.le_succ _) le_rfl le_rfl (fun k y hy => ?_)
        (fun k hk _ => hk) fun k _ => Iff.rfl
      exact (List.getElem?_append_left (h.length_submitted ▸ h.lt_inTicket hy)).trans hy
  watched hhalf hout := by
    obtain ⟨u, hu⟩ := h.watched hhalf hout
    exact ⟨u, (congr_update (p := .run1 s.inTicket x) Pc.watching hpc rfl u).trans hu⟩
  ran := by
    simp only [setPc_pc, congr_update (p := .run1 s.inTicket x) Pc.started hpc rfl]
    exact h.ran.trans (List.take_append_of_le_length (h.executed_le Pc.started_le)).symm
  deleted := by
    simp only [setPc_pc, congr_update (p := .run1 s.inTicket x) Pc.disposed hpc rfl]
    exact h.deleted.trans (List.take_append_of_le_length (h.executed_le Pc.disposed_le)).symm

/-- Planting an item keeps the invariant. -/
theorem plant (h : Invariant sz s planted exec) (hpc : s.pc t = .plant k x)
    (hempty : s.array (k % sz) = none) :
    Invariant sz
      (setPc { s with array := Function.update s.array (k % sz) (some x) } t (.readOut k))
      (insert k planted) exec := by
  have hwait : (s.pc t).waiting = some (k, x) := by rw [hpc]; rfl
  obtain ⟨hhalf, hmem, hitem⟩ := h.waiting t k x hwait
  have hwin : k + 2 ≤ s.out + sz := by
    have hfacts := h.facts t
    rwa [hpc] at hfacts
  have hother : ∀ u j y, ((s.setPc t (.readOut k)).pc u).waiting = some (j, y) →
      u ≠ t ∧ (s.pc u).waiting = some (j, y) := by
    intro u j y hw
    by_cases hu : u = t
    · rw [hu, pc_setPc_self] at hw
      contradiction
    · rw [pc_setPc_of_ne _ hu] at hw
      exact ⟨hu, hw⟩
  constructor
  case length_submitted => exact h.length_submitted
  case halfOut => exact h.halfOut
  case halfOut_le => exact h.halfOut_le
  case executing =>
    intro u
    exact (congr_update (p := .readOut k) Pc.executing hpc rfl u).trans (h.executing u)
  case inWindow =>
    intro j hj
    rcases Finset.mem_insert.mp hj with rfl | hj
    · exact ⟨le_trans (h.halfOut ▸ Nat.le_add_right ..) hhalf, hwin, h.lt_inTicket hitem⟩
    · exact h.inWindow j hj
  case array =>
    intro j y
    by_cases hj : j = k % sz
    · subst hj
      change Function.update s.array (k % sz) (some x) (k % sz) = some y ↔ _
      rw [Function.update_self]
      constructor
      · intro heq
        exact ⟨k, Finset.mem_insert_self .., rfl, heq ▸ hitem⟩
      · rintro ⟨i, hi, hslot, hy⟩
        rcases Finset.mem_insert.mp hi with rfl | hi
        · exact hitem.symm.trans hy
        · have hfull := (h.array _ _).mpr ⟨i, hi, hslot, hy⟩
          rw [hempty] at hfull
          contradiction
    · change Function.update s.array (k % sz) (some x) j = some y ↔ _
      rw [Function.update_of_ne hj]
      refine (h.array j y).trans ?_
      constructor
      · rintro ⟨i, hi, hslot, hy⟩
        exact ⟨i, Finset.mem_insert_of_mem hi, hslot, hy⟩
      · rintro ⟨i, hi, hslot, hy⟩
        rcases Finset.mem_insert.mp hi with rfl | hi
        · exact absurd hslot.symm hj
        · exact ⟨i, hi, hslot, hy⟩
  case waiting =>
    intro u j y hw
    obtain ⟨hu, hw⟩ := hother u j y hw
    obtain ⟨hle, hj, hy⟩ := h.waiting u j y hw
    refine ⟨hle, fun hins => ?_, hy⟩
    rcases Finset.mem_insert.mp hins with hjk | hins
    · exact h.waiting_of_ne hwait hu hw hjk
    · exact hj hins
  case unique =>
    intro u v j y z hy hz
    exact h.unique u v j y z (hother u j y hy).2 (hother v j z hz).2
  case covered =>
    intro j hj hj'
    rcases h.covered j hj hj' with hmem | ⟨u, y, hw⟩
    · exact .inl (Finset.mem_insert_of_mem hmem)
    · by_cases hu : u = t
      · rw [hu, hwait] at hw
        obtain ⟨rfl, -⟩ := Prod.mk.inj (Option.some.inj hw)
        exact .inl (Finset.mem_insert_self ..)
      · exact .inr ⟨u, y, by rw [pc_setPc_of_ne _ hu]; exact hw⟩
  case facts =>
    intro u
    by_cases hu : u = t
    · rw [hu, pc_setPc_self]
      trivial
    · rw [pc_setPc_of_ne _ hu]
      refine (h.facts u).mono le_rfl le_rfl le_rfl (fun _ _ hy => hy)
        (fun j hj _ => Finset.mem_insert_of_mem hj) fun j hj => ?_
      have hout := h.of_executing hj
      rw [Finset.mem_insert, or_iff_right]
      omega
  case watched =>
    intro hhalf hout
    rcases Finset.mem_insert.mp hout with heq | hout
    · exact ⟨t, by rw [pc_setPc_self]; exact congrArg some heq.symm⟩
    · obtain ⟨u, hu⟩ := h.watched hhalf hout
      have hut : u ≠ t := by
        rintro rfl
        rw [hpc] at hu
        contradiction
      exact ⟨u, by rw [pc_setPc_of_ne _ hut]; exact hu⟩
  case ran =>
    simp only [setPc_pc, congr_update (p := .readOut k) Pc.started hpc rfl]
    exact h.ran
  case deleted =>
    simp only [setPc_pc, congr_update (p := .readOut k) Pc.disposed hpc rfl]
    exact h.deleted

/-- The call that looks for the item that is next out is the first to claim it. -/
theorem claim (h : Invariant sz s planted exec) (hpc : s.pc t = .claim k tmp)
    (hhalf : s.halfOut = k) :
    Invariant sz (setPc { s with halfOut := k + 1 } t (.clear k tmp)) planted (some t) := by
  have hfacts := h.facts t
  rw [hpc] at hfacts
  obtain ⟨hout, hitem⟩ := hfacts
  obtain ⟨hmem, hitem⟩ := hitem hhalf.le
  obtain ⟨rfl, rfl⟩ : exec = none ∧ k = s.out := by
    have heq := h.halfOut
    cases exec with
    | none => exact ⟨rfl, by rw [← hhalf, heq, Option.elim_none, Nat.add_zero]⟩
    | some u => simp at heq; omega
  constructor
  case length_submitted => exact h.length_submitted
  case halfOut => rfl
  case halfOut_le => exact h.lt_inTicket hitem
  case executing =>
    intro u
    by_cases hu : u = t
    · rw [hu, pc_setPc_self, if_pos rfl]
      rfl
    · rw [pc_setPc_of_ne _ hu, if_neg (by simpa using Ne.symm hu)]
      exact h.executing u
  case inWindow => exact h.inWindow
  case array => exact h.array
  case waiting =>
    intro u j y hw
    rw [setPc_pc, congr_update (p := .clear s.out tmp) Pc.waiting hpc rfl] at hw
    obtain ⟨hle, hj, hy⟩ := h.waiting u j y hw
    refine ⟨lt_of_le_of_ne (hhalf ▸ hle) ?_, hj, hy⟩
    rintro rfl
    exact hj hmem
  case unique =>
    intro u v j y z hy hz
    rw [setPc_pc, congr_update (p := .clear s.out tmp) Pc.waiting hpc rfl] at hy hz
    exact h.unique u v j y z hy hz
  case covered =>
    intro j hj hj'
    simp only [setPc_pc, congr_update (p := .clear s.out tmp) Pc.waiting hpc rfl]
    exact h.covered j (hhalf ▸ Nat.le_of_succ_le hj) hj'
  case facts =>
    intro u
    by_cases hu : u = t
    · rw [hu, pc_setPc_self]
      exact ⟨hmem, hitem⟩
    · rw [pc_setPc_of_ne _ hu]
      exact (h.facts u).mono le_rfl (hhalf ▸ Nat.le_succ _) le_rfl (fun _ _ hy => hy)
        (fun _ hj _ => hj) fun _ _ => Iff.rfl
  case watched =>
    intro heq
    exact absurd heq (Nat.succ_ne_self _)
  case ran =>
    rw [Option.elim_some, pc_setPc_self]
    exact h.ran
  case deleted =>
    rw [Option.elim_some, pc_setPc_self]
    exact h.deleted

/-- The call that has claimed the item that is next out takes it from its slot. -/
theorem clear (h : Invariant sz s planted exec) (hpc : s.pc t = .clear k tmp) :
    Invariant sz
      (setPc { s with array := Function.update s.array (k % sz) none } t (.startRun2 k tmp))
      (planted.erase k) exec := by
  have hexec : (s.pc t).executing = some k := by rw [hpc]; rfl
  obtain ⟨rfl, rfl, hhalf⟩ := h.of_executing hexec
  have hfacts := h.facts t
  rw [hpc] at hfacts
  obtain ⟨hmem, hitem⟩ := hfacts
  have hslot : ∀ j ∈ planted, j % sz = s.out % sz → j = s.out := by
    intro j hj hslot
    have hwin := h.inWindow j hj
    exact eq_of_slot_eq (o := s.out) (by omega) (by omega) (by omega) (by omega) hslot
  constructor
  case length_submitted => exact h.length_submitted
  case halfOut => exact h.halfOut
  case halfOut_le => exact h.halfOut_le
  case executing =>
    intro u
    exact (congr_update (p := .startRun2 s.out tmp) Pc.executing hpc rfl u).trans (h.executing u)
  case inWindow =>
    intro j hj
    exact h.inWindow j (Finset.mem_of_mem_erase hj)
  case array =>
    intro j y
    change Function.update s.array (s.out % sz) none j = some y ↔ _
    by_cases hj : j = s.out % sz
    · rw [hj, Function.update_self]
      refine iff_of_false (by simp) ?_
      rintro ⟨i, hi, heq, -⟩
      exact Finset.ne_of_mem_erase hi (hslot i (Finset.mem_of_mem_erase hi) heq)
    · rw [Function.update_of_ne hj]
      refine (h.array j y).trans (exists_congr fun i => ?_)
      rw [Finset.mem_erase]
      constructor
      · rintro ⟨hi, rfl, hy⟩
        exact ⟨⟨fun heq => hj (heq ▸ rfl), hi⟩, rfl, hy⟩
      · rintro ⟨⟨-, hi⟩, heq, hy⟩
        exact ⟨hi, heq, hy⟩
  case waiting =>
    intro u j y hw
    rw [setPc_pc, congr_update (p := .startRun2 s.out tmp) Pc.waiting hpc rfl] at hw
    obtain ⟨hle, hj, hy⟩ := h.waiting u j y hw
    exact ⟨hle, mt Finset.mem_of_mem_erase hj, hy⟩
  case unique =>
    intro u v j y z hy hz
    rw [setPc_pc, congr_update (p := .startRun2 s.out tmp) Pc.waiting hpc rfl] at hy hz
    exact h.unique u v j y z hy hz
  case covered =>
    intro j hj hj'
    simp only [setPc_pc, congr_update (p := .startRun2 s.out tmp) Pc.waiting hpc rfl]
    have hne : j ≠ s.out := by
      rintro rfl
      exact Nat.not_succ_le_self _ (hhalf ▸ hj)
    refine (h.covered j hj hj').imp_left fun hj => ?_
    exact Finset.mem_erase_of_ne_of_mem hne hj
  case facts =>
    intro u
    by_cases hu : u = t
    · rw [hu, pc_setPc_self]
      exact ⟨Finset.notMem_erase _ _, hitem⟩
    · rw [pc_setPc_of_ne _ hu]
      refine (h.facts u).mono le_rfl le_rfl le_rfl (fun _ _ hy => hy) (fun j hj hle => ?_)
        fun j hj => ?_
      · refine Finset.mem_erase_of_ne_of_mem ?_ hj
        rintro rfl
        exact Nat.not_succ_le_self _ (hhalf ▸ hle)
      · rw [h.executing_of_ne hexec hu] at hj
        contradiction
  case watched =>
    intro heq
    exact absurd (hhalf.symm.trans heq) (Nat.succ_ne_self _)
  case ran =>
    simp only [setPc_pc, congr_update (p := .startRun2 s.out tmp) Pc.started hpc rfl]
    exact h.ran
  case deleted =>
    simp only [setPc_pc, congr_update (p := .startRun2 s.out tmp) Pc.disposed hpc rfl]
    exact h.deleted

/-- Running the second time keeps the invariant. -/
theorem startRun2 (h : Invariant sz s planted exec) (hpc : s.pc t = .startRun2 k tmp) :
    Invariant sz (setPc { s with ran := s.ran ++ [tmp] } t (.run2 k tmp)) planted exec := by
  obtain ⟨rfl, rfl, hhalf⟩ := h.of_executing (k := k) (t := t) (by rw [hpc]; rfl)
  have hfacts := h.facts t
  have hran := h.ran
  have hdeleted := h.deleted
  rw [hpc] at hfacts
  rw [Option.elim_some, hpc] at hran hdeleted
  refine h.progress (by rw [hpc]; rfl) (by rw [hpc]; rfl) hfacts (fun heq => ?_) ?_ ?_
  · exact absurd (hhalf.symm.trans heq) (Nat.succ_ne_self _)
  · rw [Option.elim_some, Function.update_self]
    exact take_concat hfacts.2 hran
  · rw [Option.elim_some, Function.update_self]
    exact hdeleted

/-- Deleting an item keeps the invariant. -/
theorem delete (h : Invariant sz s planted exec) (hpc : s.pc t = .delete k tmp) :
    Invariant sz (setPc { s with deleted := s.deleted ++ [tmp] } t (.advance k)) planted exec := by
  obtain ⟨rfl, rfl, hhalf⟩ := h.of_executing (k := k) (t := t) (by rw [hpc]; rfl)
  have hfacts := h.facts t
  have hran := h.ran
  have hdeleted := h.deleted
  rw [hpc] at hfacts
  rw [Option.elim_some, hpc] at hran hdeleted
  refine h.progress (by rw [hpc]; rfl) (by rw [hpc]; rfl) hfacts.1 (fun heq => ?_) ?_ ?_
  · exact absurd (hhalf.symm.trans heq) (Nat.succ_ne_self _)
  · rw [Option.elim_some, Function.update_self]
    exact hran
  · rw [Option.elim_some, Function.update_self]
    exact take_concat hfacts.2 hdeleted

/-- The call that has executed the item that is next out goes on to look for the one behind it. -/
theorem advance (h : Invariant sz s planted exec) (hpc : s.pc t = .advance k) :
    Invariant sz
      (setPc { s with out := if s.out = k then k + 1 else s.out } t (.readOut (k + 1)))
      planted none := by
  have hexec : (s.pc t).executing = some k := by rw [hpc]; rfl
  obtain ⟨rfl, rfl, hhalf⟩ := h.of_executing hexec
  have hfacts := h.facts t
  have hran := h.ran
  have hdeleted := h.deleted
  rw [hpc] at hfacts
  rw [Option.elim_some, hpc] at hran hdeleted
  rw [if_pos rfl]
  constructor
  case length_submitted => exact h.length_submitted
  case halfOut => exact hhalf
  case halfOut_le => exact h.halfOut_le
  case executing =>
    intro u
    by_cases hu : u = t
    · rw [hu, pc_setPc_self]
      rfl
    · rw [pc_setPc_of_ne _ hu]
      exact h.executing_of_ne hexec hu
  case inWindow =>
    intro j hj
    obtain ⟨hle, hlt, hin⟩ := h.inWindow j hj
    have hne : s.out ≠ j := by
      rintro rfl
      exact hfacts hj
    exact ⟨lt_of_le_of_ne hle hne, hlt.trans (by simp), hin⟩
  case array => exact h.array
  case waiting =>
    intro u j y hw
    rw [setPc_pc, congr_update (p := .readOut (s.out + 1)) Pc.waiting hpc rfl] at hw
    exact h.waiting u j y hw
  case unique =>
    intro u v j y z hy hz
    rw [setPc_pc, congr_update (p := .readOut (s.out + 1)) Pc.waiting hpc rfl] at hy hz
    exact h.unique u v j y z hy hz
  case covered =>
    intro j hj hj'
    simp only [setPc_pc, congr_update (p := .readOut (s.out + 1)) Pc.waiting hpc rfl]
    exact h.covered j hj hj'
  case facts =>
    intro u
    by_cases hu : u = t
    · rw [hu, pc_setPc_self]
      trivial
    · rw [pc_setPc_of_ne _ hu]
      exact (h.facts u).mono le_rfl le_rfl (Nat.le_succ _) (fun _ _ hy => hy)
        (fun _ hj _ => hj) fun _ _ => Iff.rfl
  case watched =>
    intro _ _
    exact ⟨t, by rw [pc_setPc_self]; rfl⟩
  case ran => exact hran
  case deleted => exact hdeleted

/-- A step of the planting loop, which goes on with the same ticket and item. -/
theorem moveWaiting {p q : Pc ι} (h : Invariant sz s planted exec) (hpc : s.pc t = q)
    (hq : q.waiting = some (k, x)) (hp : p.waiting = some (k, x)) (hfacts : Facts sz s planted p) :
    Invariant sz (s.setPc t p) planted exec := by
  obtain ⟨hexec, hwatch, hstart, hdisp⟩ := Pc.of_waiting hp
  obtain ⟨hexec', hwatch', hstart', hdisp'⟩ := Pc.of_waiting hq
  refine h.move hpc (hp.trans hq.symm) (hexec.trans hexec'.symm) (hstart.trans hstart'.symm)
    (hdisp.trans hdisp'.symm) hfacts fun _ _ heq => ?_
  rw [hwatch'] at heq
  contradiction

/-- A step of the tests whether a ticket is next out, which end when it is not. -/
theorem moveWatching {p q : Pc ι} (h : Invariant sz s planted exec) (hpc : s.pc t = q)
    (hq : q.watching = some k) (hp : p.watching = some k ∨ p = .idle)
    (hfacts : Facts sz s planted p)
    (hleave : s.halfOut = s.out → s.out ∈ planted → k = s.out → p.watching = some k) :
    Invariant sz (s.setPc t p) planted exec := by
  obtain ⟨hwait', hexec', hstart', hdisp'⟩ := Pc.of_watching (.inl hq)
  obtain ⟨hwait, hexec, hstart, hdisp⟩ := Pc.of_watching hp
  refine h.move hpc (hwait.trans hwait'.symm) (hexec.trans hexec'.symm) (hstart.trans hstart'.symm)
    (hdisp.trans hdisp'.symm) hfacts fun hhalf hmem heq => ?_
  have hk : k = s.out := Option.some.inj (hq.symm.trans heq)
  exact hk ▸ hleave hhalf hmem hk

/-- Reading the slot keeps the invariant. -/
theorem readItem (h : Invariant sz s planted exec) (hpc : s.pc t = .readItem k) :
    Invariant sz (s.setPc t ((s.array (k % sz)).elim .idle fun tmp => .readBefore k tmp))
      planted exec := by
  have hfacts := h.facts t
  rw [hpc] at hfacts
  have hle : s.out ≤ s.halfOut := h.halfOut ▸ Nat.le_add_right ..
  cases hitem : s.array (k % sz) with
  | none =>
      refine h.moveWatching hpc rfl (.inr rfl) trivial fun _ hmem hk => ?_
      have hin := List.getElem?_eq_getElem (h.length_submitted.symm ▸ (h.inWindow _ hmem).2.2)
      rw [hk, (h.array _ _).mpr ⟨_, hmem, rfl, hin⟩] at hitem
      contradiction
  | some tmp =>
      refine h.moveWatching hpc rfl (.inl rfl) ⟨hfacts, fun hhalf => ?_⟩ fun _ _ _ => rfl
      exact h.item_of_out (Nat.le_antisymm hfacts (hle.trans hhalf)) hitem

/-- Reading the slot before keeps the invariant. -/
theorem readBefore (h : Invariant sz s planted exec) (hpc : s.pc t = .readBefore k tmp) :
    Invariant sz (s.setPc t
      (if k = 0 ∨ s.array ((k + sz - 1) % sz) = none then .claim k tmp else .idle))
      planted exec := by
  have hfacts := h.facts t
  rw [hpc] at hfacts
  split
  · exact h.moveWatching hpc rfl (.inl rfl) hfacts fun _ _ _ => rfl
  · rename_i hfull
    refine h.moveWatching hpc rfl (.inr rfl) trivial fun _ hmem hk => ?_
    obtain ⟨hk0, hfull⟩ := not_or.mp hfull
    obtain ⟨y, hy⟩ := Option.ne_none_iff_exists'.mp hfull
    obtain ⟨j, hj, hslot, -⟩ := (h.array _ _).mp hy
    -- the ticket before this one could only be in the buffer a lap later
    have hout := h.inWindow _ hmem
    have hwin := h.inWindow j hj
    have heq : j = k + sz - 1 :=
      eq_of_slot_eq (o := s.out) hwin.1 (by omega) (by omega) (by omega) hslot
    omega

/-- What one step keeps. -/
theorem step {a : Action T ι} (hsz : 0 < sz) (h : Invariant sz s planted exec)
    (hstep : Step sz s a s') : ∃ planted' exec', Invariant sz s' planted' exec' := by
  cases hstep with
  | submit hpc => exact ⟨_, _, h.submit hpc _⟩
  | run1 hpc => exact ⟨_, _, h.moveWaiting hpc rfl rfl trivial⟩
  | @readSlot t k x hpc =>
      refine ⟨planted, exec, h.moveWaiting hpc rfl ?_ ?_⟩
      · split <;> rfl
      · split
        · exact ⟨.inl rfl, by simp, by simp⟩
        · trivial
  | @countIn t k x outSeen hpc =>
      have hfacts := h.facts t
      have hwait := h.waiting t k x (by rw [hpc]; rfl)
      rw [hpc] at hfacts
      refine ⟨planted, exec, h.moveWaiting hpc rfl (waiting_afterCounts ..)
        (facts_afterCounts hsz ?_ hfacts.2.2)⟩
      rintro i ⟨⟩
      exact ⟨h.lt_inTicket hwait.2.2, le_rfl⟩
  | @countOut t k x inSeen hpc =>
      have hfacts := h.facts t
      rw [hpc] at hfacts
      refine ⟨planted, exec, h.moveWaiting hpc rfl (waiting_afterCounts ..)
        (facts_afterCounts hsz hfacts.2.1 ?_)⟩
      rintro o ⟨⟩
      exact le_rfl
  | plant hpc hempty => exact ⟨_, _, h.plant hpc hempty⟩
  | plantFails hpc _ => exact ⟨_, _, h.moveWaiting hpc rfl rfl trivial⟩
  | @readOut t k hpc =>
      refine ⟨planted, exec, ?_⟩
      split
      · rename_i hout
        exact h.moveWatching hpc rfl (.inl rfl) hout.ge fun _ _ _ => rfl
      · rename_i hout
        exact h.moveWatching hpc rfl (.inr rfl) trivial fun _ _ hk => absurd hk.symm hout
  | readItem hpc => exact ⟨_, _, h.readItem hpc⟩
  | readBefore hpc => exact ⟨_, _, h.readBefore hpc⟩
  | claim hpc hhalf => exact ⟨_, _, h.claim hpc hhalf⟩
  | claimFails hpc hhalf =>
      refine ⟨_, _, h.moveWatching hpc rfl (.inr rfl) trivial fun heq _ hk => ?_⟩
      exact absurd (heq.trans hk.symm) hhalf
  | clear hpc => exact ⟨_, _, h.clear hpc⟩
  | startRun2 hpc => exact ⟨_, _, h.startRun2 hpc⟩
  | @endRun2 t k tmp hpc =>
      have hfacts := h.facts t
      rw [hpc] at hfacts
      exact ⟨planted, exec, h.move hpc rfl rfl rfl rfl hfacts fun _ _ heq => heq⟩
  | delete hpc => exact ⟨_, _, h.delete hpc⟩
  | advance hpc => exact ⟨_, _, h.advance hpc⟩

theorem of_reachable {logSize : Nat} (h : (system T ι logSize).Reachable s) :
    ∃ planted exec, Invariant (size logSize) s planted exec := by
  refine TransitionSystem.Reachable.invariant
    (P := fun s => ∃ planted exec, Invariant (size logSize) s planted exec)
    (fun s hinit => ⟨_, _, Initial.invariant hinit⟩) ?_ h
  rintro s a s' ⟨planted, exec, hinv⟩ hstep
  exact hinv.step (size_pos logSize) hstep

/-- Two calls that execute are one. -/
theorem eq_of_executing {t u : T} {j k : Nat} (h : Invariant sz s planted exec)
    (ht : (s.pc t).executing = some j) (hu : (s.pc u).executing = some k) : t = u :=
  Option.some.inj ((h.of_executing ht).1.symm.trans (h.of_executing hu).1)

/-- The item run is the one with that ticket. -/
theorem of_run2 (h : Invariant sz s planted exec) (hpc : s.pc t = .run2 k x) :
    s.submitted[k]? = some x ∧ s.ran.length = k + 1 := by
  obtain ⟨rfl, rfl, -⟩ := h.of_executing (k := k) (t := t) (by rw [hpc]; rfl)
  have hfacts := h.facts t
  have hran := h.ran
  rw [hpc] at hfacts
  rw [Option.elim_some, hpc] at hran
  refine ⟨hfacts.2, ?_⟩
  rw [hran, List.length_take_of_le (h.length_submitted.symm ▸ h.lt_inTicket hfacts.2)]
  rfl

/-- Items are deleted in the order they ran. -/
theorem deleted_prefix_ran (h : Invariant sz s planted exec) : s.deleted <+: s.ran := by
  rw [h.ran, h.deleted]
  refine List.take_prefix_take_left (Nat.add_le_add_left ?_ _)
  cases exec with
  | none => exact le_rfl
  | some t => exact Pc.disposed_le_started (s.pc t)

/-- When every thread is idle, every item ran and was deleted. -/
theorem all_done (h : Invariant sz s planted exec) (hidle : ∀ t, s.pc t = .idle) :
    s.ran = s.submitted ∧ s.deleted = s.submitted := by
  have hexec : exec = none := by
    cases exec with
    | none => rfl
    | some t =>
        have ht := h.executing t
        rw [hidle, if_pos rfl] at ht
        contradiction
  subst hexec
  have hhalf : s.halfOut = s.out := h.halfOut
  have hout : s.submitted.length ≤ s.out := by
    rw [h.length_submitted]
    by_contra hlt
    rcases h.covered s.out hhalf.le (Nat.lt_of_not_le hlt) with hmem | ⟨t, x, hw⟩
    · obtain ⟨t, ht⟩ := h.watched hhalf hmem
      rw [hidle] at ht
      contradiction
    · rw [hidle] at hw
      contradiction
  exact ⟨h.ran.trans (List.take_of_length_le hout), h.deleted.trans (List.take_of_length_le hout)⟩

end Invariant

/-- The second parts do not overlap, and run in the order of the tickets, each of them once.  When
all calls have returned, every item has been run and deleted. -/
theorem submit_keeps_promises (logSize : Nat) {s : CircularBuffer T ι}
    (h : (system T ι logSize).Reachable s) :
    (∀ t u j k x y, s.pc t = .run2 j x → s.pc u = .run2 k y → t = u) ∧
      (∀ t k x, s.pc t = .run2 k x → s.submitted[k]? = some x ∧ s.ran.length = k + 1) ∧
      s.submitted.length = s.inTicket ∧ s.ran <+: s.submitted ∧ s.deleted <+: s.ran ∧
      ((∀ t, s.pc t = .idle) → s.ran = s.submitted ∧ s.deleted = s.submitted) := by
  obtain ⟨planted, exec, hinv⟩ := Invariant.of_reachable h
  refine ⟨fun t u j k x y ht hu => ?_, fun t k x ht => hinv.of_run2 ht, hinv.length_submitted, ?_,
    hinv.deleted_prefix_ran, hinv.all_done⟩
  · exact hinv.eq_of_executing (j := j) (k := k) (by rw [ht]; rfl) (by rw [hu]; rfl)
  · rw [hinv.ran]
    exact List.take_prefix _ _

/-- A new buffer. -/
def new : CircularBuffer T ι where
  inTicket := 0
  halfOut := 0
  out := 0
  array _ := none
  pc _ := .idle
  submitted := []
  ran := []
  deleted := []

omit [DecidableEq T] in
theorem initial_new : Initial (new : CircularBuffer T ι) :=
  ⟨rfl, rfl, rfl, fun _ => rfl, fun _ => rfl, rfl, rfl, rfl⟩

theorem reachable_next {logSize : Nat} {a : Action T ι} (h : (system T ι logSize).Reachable s)
    (hstep : Step (size logSize) s a s') : (system T ι logSize).Reachable s' :=
  .step h hstep

/-- The second of two items is planted first; the call of the first one runs both. -/
theorem reachable_twoCalls :
    (∃ s : CircularBuffer Bool Nat, (system Bool Nat 2).Reachable s ∧
      s.pc false = .run2 1 8 ∧ s.pc true = .idle) ∧
    ∃ s : CircularBuffer Bool Nat, (system Bool Nat 2).Reachable s ∧
      (∀ t, s.pc t = .idle) ∧ s.submitted = [7, 8] := by
  have hnew : (system Bool Nat 2).Reachable new := .init initial_new
  have hfirst := reachable_next hnew (.submit (t := false) (x := 7) rfl)
  have hsecond := reachable_next hfirst (.submit (t := true) (x := 8) rfl)
  -- the second item is planted first, and its call returns
  have hsecondRun1 := reachable_next hsecond (.run1 (t := true) (k := 1) (x := 8) rfl)
  have hsecondSlot := reachable_next hsecondRun1 (.readSlot (t := true) (k := 1) (x := 8) rfl)
  have hsecondIn := reachable_next hsecondSlot (.countIn (t := true) (k := 1) (x := 8) rfl)
  have hsecondOut := reachable_next hsecondIn (.countOut (t := true) (k := 1) (x := 8) rfl)
  have hsecondPlant := reachable_next hsecondOut (.plant (t := true) (k := 1) (x := 8) rfl rfl)
  have hsecondReadOut := reachable_next hsecondPlant (.readOut (t := true) (k := 1) rfl)
  have hfirstRun1 := reachable_next hsecondReadOut (.run1 (t := false) (k := 0) (x := 7) rfl)
  have hfirstSlot := reachable_next hfirstRun1 (.readSlot (t := false) (k := 0) (x := 7) rfl)
  have hfirstIn := reachable_next hfirstSlot (.countIn (t := false) (k := 0) (x := 7) rfl)
  have hfirstOut := reachable_next hfirstIn (.countOut (t := false) (k := 0) (x := 7) rfl)
  have hfirstPlant := reachable_next hfirstOut (.plant (t := false) (k := 0) (x := 7) rfl rfl)
  have hfirstReadOut := reachable_next hfirstPlant (.readOut (t := false) (k := 0) rfl)
  have hzeroItem := reachable_next hfirstReadOut (.readItem (t := false) (k := 0) rfl)
  have hzeroBefore := reachable_next hzeroItem (.readBefore (t := false) (k := 0) rfl)
  have hzeroClaim := reachable_next hzeroBefore (.claim (t := false) (k := 0) rfl rfl)
  have hzeroClear := reachable_next hzeroClaim (.clear (t := false) (k := 0) rfl)
  have hzeroStart := reachable_next hzeroClear (.startRun2 (t := false) (k := 0) rfl)
  have hzeroEnd := reachable_next hzeroStart (.endRun2 (t := false) (k := 0) rfl)
  have hzeroDelete := reachable_next hzeroEnd (.delete (t := false) (k := 0) rfl)
  have hzeroAdvance := reachable_next hzeroDelete (.advance (t := false) (k := 0) rfl)
  have hzeroNext := reachable_next hzeroAdvance (.readOut (t := false) (k := 1) rfl)
  have honeItem := reachable_next hzeroNext (.readItem (t := false) (k := 1) rfl)
  have honeBefore := reachable_next honeItem (.readBefore (t := false) (k := 1) rfl)
  have honeClaim := reachable_next honeBefore (.claim (t := false) (k := 1) rfl rfl)
  have honeClear := reachable_next honeClaim (.clear (t := false) (k := 1) rfl)
  have honeStart := reachable_next honeClear (.startRun2 (t := false) (k := 1) rfl)
  have honeEnd := reachable_next honeStart (.endRun2 (t := false) (k := 1) rfl)
  have honeDelete := reachable_next honeEnd (.delete (t := false) (k := 1) rfl)
  have honeAdvance := reachable_next honeDelete (.advance (t := false) (k := 1) rfl)
  have honeNext := reachable_next honeAdvance (.readOut (t := false) (k := 2) rfl)
  have hidle := reachable_next honeNext (.readItem (t := false) (k := 2) rfl)
  exact ⟨⟨_, honeStart, rfl, rfl⟩, _, hidle, Bool.forall_bool.mpr ⟨rfl, rfl⟩, rfl⟩

/-- While the first call runs the item of the second one, no other item is being run; in the end
both have been run and deleted, in the order of the tickets. -/
theorem submit_keeps_promises_twoCalls :
    (∃ s : CircularBuffer Bool Nat, (system Bool Nat 2).Reachable s ∧ s.pc false = .run2 1 8 ∧
      s.submitted[1]? = some 8 ∧ s.ran.length = 2 ∧
      ∀ u k y, s.pc u = .run2 k y → u = false) ∧
    ∃ s : CircularBuffer Bool Nat, (system Bool Nat 2).Reachable s ∧ s.submitted = [7, 8] ∧
      s.ran = [7, 8] ∧ s.deleted = [7, 8] := by
  obtain ⟨⟨s, hs, hrun2, -⟩, s', hs', hidle, hsubmitted⟩ := reachable_twoCalls
  obtain ⟨hone, hitem, -, -, -, -⟩ := submit_keeps_promises 2 hs
  obtain ⟨-, -, -, -, -, hdone⟩ := submit_keeps_promises 2 hs'
  obtain ⟨hran, hdeleted⟩ := hdone hidle
  exact ⟨⟨s, hs, hrun2, (hitem _ _ _ hrun2).1, (hitem _ _ _ hrun2).2,
    fun u k y hu => hone u false k 1 y 8 hu hrun2⟩,
    s', hs', hsubmitted, hran.trans hsubmitted, hdeleted.trans hsubmitted⟩

end CircularBuffer
end Util
end OFlux
