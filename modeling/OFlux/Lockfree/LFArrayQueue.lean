import OFlux.Library.Loop
import OFlux.Library.Machine
import OFlux.Lockfree.GrowableCircularArray

/-!
# The lock-free queue

A queue of things that are not null, over a growable circular array: {lit}`_in` and {lit}`_out` are
the 64-bit indices of the next push and the next pop.  Calls are taken one after another; the loops
around the compare-and-swaps are kept.

Main results:

- Theorem {lit}`LFArrayQueue.Represents.push`, {lit}`LFArrayQueue.Represents.pop`: what a call does
  to the things that are left.
- Theorem {lit}`LFArrayQueue.answersFifo_iff`: the queue answers as a FIFO queue as long as no
  push finds 2^30 - 1 things.
-/

namespace OFlux
namespace Lockfree

open Library

variable {α : Type}

/-! ## The queue -/

/-- A growable array with the counts of pushes and pops begun. -/
structure LFArrayQueue (α : Type) where
  array : CircularArray α := .new
  inIndex : BitVec 64 := 0
  outIndex : BitVec 64 := 0

/-- The calls on a queue. -/
inductive QueueCall (α : Type) where
  | push (o : α)
  | pop

/-- What a call on the queue returns. -/
inductive QueueAnswer (α : Type) where
  | pushed
  | popped (res : Option α)

namespace LFArrayQueue

/-- The size of an array is {lit}`1 << _log_size`, which leaves the integers of 32 bits after
2^30. -/
def maxLogSize : Nat := 30

/-- One turn of the loop of {lit}`pop`. -/
def popTurn [DecidableEq α] (q : LFArrayQueue α) : Turn Failure (LFArrayQueue α) (Option α) :=
  if q.outIndex ≥ q.inIndex then .done q none
  else
    match q.array.get q.outIndex.toNat false with
    | .error err => .fail err
    | .ok (array, { ptr := .thing res, .. }) =>
        -- the index of the entry is unsigned and never negative
        match array.casToNull q.outIndex.toNat res with
        | .error err => .fail err
        | .ok (array, true) => .done { q with array := array, outIndex := q.outIndex + 1 } (some res)
        | .ok (_, false) => .fail .assertion
    | .ok (array, _) => .again { q with array := array }

/-- One turn of the loop of {lit}`push`. -/
def pushTurn (o : α) (q : LFArrayQueue α) : Turn Failure (LFArrayQueue α) Unit :=
  match if (q.inIndex - q.outIndex + 1).toNat ≥ q.array.implSize then q.array.grow maxLogSize
    else .ok q.array with
  | .error err => .fail err
  | .ok array =>
      match array.get q.inIndex.toNat true with
      | .error err => .fail err
      | .ok (array, { ptr := .null, .. }) =>
          match array.casFromNull q.inIndex.toNat o with
          | .error err => .fail err
          | .ok (array, true) => .done { q with array := array, inIndex := q.inIndex + 1 } ()
          | .ok (_, false) => .fail .assertion
      | .ok (array, _) => .again { q with array := array }

/-- The queue as a machine; a call that fails or goes on for ever gives no answer. -/
def machine (α : Type) [DecidableEq α] :
    Machine (LFArrayQueue α) (QueueCall α) (QueueAnswer α) where
  init q := q = {}
  call q k a q' :=
    match k with
    | .push o => Returns (pushTurn o) q (.ok (q', ())) ∧ a = .pushed
    | .pop => ∃ res, Returns popTurn q (.ok (q', res)) ∧ a = .popped res

/-! ## A FIFO queue -/

/-- What a FIFO queue answers, and the things that are left, the oldest one first. -/
def fifoNext (left : List α) : QueueCall α → QueueAnswer α × List α
  | .push o => (.pushed, left ++ [o])
  | .pop =>
      match left with
      | [] => (.popped none, [])
      | o :: rest => (.popped (some o), rest)

/-- A push finds fewer than 2^30 - 1 things. -/
def Fits (left : List α) : QueueCall α → Prop
  | .push _ => left.length + 1 < 2 ^ 30
  | .pop => True

/-- The things that are left stand between the two indices, and that many pushes are possible. -/
structure Represents (n : Nat) (q : LFArrayQueue α) (left : List α) : Prop where
  stores : CircularArray.StoresAt q.array (fun k => q.outIndex.toNat + k) left
  inIndex : q.inIndex.toNat = q.outIndex.toNat + left.length
  budget : q.inIndex.toNat + n < 2 ^ 64

/-- Indices that count up are consecutive. -/
theorem consecutive_add (out : Nat) : CircularArray.Consecutive fun k => out + k :=
  fun _ _ _ => rfl

namespace Represents

variable {n : Nat} {q : LFArrayQueue α} {left : List α}

/-- A new queue is empty. -/
theorem empty (h : n < 2 ^ 64) : Represents n ({} : LFArrayQueue α) [] where
  stores := .new _
  inIndex := rfl
  budget := by simpa using h

/-- One call less to come. -/
theorem spend (h : Represents (n + 1) q left) : Represents n q left :=
  { h with budget := Nat.lt_of_succ_lt h.budget }

/-- The array has room for one more thing, or it has the largest size and is too full. -/
theorem exists_array (h : Represents n q left) :
    (∃ array, (if (q.inIndex - q.outIndex + 1).toNat ≥ q.array.implSize then
          q.array.grow maxLogSize else .ok q.array) = .ok array ∧
        CircularArray.StoresAt array (fun k => q.outIndex.toNat + k) left ∧
        left.length + 1 < array.implSize) ∨
      (if (q.inIndex - q.outIndex + 1).toNat ≥ q.array.implSize then
          q.array.grow maxLogSize else .ok q.array) = .error .badAlloc ∧
        ¬ left.length + 1 < 2 ^ 30 := by
  have hbounded := h.stores.bounded
  have hsize := h.stores.implSize_le
  have hin := h.inIndex
  have hcount : (q.inIndex - q.outIndex + 1).toNat = left.length + 1 := by
    rw [BitVec.toNat_add, BitVec.toNat_sub]
    show ((2 ^ 64 - q.outIndex.toNat + q.inIndex.toNat) % 2 ^ 64 + 1) % 2 ^ 64 = left.length + 1
    omega
  rw [hcount]
  by_cases hfull : left.length + 1 ≥ q.array.implSize
  · rw [if_pos hfull]
    rcases h.stores.grow (show maxLogSize ≤ 30 from le_rfl) with
      ⟨array, hgrow, hstores, hdouble⟩ | ⟨hfail, hlarge⟩
    · exact Or.inl ⟨array, hgrow, hstores, by omega⟩
    · exact Or.inr ⟨hfail, Nat.not_lt.mpr (hlarge.trans hfull)⟩
  · rw [if_neg hfull]
    exact Or.inl ⟨_, rfl, h.stores, Nat.lt_of_not_le hfull⟩

/-- A push that fits puts the thing behind the others. -/
theorem push (h : Represents (n + 1) q left) (o : α) (hfits : left.length + 1 < 2 ^ 30) :
    ∃ q', Returns (pushTurn o) q (.ok (q', ())) ∧ Represents n q' (left ++ [o]) := by
  rcases h.exists_array with ⟨array, harray, hstores, hroom⟩ | ⟨-, hno⟩
  · have hin := h.inIndex
    have hbudget := h.budget
    have hlast : q.outIndex.toNat + left.length ≠ noIndex := by
      show _ ≠ 2 ^ 64 - 1
      omega
    obtain ⟨array1, array2, hget, hcas, hpushed, -⟩ :=
      hstores.push (consecutive_add q.outIndex.toNat) hlast o hroom
    rw [← hin] at hget hcas
    have hnext : (q.inIndex + 1).toNat = q.inIndex.toNat + 1 := by
      rw [BitVec.toNat_add]
      show (q.inIndex.toNat + 1) % 2 ^ 64 = q.inIndex.toNat + 1
      omega
    refine ⟨{ q with array := array2, inIndex := q.inIndex + 1 }, .done ?_, hpushed, ?_, ?_⟩
    · simp only [pushTurn, harray, hget, hcas]
    · show (q.inIndex + 1).toNat = q.outIndex.toNat + (left ++ [o]).length
      rw [hnext, hin, List.length_append, List.length_singleton, Nat.add_assoc]
    · show (q.inIndex + 1).toNat + n < 2 ^ 64
      omega
  · exact absurd hfits hno

/-- A push that does not fit fails. -/
theorem push_error (h : Represents n q left) (o : α) (hfits : ¬ left.length + 1 < 2 ^ 30) :
    Returns (pushTurn o) q (.error .badAlloc) := by
  rcases h.exists_array with ⟨array, -, hstores, hroom⟩ | ⟨hfail, -⟩
  · exact absurd (hroom.trans_le hstores.implSize_le) hfits
  · apply Returns.fail
    simp only [pushTurn, hfail]

/-- A pop takes the oldest thing. -/
theorem pop [DecidableEq α] (h : Represents n q left) :
    ∃ res q', Returns popTurn q (.ok (q', res)) ∧ (fifoNext left .pop).1 = .popped res ∧
      Represents n q' (fifoNext left .pop).2 := by
  have hin := h.inIndex
  have hbudget := h.budget
  cases left with
  | nil =>
      have hempty : q.outIndex ≥ q.inIndex := BitVec.le_def.mpr (Nat.le_of_eq hin)
      refine ⟨none, q, .done ?_, rfl, h⟩
      rw [popTurn, if_pos hempty]
  | cons o rest =>
      rw [List.length_cons] at hin
      have hsome : ¬ q.outIndex ≥ q.inIndex := by
        rw [ge_iff_le, BitVec.le_def]
        omega
      have hnext : (q.outIndex + 1).toNat = q.outIndex.toNat + 1 := by
        rw [BitVec.toNat_add]
        show (q.outIndex.toNat + 1) % 2 ^ 64 = q.outIndex.toNat + 1
        omega
      obtain ⟨array, hget, hcas, hstores⟩ := h.stores.pop (consecutive_add q.outIndex.toNat)
      rw [Nat.add_zero] at hget hcas
      refine ⟨some o, { q with array := array, outIndex := q.outIndex + 1 }, .done ?_, rfl, ?_, ?_,
        h.budget⟩
      · rw [popTurn, if_neg hsome]
        simp only [hget, hcas]
      · have hindex : (fun k => q.outIndex.toNat + (k + 1)) =
            fun k => (q.outIndex + 1).toNat + k := by
          funext k
          omega
        rw [hindex] at hstores
        exact hstores
      · show q.inIndex.toNat = (q.outIndex + 1).toNat + rest.length
        omega

end Represents

/-! ## Runs -/

section Runs

variable [DecidableEq α]

/-- The queue has one answer to each call. -/
theorem machine_deterministic : (machine α).Deterministic := by
  intro q k a b t u ha hb
  cases k with
  | push o =>
      cases ha.1.unique hb.1
      exact ⟨ha.2.trans hb.2.symm, rfl⟩
  | pop =>
      obtain ⟨res, hres, rfl⟩ := ha
      obtain ⟨res', hres', rfl⟩ := hb
      cases hres.unique hres'
      exact ⟨rfl, rfl⟩

/-- From a state that represents the things that are left. -/
theorem exists_trace_iff {n : Nat} {q : LFArrayQueue α} {left : List α} (h : Represents n q left)
    {calls : List (QueueCall α)} (hn : calls.length ≤ n) :
    (∃ t, (machine α).Trace q (Machine.traceOf fifoNext left calls) t) ↔
      TransitionSystem.AllAllowed Fits (fun l k => (fifoNext l k).2) left calls := by
  refine Machine.exists_trace_iff (R := Represents) machine_deterministic ?_ ?_ h hn
  · intro n q l k hR hfits
    cases k with
    | push o =>
        obtain ⟨t, hpush, ht⟩ := hR.push o hfits
        exact ⟨t, ⟨hpush, rfl⟩, ht⟩
    | pop =>
        obtain ⟨res, t, hpop, hanswer, ht⟩ := hR.spend.pop
        exact ⟨t, ⟨res, hpop, hanswer⟩, ht⟩
  · intro n q l k t hR hno hcall
    cases k with
    | push o => exact nomatch (hR.push_error o hno).unique hcall.1
    | pop => exact hno trivial

/-- In fewer than 2^64 calls the queue answers as a FIFO queue if and only if each push finds fewer
than 2^30 - 1 things. -/
theorem answersFifo_iff {calls : List (QueueCall α)} (hcalls : calls.length < 2 ^ 64) :
    (∃ q, (machine α).Trace {} (Machine.traceOf fifoNext [] calls) q) ↔
      TransitionSystem.AllAllowed Fits (fun l k => (fifoNext l k).2) [] calls :=
  exists_trace_iff (.empty hcalls) le_rfl

end Runs

/-- Two things leave in the order in which they came. -/
theorem answersFifo_iff_twoThings :
    ∃ q, (machine Nat).Trace {} [
      (.pop, .popped none), (.push 1, .pushed), (.push 2, .pushed), (.pop, .popped (some 1)),
      (.pop, .popped (some 2)), (.pop, .popped none)] q :=
  (@answersFifo_iff Nat _ [.pop, .push 1, .push 2, .pop, .pop, .pop] (by decide)).mpr
    (by simp [TransitionSystem.AllAllowed, Fits, fifoNext])

/-- The push onto 2^30 - 1 things fails. -/
theorem exists_not_answersFifo :
    ∃ calls : List (QueueCall Nat),
      ¬ ∃ q, (machine Nat).Trace {} (Machine.traceOf fifoNext [] calls) q := by
  refine ⟨List.replicate (2 ^ 30 - 1 + 1) (.push 0), fun hexists => ?_⟩
  have hempty : Represents (2 ^ 30) ({} : LFArrayQueue Nat) [] := .empty (by decide)
  have hall := (exists_trace_iff hempty (by rw [List.length_replicate]; decide)).mp hexists
  have hlt := hall.measure_lt List.length (fun _ => List.length_append) fun _ hfits => hfits
  rw [List.length_nil] at hlt
  omega

end LFArrayQueue

end Lockfree
end OFlux
