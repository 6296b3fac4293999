import Mathlib.Algebra.Group.Nat.Defs
import Mathlib.Algebra.Ring.Int.Defs
import Mathlib.Algebra.Order.GroupWithZero.Basic
import Mathlib.Algebra.Order.Ring.Int
import Mathlib.Data.Int.ModEq
import Mathlib.Logic.Function.Basic
import OFlux.Library.Machine

/-!
# The work-stealing deque

The elements stand in a circular array, between the indices {lit}`_top` and {lit}`_bottom`; an array
that gets full is copied into one of twice the size.  Calls are taken one after another.  Indices are
64-bit integers, but the size of an array is a shift of a 32-bit one.

Main results:

- Theorem {lit}`CircularArray.grow_of_le`: a growing array keeps the entries between the indices.
- Theorem {lit}`Represents.pushBottom`, {lit}`Represents.popBottom`, {lit}`Represents.steal`: what a
  call does to the elements that remain.
- Theorem {lit}`CircularWorkStealingDeque.answersDeque_iff`: the deque answers as a double-ended
  queue as long as no push finds 2^30 - 1 elements.
-/

namespace OFlux
namespace Lockfree
namespace WorkStealing

open Library

variable {T : Type}

/-! ## The circular array -/

/-- What can go wrong in a push: there is no array of the next size, or no next index. -/
inductive Failure where
  | badAlloc
  | overflow
deriving DecidableEq

/-- The pointers of the array by their positions; none was written into an entry at first.  The array
that it was copied from is only kept until the end. -/
structure CircularArray (T : Type) where
  logSize : Nat := 8
  data : Int → Option T := fun _ => none

namespace CircularArray

/-- The number of entries. -/
def size (a : CircularArray T) : Int := 2 ^ a.logSize

/-- The entry for index `i`. -/
def get (a : CircularArray T) (i : Int) : Option T := a.data (i.tmod a.size)

/-- Writes the entry for index `i`. -/
def put (a : CircularArray T) (i : Int) (o : Option T) : CircularArray T :=
  { a with data := Function.update a.data (i.tmod a.size) o }

/-- {lit}`new TPtr[1 << log_size]`: the shift leaves the integers of 32 bits after 2^30. -/
def new (logSize : Nat) : Except Failure (CircularArray T) :=
  if logSize ≤ 30 then .ok { logSize := logSize } else .error .badAlloc

/-- The loop of {lit}`grow`, for the entries from an index on. -/
def copyFrom (a : CircularArray T) (res : CircularArray T) (i : Int) : Nat → CircularArray T
  | 0 => res
  | n + 1 => copyFrom a (res.put i (a.get i)) (i + 1) n

/-- An array of twice the size with the entries from `t` to `b`. -/
def grow (a : CircularArray T) (b t : Int) : Except Failure (CircularArray T) :=
  (new (a.logSize + 1)).map fun res => a.copyFrom res t (b - t).toNat

/-- An array has room. -/
theorem size_pos (a : CircularArray T) : 0 < a.size :=
  Int.pow_pos (by decide)

@[simp]
theorem logSize_put (a : CircularArray T) (i : Int) (o : Option T) :
    (a.put i o).logSize = a.logSize := rfl

@[simp]
theorem size_put (a : CircularArray T) (i : Int) (o : Option T) : (a.put i o).size = a.size := rfl

@[simp]
theorem get_put_self (a : CircularArray T) (i : Int) (o : Option T) : (a.put i o).get i = o := by
  simp [get, put, size]

/-- Indices that differ by less than the size have entries of their own. -/
theorem tmod_ne {i j size : Int} (hi : 0 ≤ i) (hij : i < j) (hj : j < i + size) :
    j.tmod size ≠ i.tmod size := by
  intro heq
  rw [Int.tmod_eq_emod_of_nonneg hi, Int.tmod_eq_emod_of_nonneg (by omega)] at heq
  have hdvd : size ∣ j - i := Int.ModEq.dvd heq.symm
  have hle := Int.le_of_dvd (by omega) hdvd
  omega

/-- Writing one entry keeps those at most a size below. -/
theorem get_put_of_lt (a : CircularArray T) {i j : Int} (o : Option T) (hj : 0 ≤ j) (hji : j < i)
    (hi : i < j + a.size) : (a.put i o).get j = a.get j := by
  have hne : j.tmod a.size ≠ i.tmod a.size := (tmod_ne hj hji hi).symm
  simp only [get, put]
  exact Function.update_of_ne hne _ _

section Copy

variable (a : CircularArray T) {res : CircularArray T} {i j : Int} {n : Nat}

/-- Copying keeps the size. -/
theorem logSize_copyFrom : (a.copyFrom res i n).logSize = res.logSize := by
  induction n generalizing res i with
  | zero => rfl
  | succ n ih => exact ih

/-- The loop leaves the entries before it alone. -/
theorem get_copyFrom_of_lt (hj : 0 ≤ j) (hji : j < i) (hn : i + n ≤ j + res.size) :
    (a.copyFrom res i n).get j = res.get j := by
  induction n generalizing res i with
  | zero => rfl
  | succ n ih =>
      push_cast at hn
      have hrest : (a.copyFrom (res.put i (a.get i)) (i + 1) n).get j =
          (res.put i (a.get i)).get j := ih (by omega) (by rw [size_put]; omega)
      rw [copyFrom, hrest]
      exact res.get_put_of_lt _ hj hji (by omega)

/-- The loop copies the entries. -/
theorem get_copyFrom (hi : 0 ≤ i) (hij : i ≤ j) (hj : j < i + n) (hn : n ≤ res.size) :
    (a.copyFrom res i n).get j = a.get j := by
  induction n generalizing res i with
  | zero => omega
  | succ n ih =>
      push_cast at hj hn
      rw [copyFrom]
      rcases eq_or_lt_of_le hij with rfl | hlt
      · rw [get_copyFrom_of_lt a hi (by omega) (by rw [size_put]; omega), get_put_self]
      · exact ih (by omega) (by omega) (by omega) (by rw [size_put]; omega)

end Copy

/-- The array of twice the size keeps the entries between two indices that are not further apart than
the size. -/
theorem grow_of_le {a : CircularArray T} {b t : Int} (hlog : a.logSize + 1 ≤ 30) (ht : 0 ≤ t)
    (hb : b ≤ t + a.size) :
    ∃ res, a.grow b t = .ok res ∧ res.logSize = a.logSize + 1 ∧
      ∀ j, t ≤ j → j < b → res.get j = a.get j := by
  have hsize : (2 : Int) ^ (a.logSize + 1) = 2 * a.size := by rw [pow_succ, mul_comm, size]
  have hpos := a.size_pos
  refine ⟨a.copyFrom { logSize := a.logSize + 1 } t (b - t).toNat, ?_, a.logSize_copyFrom,
    fun j htj hjb => a.get_copyFrom ht htj (by omega) ?_⟩
  · rw [grow, new, if_pos hlog, Except.map]
  · show ((b - t).toNat : Int) ≤ 2 ^ (a.logSize + 1)
    omega

/-- An array that is too large cannot be made. -/
theorem grow_of_lt {a : CircularArray T} {b t : Int} (hlog : 30 < a.logSize + 1) :
    a.grow b t = .error .badAlloc := by
  rw [grow, new, if_neg (Nat.not_le.mpr hlog), Except.map]

end CircularArray

/-! ## The deque -/

/-- What a call returns: a sentinel, or the content of an entry. -/
inductive DequePtr (T : Type) where
  | empty
  | abort
  | entry (o : Option T)
deriving DecidableEq

/-- The two ends of the deque and its array. -/
structure CircularWorkStealingDeque (T : Type) where
  bottom : Int := 0
  top : Int := 0
  activeArray : CircularArray T := {}

/-- The largest {lit}`long`. -/
def longMax : Int := 2 ^ 63 - 1

namespace CircularWorkStealingDeque

/-- Moves the top when it is still what was read. -/
def casTop (d : CircularWorkStealingDeque T) (oldVal newVal : Int) :
    CircularWorkStealingDeque T × Bool :=
  if d.top = oldVal then ({ d with top := newVal }, true) else (d, false)

/-- Pushes at the end of the owner, into a larger array when this one is full. -/
def pushBottom (d : CircularWorkStealingDeque T) (e : T) :
    Except Failure (CircularWorkStealingDeque T) :=
  let b := d.bottom
  let t := d.top
  let a := d.activeArray
  let size := b - t
  match if size ≥ a.size - 1 then a.grow b t else .ok a with
  | .error err => .error err
  | .ok a =>
      if b < longMax then .ok { d with activeArray := a.put b (some e), bottom := b + 1 }
      else .error .overflow

/-- Takes from the end of the thieves. -/
def steal (d : CircularWorkStealingDeque T) : DequePtr T × CircularWorkStealingDeque T :=
  let t := d.top
  let b := d.bottom
  let a := d.activeArray
  let size := b - t
  if size ≤ 0 then (.empty, d)
  else
    let e := a.get t
    match d.casTop t (t + 1) with
    | (d, false) => (.abort, d)
    | (d, true) => (.entry e, d)

/-- Takes from the end of the owner, who races the thieves for the last entry. -/
def popBottom (d : CircularWorkStealingDeque T) : DequePtr T × CircularWorkStealingDeque T :=
  let a := d.activeArray
  let b := d.bottom - 1
  let d := { d with bottom := b }
  let t := d.top
  let size := b - t
  if size < 0 then (.empty, { d with bottom := t })
  else
    let e := a.get b
    if size > 0 then (.entry e, d)
    else
      match d.casTop t (t + 1) with
      | (d, false) => (.empty, { d with bottom := t + 1 })
      | (d, true) => (.entry e, { d with bottom := t + 1 })

section Ends

variable {d : CircularWorkStealingDeque T}

/-- A steal from an empty deque finds it empty. -/
theorem steal_of_le (h : d.bottom ≤ d.top) : d.steal = (.empty, d) := by
  have hsize : d.bottom - d.top ≤ 0 := by omega
  simp only [steal, if_pos hsize]

/-- A steal takes the entry at the top. -/
theorem steal_of_lt (h : d.top < d.bottom) :
    d.steal = (.entry (d.activeArray.get d.top), { d with top := d.top + 1 }) := by
  have hsize : ¬ d.bottom - d.top ≤ 0 := by omega
  simp only [steal, if_neg hsize, casTop, if_true]

/-- A pop from an empty deque finds it empty. -/
theorem popBottom_of_le (h : d.bottom ≤ d.top) :
    d.popBottom = (.empty, { d with bottom := d.top }) := by
  have hsize : d.bottom - 1 - d.top < 0 := by omega
  simp only [popBottom, if_pos hsize]

/-- A pop takes the entry at the bottom. -/
theorem popBottom_of_lt (h : d.top + 1 < d.bottom) :
    d.popBottom = (.entry (d.activeArray.get (d.bottom - 1)), { d with bottom := d.bottom - 1 }) := by
  have hsize : ¬ d.bottom - 1 - d.top < 0 := by omega
  have hmore : d.bottom - 1 - d.top > 0 := by omega
  simp only [popBottom, if_neg hsize, if_pos hmore]

/-- The single element is at both ends; it is taken as a thief would take it. -/
theorem popBottom_of_eq (h : d.bottom = d.top + 1) :
    d.popBottom = (.entry (d.activeArray.get d.top), { d with top := d.top + 1 }) := by
  have hlast : d.bottom - 1 = d.top := by omega
  simp only [popBottom, hlast, sub_self, lt_irrefl, if_false, casTop, if_true, ← h]

end Ends

end CircularWorkStealingDeque

/-- The calls on a deque. -/
inductive DequeCall (T : Type) where
  | pushBottom (e : T)
  | popBottom
  | steal

/-- What a call on the deque returns. -/
inductive DequeAnswer (T : Type) where
  | pushed
  | ptr (p : DequePtr T)
deriving DecidableEq

/-- The deque as a machine; a push that fails gives no answer. -/
def CircularWorkStealingDeque.machine (T : Type) :
    Machine (CircularWorkStealingDeque T) (DequeCall T) (DequeAnswer T) where
  init d := d = {}
  call d k a d' :=
    match k with
    | .pushBottom e => d.pushBottom e = .ok d' ∧ a = .pushed
    | .popBottom => d' = d.popBottom.2 ∧ a = .ptr d.popBottom.1
    | .steal => d' = d.steal.2 ∧ a = .ptr d.steal.1

/-! ## A double-ended queue -/

/-- What a double-ended queue answers, and the elements that remain, the oldest one first. -/
def dequeNext (remaining : List T) : DequeCall T → DequeAnswer T × List T
  | .pushBottom e => (.pushed, remaining ++ [e])
  | .popBottom =>
      match remaining.getLast? with
      | none => (.ptr .empty, remaining)
      | some e => (.ptr (.entry (some e)), remaining.dropLast)
  | .steal =>
      match remaining with
      | [] => (.ptr .empty, [])
      | e :: rest => (.ptr (.entry (some e)), rest)

/-- A push finds fewer than 2^30 - 1 elements. -/
def Fits (remaining : List T) : DequeCall T → Prop
  | .pushBottom _ => remaining.length + 1 < 2 ^ 30
  | .popBottom | .steal => True

/-- The elements that remain are in the entries between the two indices, and that many calls are
possible. -/
structure Represents (n : Nat) (d : CircularWorkStealingDeque T) (remaining : List T) : Prop where
  top : 0 ≤ d.top
  bottom : d.bottom = d.top + remaining.length
  budget : d.bottom + n ≤ longMax
  room : remaining.length < d.activeArray.size
  log : d.activeArray.logSize ≤ 30
  live : ∀ (k : Nat) e, remaining[k]? = some e → d.activeArray.get (d.top + k) = some e

namespace Represents

variable {n : Nat} {d : CircularWorkStealingDeque T} {remaining : List T}

/-- A new deque is empty. -/
theorem empty (h : n ≤ 2 ^ 63 - 1) : Represents n ({} : CircularWorkStealingDeque T) [] where
  top := le_rfl
  bottom := rfl
  budget := by
    show (0 : Int) + n ≤ 2 ^ 63 - 1
    omega
  room := CircularArray.size_pos _
  log := Nat.le_of_ble_eq_true rfl
  live k e hk := by simp at hk

/-- One call less to come. -/
theorem spend (h : Represents (n + 1) d remaining) : Represents n d remaining :=
  { h with
    budget := by
      have hbudget := h.budget
      push_cast at hbudget
      omega }

/-- There is room for one more element, or the array has the largest size and is too full. -/
theorem exists_array (h : Represents n d remaining) :
    (∃ a, (if d.bottom - d.top ≥ d.activeArray.size - 1 then d.activeArray.grow d.bottom d.top
        else .ok d.activeArray) = .ok a ∧ a.logSize ≤ 30 ∧ remaining.length + 1 < a.size ∧
        ∀ j, d.top ≤ j → j < d.bottom → a.get j = d.activeArray.get j) ∨
      (if d.bottom - d.top ≥ d.activeArray.size - 1 then d.activeArray.grow d.bottom d.top
        else .ok d.activeArray) = .error .badAlloc ∧ ¬ remaining.length + 1 < 2 ^ 30 := by
  have hbottom := h.bottom
  have hroom := h.room
  by_cases hfull : d.bottom - d.top ≥ d.activeArray.size - 1
  · rw [if_pos hfull]
    rcases Nat.lt_or_ge 30 (d.activeArray.logSize + 1) with hlog | hlog
    · refine Or.inr ⟨CircularArray.grow_of_lt hlog, ?_⟩
      have hsize : d.activeArray.size = 2 ^ 30 := by
        rw [CircularArray.size, Nat.le_antisymm h.log (Nat.le_of_lt_succ hlog)]
      omega
    · obtain ⟨a, hgrow, hlogSize, hget⟩ :=
        CircularArray.grow_of_le (b := d.bottom) hlog h.top (by omega)
      have hdouble : a.size = 2 * d.activeArray.size := by
        rw [CircularArray.size, hlogSize, pow_succ, mul_comm, CircularArray.size]
      exact Or.inl ⟨a, hgrow, hlogSize ▸ hlog, by omega, hget⟩
  · rw [if_neg hfull]
    exact Or.inl ⟨_, rfl, h.log, by omega, fun _ _ _ => rfl⟩

/-- A push that fits puts the element behind the others. -/
theorem pushBottom (h : Represents (n + 1) d remaining) (e : T)
    (hfits : remaining.length + 1 < 2 ^ 30) :
    ∃ d', d.pushBottom e = .ok d' ∧ Represents n d' (remaining ++ [e]) := by
  rcases h.exists_array with ⟨a, ha, hlog, hroom, hget⟩ | ⟨-, hno⟩
  · have hbottom := h.bottom
    have htop := h.top
    have hbudget := h.budget
    have hlt : d.bottom < longMax := by
      push_cast at hbudget
      omega
    refine ⟨{ d with activeArray := a.put d.bottom (some e), bottom := d.bottom + 1 }, ?_,
      { top := htop, bottom := ?_, budget := ?_, room := ?_, log := hlog, live := ?_ }⟩
    · simp only [CircularWorkStealingDeque.pushBottom, ha, if_pos hlt]
    · simp [hbottom, add_assoc]
    · push_cast at hbudget
      show d.bottom + 1 + n ≤ longMax
      omega
    · simpa using hroom
    · intro k x hk
      show (a.put d.bottom (some e)).get (d.top + k) = some x
      rcases Nat.lt_or_ge k remaining.length with hlive | hnew
      · rw [List.getElem?_append_left hlive] at hk
        rw [a.get_put_of_lt _ (by omega) (by omega) (by omega),
          hget _ (by omega) (by omega)]
        exact h.live k x hk
      · rw [List.getElem?_append_right hnew, List.getElem?_singleton] at hk
        split at hk
        next hzero =>
          have hlast : d.bottom = d.top + k := by omega
          rw [← hlast, a.get_put_self, hk]
        · cases hk
  · exact absurd hfits hno

/-- A push that does not fit fails. -/
theorem pushBottom_eq_error (h : Represents n d remaining) (e : T)
    (hfits : ¬ remaining.length + 1 < 2 ^ 30) : d.pushBottom e = .error .badAlloc := by
  rcases h.exists_array with ⟨a, -, hlog, hroom, -⟩ | ⟨hfail, -⟩
  · have hsize : a.size ≤ 2 ^ 30 := pow_le_pow_right₀ (by decide) hlog
    omega
  · simp only [CircularWorkStealingDeque.pushBottom, hfail]

/-- The oldest element goes. -/
theorem tail {e : T} {rest : List T} (h : Represents n d (e :: rest)) :
    d.activeArray.get d.top = some e ∧ Represents n { d with top := d.top + 1 } rest := by
  have htop := h.top
  have hbottom := h.bottom
  have hroom := h.room
  rw [List.length_cons] at hbottom hroom
  have hfirst := h.live 0 e rfl
  rw [Nat.cast_zero, add_zero] at hfirst
  refine ⟨hfirst, ?_, ?_, h.budget, ?_, h.log, fun k x hk => ?_⟩
  · show 0 ≤ d.top + 1
    omega
  · show d.bottom = d.top + 1 + rest.length
    omega
  · show (rest.length : Int) < d.activeArray.size
    omega
  · have hlive := h.live (k + 1) x hk
    show d.activeArray.get (d.top + 1 + k) = some x
    rwa [Nat.cast_succ, add_comm (k : Int), ← add_assoc] at hlive

/-- The newest element goes. -/
theorem dropLast {e : T} (h : Represents n d (remaining ++ [e])) :
    d.activeArray.get (d.bottom - 1) = some e ∧
      Represents n { d with bottom := d.bottom - 1 } remaining := by
  have hbottom := h.bottom
  have hroom := h.room
  have hbudget := h.budget
  rw [List.length_append, List.length_singleton] at hbottom hroom
  have hlast := h.live remaining.length e (by simp)
  rw [show d.top + remaining.length = d.bottom - 1 by omega] at hlast
  refine ⟨hlast, h.top, ?_, ?_, ?_, h.log, fun k x hk => ?_⟩
  · show d.bottom - 1 = d.top + remaining.length
    omega
  · show d.bottom - 1 + n ≤ longMax
    omega
  · show (remaining.length : Int) < d.activeArray.size
    omega
  · have hlt := (List.getElem?_eq_some_iff.mp hk).1
    exact h.live k x (by rwa [List.getElem?_append_left hlt])

/-- A steal takes the oldest element. -/
theorem steal (h : Represents n d remaining) :
    (dequeNext remaining .steal).1 = .ptr d.steal.1 ∧
      Represents n d.steal.2 (dequeNext remaining .steal).2 := by
  have hbottom := h.bottom
  cases remaining with
  | nil =>
      rw [CircularWorkStealingDeque.steal_of_le (by simp [hbottom])]
      exact ⟨rfl, h⟩
  | cons e rest =>
      obtain ⟨hfirst, hrest⟩ := h.tail
      rw [List.length_cons] at hbottom
      rw [CircularWorkStealingDeque.steal_of_lt (by omega), hfirst]
      exact ⟨rfl, hrest⟩

/-- A pop takes the newest element. -/
theorem popBottom (h : Represents n d remaining) :
    (dequeNext remaining .popBottom).1 = .ptr d.popBottom.1 ∧
      Represents n d.popBottom.2 (dequeNext remaining .popBottom).2 := by
  have hbottom := h.bottom
  rcases List.eq_nil_or_concat remaining with rfl | ⟨rest, e, rfl⟩
  · rw [List.length_nil, Nat.cast_zero, add_zero] at hbottom
    rw [CircularWorkStealingDeque.popBottom_of_le (Int.le_of_eq hbottom)]
    exact ⟨rfl, { h with bottom := (add_zero d.top).symm, budget := hbottom ▸ h.budget }⟩
  · simp only [List.concat_eq_append, dequeNext, List.getLast?_concat, List.dropLast_concat] at *
    rw [List.length_append, List.length_singleton] at hbottom
    rcases Nat.eq_zero_or_pos rest.length with hzero | hpos
    · rw [List.length_eq_zero_iff] at hzero
      subst hzero
      obtain ⟨hfirst, hrest⟩ := h.tail
      rw [CircularWorkStealingDeque.popBottom_of_eq (by simpa using hbottom), hfirst]
      exact ⟨rfl, hrest⟩
    · obtain ⟨hlast, hrest⟩ := h.dropLast
      rw [CircularWorkStealingDeque.popBottom_of_lt (by omega), hlast]
      exact ⟨rfl, hrest⟩

end Represents

/-! ## Runs -/

namespace CircularWorkStealingDeque

/-- The deque has one answer to each call. -/
theorem machine_deterministic : (machine T).Deterministic := by
  intro d k a b t u ha hb
  cases k with
  | pushBottom e =>
      obtain ⟨ht, rfl⟩ := ha
      obtain ⟨hu, rfl⟩ := hb
      exact ⟨rfl, Except.ok.inj (ht.symm.trans hu)⟩
  | popBottom => exact ⟨ha.2.trans hb.2.symm, ha.1.trans hb.1.symm⟩
  | steal => exact ⟨ha.2.trans hb.2.symm, ha.1.trans hb.1.symm⟩

/-- From a state that represents the remaining elements. -/
theorem exists_trace_iff {n : Nat} {d : CircularWorkStealingDeque T} {remaining : List T}
    (h : Represents n d remaining) {calls : List (DequeCall T)} (hn : calls.length ≤ n) :
    (∃ t, (machine T).Trace d (Machine.traceOf dequeNext remaining calls) t) ↔
      TransitionSystem.AllAllowed Fits (fun l k => (dequeNext l k).2) remaining calls := by
  refine Machine.exists_trace_iff (R := Represents) machine_deterministic ?_ ?_ h hn
  · intro n d l k hR hfits
    cases k with
    | pushBottom e =>
        obtain ⟨t, hpush, ht⟩ := hR.pushBottom e hfits
        exact ⟨t, ⟨hpush, rfl⟩, ht⟩
    | popBottom =>
        obtain ⟨hanswer, ht⟩ := hR.spend.popBottom
        exact ⟨_, ⟨rfl, hanswer⟩, ht⟩
    | steal =>
        obtain ⟨hanswer, ht⟩ := hR.spend.steal
        exact ⟨_, ⟨rfl, hanswer⟩, ht⟩
  · intro n d l k t hR hno hcall
    cases k with
    | pushBottom e =>
        rw [machine] at hcall
        exact nomatch (hR.pushBottom_eq_error e hno).symm.trans hcall.1
    | popBottom => exact hno trivial
    | steal => exact hno trivial

/-- In fewer than 2^63 calls the deque answers as a double-ended queue if and only if each push finds
fewer than 2^30 - 1 elements. -/
theorem answersDeque_iff {calls : List (DequeCall T)} (hcalls : calls.length < 2 ^ 63) :
    (∃ d, (machine T).Trace {} (Machine.traceOf dequeNext [] calls) d) ↔
      TransitionSystem.AllAllowed Fits (fun l k => (dequeNext l k).2) [] calls :=
  exists_trace_iff (.empty (Nat.le_sub_one_of_lt hcalls)) le_rfl

/-- Two elements leave at different ends, and then the deque is empty. -/
theorem answersDeque_iff_bothEnds :
    ∃ d, (machine Nat).Trace {} [
      (.pushBottom 1, .pushed), (.pushBottom 2, .pushed), (.pushBottom 3, .pushed),
      (.steal, .ptr (.entry (some 1))), (.popBottom, .ptr (.entry (some 3))),
      (.popBottom, .ptr (.entry (some 2))), (.popBottom, .ptr .empty), (.steal, .ptr .empty)] d :=
  (@answersDeque_iff Nat [.pushBottom 1, .pushBottom 2, .pushBottom 3, .steal, .popBottom,
    .popBottom, .popBottom, .steal] (by decide)).mpr
    (by simp [TransitionSystem.AllAllowed, Fits, dequeNext])

/-- The push onto 2^30 - 1 elements fails. -/
theorem exists_not_answersDeque :
    ∃ calls : List (DequeCall Nat),
      ¬ ∃ d, (machine Nat).Trace {} (Machine.traceOf dequeNext [] calls) d := by
  refine ⟨List.replicate (2 ^ 30 - 1 + 1) (.pushBottom 0), fun hexists => ?_⟩
  have hempty : Represents (2 ^ 30) ({} : CircularWorkStealingDeque Nat) [] :=
    .empty (by decide)
  have hall := (exists_trace_iff hempty (by rw [List.length_replicate]; decide)).mp hexists
  have hlt := hall.measure_lt List.length (fun _ => List.length_append) fun _ hfits => hfits
  rw [List.length_nil] at hlt
  omega

end CircularWorkStealingDeque

end WorkStealing
end Lockfree
end OFlux
