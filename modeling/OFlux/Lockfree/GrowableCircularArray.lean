import Mathlib.Data.List.Basic
import Mathlib.Data.Nat.ModEq
import Mathlib.Logic.Function.Basic
import Mathlib.Order.Basic

/-!
# The growable circular array

A circular array grows by putting an array of twice the size in front of it.  An entry of
the new array that holds the address of a sentinel has not been taken over: a lookup goes
on to the older array there.  Indices are unsigned and wrap around; the sizes are powers
of two, so that an index keeps its entry when it does.

Main results:

- Theorem {lit}`StoresAt.grow`: growing keeps what is stored.
- Theorem {lit}`StoresAt.push`: a thing is put behind the last one.
- Theorem {lit}`StoresAt.pop`: the first thing is taken out.
-/

namespace OFlux
namespace Lockfree

/-! ## The array -/

/-- The pointer of an entry: null, the address of the sentinel, or a thing. -/
inductive EntryPtr (α : Type) where
  | null
  | uninitSentinel
  | thing (x : α)
deriving DecidableEq

/-- The index {lit}`-1` of an entry without a thing. -/
def noIndex : Nat := 2 ^ 64 - 1

/-- An entry of an implementation: what it holds and the index it was written for. -/
structure TStructEntry (α : Type) where
  ptr : EntryPtr α
  atIndex : Nat
deriving DecidableEq

/-- One array; {lit}`data` has an entry for each number below the size. -/
structure CircularArrayImplementation (α : Type) where
  logSize : Nat
  data : Nat → TStructEntry α

/-- The newest array and behind it the older ones. -/
abbrev CircularArray (α : Type) := List (CircularArrayImplementation α)

/-- What can go wrong in a call. -/
inductive Failure where
  | assertion
  | badAlloc
deriving DecidableEq

namespace CircularArrayImplementation

variable {α : Type}

/-- The logarithm of the first size. -/
def defaultLogSize : Nat := 4

/-- The number of entries. -/
def size (impl : CircularArrayImplementation α) : Nat := 2 ^ impl.logSize

/-- The first array. -/
def first : CircularArrayImplementation α where
  logSize := defaultLogSize
  data _ := { ptr := .null, atIndex := noIndex }

/-- An array in front of another one. -/
def inFrontOf (old : CircularArrayImplementation α) : CircularArrayImplementation α where
  logSize := old.logSize + 1
  data _ := { ptr := .uninitSentinel, atIndex := noIndex }

/-- Writes the entry at a position. -/
def set (impl : CircularArrayImplementation α) (pos : Nat) (entry : TStructEntry α) :
    CircularArrayImplementation α :=
  { impl with data := Function.update impl.data pos entry }

section Set

variable (impl : CircularArrayImplementation α) (pos : Nat) (e e' : TStructEntry α)

@[simp]
theorem size_set : (impl.set pos e).size = impl.size := rfl

@[simp]
theorem logSize_set : (impl.set pos e).logSize = impl.logSize := rfl

@[simp]
theorem data_set_self : (impl.set pos e).data pos = e := by
  simp [set]

theorem data_set_ne {pos' : Nat} (h : pos' ≠ pos) :
    (impl.set pos e).data pos' = impl.data pos' :=
  Function.update_of_ne h _ _

@[simp]
theorem set_set : (impl.set pos e).set pos e' = impl.set pos e' := by
  simp [set]

end Set

end CircularArrayImplementation

namespace CircularArray

variable {α : Type}

/-- The array that the constructor builds. -/
def new : CircularArray α := [.first]

/-- {lit}`get`: the entry of an index, taken over into the newest array when
{lit}`update` is set. -/
def get : CircularArray α → Nat → Bool → Except Failure (CircularArray α × TStructEntry α)
  | [], _, _ => .error .assertion
  | impl :: old, i, update =>
      let r := impl.data (i % impl.size)
      match r.ptr with
      | .uninitSentinel =>
          match get old i false with
          | .error err => .error err
          | .ok (old, rold) =>
              if update then
                let r := if rold.atIndex = i then { ptr := rold.ptr, atIndex := i }
                  else { r with ptr := .null }
                .ok (impl.set (i % impl.size) r :: old, r)
              else .ok (impl :: old, rold)
      | _ => .ok (impl :: old, r)

/-- {lit}`cas_from_null`, on the newest array that has the entry. -/
def casFromNull : CircularArray α → Nat → α → Except Failure (CircularArray α × Bool)
  | [], _, _ => .error .assertion
  | impl :: old, i, n =>
      match (impl.data (i % impl.size)).ptr with
      | .uninitSentinel => (casFromNull old i n).map fun (old, res) => (impl :: old, res)
      | .null => .ok (impl.set (i % impl.size) { ptr := .thing n, atIndex := i } :: old, true)
      | .thing x =>
          .ok (impl.set (i % impl.size) { ptr := .thing x, atIndex := i } :: old, false)

/-- {lit}`cas_to_null`, on the newest array that has the entry. -/
def casToNull [DecidableEq α] :
    CircularArray α → Nat → α → Except Failure (CircularArray α × Bool)
  | [], _, _ => .error .assertion
  | impl :: old, i, o =>
      match (impl.data (i % impl.size)).ptr with
      | .uninitSentinel => (casToNull old i o).map fun (old, res) => (impl :: old, res)
      | .null => .ok (impl.set (i % impl.size) { ptr := .null, atIndex := noIndex } :: old, false)
      | .thing x =>
          if x = o then
            .ok (impl.set (i % impl.size) { ptr := .null, atIndex := noIndex } :: old, true)
          else .ok (impl.set (i % impl.size) { ptr := .thing x, atIndex := noIndex } :: old, false)

/-- The size of the newest implementation. -/
def implSize : CircularArray α → Nat
  | [] => 0
  | impl :: _ => impl.size

/-- {lit}`grow`, when an array of that size can be had. -/
def grow (limit : Nat) : CircularArray α → Except Failure (CircularArray α)
  | [] => .error .assertion
  | impl :: old =>
      if impl.logSize + 1 ≤ limit then .ok (impl.inFrontOf :: impl :: old)
      else .error .badAlloc

/-! ## Cells -/

/-- The entry of an array, by the number of newer arrays and its position. -/
def entry (arrays : CircularArray α) (c : Nat × Nat) : Option (TStructEntry α) :=
  arrays[c.1]?.map fun impl => impl.data c.2

/-- Where a lookup ends. -/
def cell : CircularArray α → Nat → Option (Nat × Nat)
  | [], _ => none
  | impl :: old, i =>
      match (impl.data (i % impl.size)).ptr with
      | .uninitSentinel => (cell old i).map fun c => (c.1 + 1, c.2)
      | _ => some (0, i % impl.size)

/-- The entry where a lookup ends. -/
def slot (arrays : CircularArray α) (i : Nat) : Option (TStructEntry α) :=
  (arrays.cell i).bind arrays.entry

/-- Assign the entry where a lookup ends. -/
def write : CircularArray α → Nat → TStructEntry α → CircularArray α
  | [], _, _ => []
  | impl :: old, i, e =>
      match (impl.data (i % impl.size)).ptr with
      | .uninitSentinel => impl :: write old i e
      | _ => impl.set (i % impl.size) e :: old

@[simp]
theorem entry_cons_zero (impl : CircularArrayImplementation α) (old : CircularArray α)
    (pos : Nat) : CircularArray.entry (impl :: old) (0, pos) = some (impl.data pos) := rfl

@[simp]
theorem entry_cons_succ (impl : CircularArrayImplementation α) (old : CircularArray α)
    (d pos : Nat) : CircularArray.entry (impl :: old) (d + 1, pos) = old.entry (d, pos) := by
  simp [entry]

/-- The entries after one was written. -/
theorem entry_set (impl : CircularArrayImplementation α) (old : CircularArray α) (pos : Nat)
    (e : TStructEntry α) (c : Nat × Nat) :
    CircularArray.entry (impl.set pos e :: old) c =
      if c = (0, pos) then some e else CircularArray.entry (impl :: old) c := by
  obtain ⟨d, pos'⟩ := c
  cases d with
  | zero =>
      by_cases hpos : pos' = pos
      · simp [hpos]
      · simp [hpos, CircularArrayImplementation.data_set_ne]
  | succ d => simp

section Cons

variable {impl : CircularArrayImplementation α} (old : CircularArray α) {i : Nat}

/-- An entry not copied yet is looked for in the older array. -/
theorem cell_cons_of_uninit (h : (impl.data (i % impl.size)).ptr = .uninitSentinel) :
    CircularArray.cell (impl :: old) i = (old.cell i).map fun c => (c.1 + 1, c.2) := by
  simp [cell, h]

theorem cell_cons_of_ne (h : (impl.data (i % impl.size)).ptr ≠ .uninitSentinel) :
    CircularArray.cell (impl :: old) i = some (0, i % impl.size) := by
  rw [cell]
  split
  next hno => exact absurd hno h
  · rfl

/-- A lookup that ends in the newest array ends at the position of the index. -/
theorem pos_of_cell {pos : Nat} (h : CircularArray.cell (impl :: old) i = some (0, pos)) :
    i % impl.size = pos := by
  by_cases huninit : (impl.data (i % impl.size)).ptr = .uninitSentinel
  · rw [cell_cons_of_uninit old huninit, Option.map_eq_some_iff] at h
    obtain ⟨c, -, hc⟩ := h
    exact absurd (congrArg Prod.fst hc) (Nat.succ_ne_zero _)
  · rw [cell_cons_of_ne old huninit, Option.some.injEq, Prod.mk.injEq] at h
    exact h.2

/-- An entry not copied yet is read from the older array. -/
theorem slot_cons_of_uninit (h : (impl.data (i % impl.size)).ptr = .uninitSentinel) :
    CircularArray.slot (impl :: old) i = old.slot i := by
  rw [slot, cell_cons_of_uninit old h, slot]
  cases old.cell i <;> simp

theorem slot_cons_of_ne (h : (impl.data (i % impl.size)).ptr ≠ .uninitSentinel) :
    CircularArray.slot (impl :: old) i = some (impl.data (i % impl.size)) := by
  rw [slot, cell_cons_of_ne old h]
  rfl

end Cons

variable {arrays : CircularArray α} {i j : Nat} {e : TStructEntry α}

/-- A lookup ends at a thing or at null. -/
theorem ptr_of_slot (h : arrays.slot i = some e) : e.ptr ≠ .uninitSentinel := by
  induction arrays with
  | nil => cases h
  | cons impl old ih =>
      by_cases huninit : (impl.data (i % impl.size)).ptr = .uninitSentinel
      · rw [slot_cons_of_uninit old huninit] at h
        exact ih h
      · rw [slot_cons_of_ne old huninit] at h
        cases h
        exact huninit

/-- What is read stands in some cell. -/
theorem entry_of_slot (h : arrays.slot i = some e) :
    ∃ c, arrays.cell i = some c ∧ arrays.entry c = some e :=
  Option.bind_eq_some_iff.mp h

/-- {lit}`get` without an update changes nothing. -/
theorem get_false (h : arrays.slot i = some e) : arrays.get i false = .ok (arrays, e) := by
  induction arrays with
  | nil => cases h
  | cons impl old ih =>
      by_cases huninit : (impl.data (i % impl.size)).ptr = .uninitSentinel
      · rw [slot_cons_of_uninit old huninit] at h
        simp [get, huninit, ih h]
      · rw [slot_cons_of_ne old huninit] at h
        cases h
        rw [get]
        split
        next hno => exact absurd hno huninit
        · rfl

/-- The swap for null succeeds where the entry is the expected one. -/
theorem casToNull_eq [DecidableEq α] {a : Nat} {x : α}
    (h : arrays.slot i = some { ptr := .thing x, atIndex := a }) :
    arrays.casToNull i x = .ok (arrays.write i { ptr := .null, atIndex := noIndex }, true) := by
  induction arrays with
  | nil => cases h
  | cons impl old ih =>
      by_cases huninit : (impl.data (i % impl.size)).ptr = .uninitSentinel
      · rw [slot_cons_of_uninit old huninit] at h
        simp [casToNull, write, huninit, ih h, Except.map]
      · rw [slot_cons_of_ne old huninit, Option.some.injEq] at h
        simp [casToNull, write, h]

/-- An assignment where a lookup ends moves no lookup. -/
theorem cell_write (he : e.ptr ≠ .uninitSentinel) :
    (arrays.write i e).cell j = arrays.cell j := by
  induction arrays with
  | nil => rfl
  | cons impl old ih =>
      by_cases huninit : (impl.data (i % impl.size)).ptr = .uninitSentinel
      · simp [write, huninit, cell, ih]
      · have hwrite : CircularArray.write (impl :: old) i e =
            impl.set (i % impl.size) e :: old := by
          rw [write]
          split
          next hno => exact absurd hno huninit
          · rfl
        rw [hwrite]
        by_cases hpos : j % impl.size = i % impl.size
        · have hold : (impl.data (j % impl.size)).ptr ≠ .uninitSentinel := by
            rw [hpos]
            exact huninit
          have hnew : ((impl.set (i % impl.size) e).data
              (j % (impl.set (i % impl.size) e).size)).ptr ≠ .uninitSentinel := by
            show ((impl.set (i % impl.size) e).data (j % impl.size)).ptr ≠ _
            rw [hpos]
            simpa [CircularArrayImplementation.set] using he
          rw [cell_cons_of_ne old hold, cell_cons_of_ne old hnew]
          rfl
        · have hsame : ((impl.set (i % impl.size) e).data (j % impl.size)) =
              impl.data (j % impl.size) := Function.update_of_ne hpos _ _
          have hsize : (impl.set (i % impl.size) e).size = impl.size := rfl
          simp only [cell, hsize, hsame]

/-- An assignment where a lookup ends changes that entry only. -/
theorem entry_write {c : Nat × Nat} (hi : arrays.cell i ≠ none) :
    (arrays.write i e).entry c = if arrays.cell i = some c then some e else arrays.entry c := by
  induction arrays generalizing c with
  | nil => exact absurd rfl hi
  | cons impl old ih =>
      obtain ⟨d, pos⟩ := c
      by_cases huninit : (impl.data (i % impl.size)).ptr = .uninitSentinel
      · have hcell := cell_cons_of_uninit old huninit
        have hold : CircularArray.cell old i ≠ none := by
          intro hno
          rw [hcell, hno] at hi
          exact hi rfl
        obtain ⟨c', hc'⟩ := Option.ne_none_iff_exists'.mp hold
        have hwrite : CircularArray.write (impl :: old) i e =
            impl :: CircularArray.write old i e := by
          simp [write, huninit]
        rw [hwrite, hcell, hc']
        cases d with
        | zero => simp
        | succ d =>
            simp only [entry_cons_succ, ih hold, hc', Option.map_some, Option.some.injEq,
              Prod.ext_iff, Nat.add_right_cancel_iff]
      · have hwrite : CircularArray.write (impl :: old) i e =
            impl.set (i % impl.size) e :: old := by
          rw [write]
          split
          next hno => exact absurd hno huninit
          · rfl
        rw [hwrite, cell_cons_of_ne old huninit]
        cases d with
        | zero =>
            by_cases hpos : pos = i % impl.size
            · simp [hpos, CircularArrayImplementation.set]
            · simp [hpos, Ne.symm hpos, CircularArrayImplementation.set]
        | succ d => simp

/-- A write keeps the size. -/
theorem implSize_write : (arrays.write i e).implSize = arrays.implSize := by
  cases arrays with
  | nil => rfl
  | cons impl old =>
      rw [write]
      split <;> rfl

/-- A write keeps every size. -/
theorem logSize_write : (arrays.write i e).map CircularArrayImplementation.logSize =
    arrays.map CircularArrayImplementation.logSize := by
  induction arrays with
  | nil => rfl
  | cons impl old ih =>
      rw [write]
      split
      · simp [ih]
      · rfl

/-! ## What is stored -/

/-- Indices of consecutive places: sizes that are powers of two see consecutive numbers. -/
def Consecutive (index : Nat → Nat) : Prop :=
  ∀ k l, l ≤ 30 → index k % 2 ^ l = (index 0 + k) % 2 ^ l

namespace Consecutive

variable {index : Nat → Nat} {j k : Nat}

/-- Different places of one round have different positions. -/
theorem mod_injective {l : Nat} (h : Consecutive index) (hl : l ≤ 30) (hj : j < 2 ^ l)
    (hk : k < 2 ^ l) (heq : index j % 2 ^ l = index k % 2 ^ l) : j = k := by
  rw [h j l hl, h k l hl] at heq
  have hmod : j ≡ k [MOD 2 ^ l] := Nat.ModEq.add_left_cancel' (index 0) heq
  rwa [Nat.ModEq, Nat.mod_eq_of_lt hj, Nat.mod_eq_of_lt hk] at hmod

/-- Consecutive indices below the largest size are different. -/
theorem injective (h : Consecutive index) (hj : j < 2 ^ 30) (hk : k < 2 ^ 30)
    (heq : index j = index k) : j = k :=
  h.mod_injective le_rfl hj hk (by rw [heq])

end Consecutive

/-- The array stores these things at these indices, each in one entry; every other entry is
empty. -/
structure StoresAt (arrays : CircularArray α) (index : Nat → Nat) (xs : List α) : Prop where
  total : ∀ i, arrays.cell i ≠ none
  small : ∀ l ∈ arrays.map CircularArrayImplementation.logSize, l ≤ 30
  bounded : xs.length < arrays.implSize
  live : ∀ k x, xs[k]? = some x →
    arrays.slot (index k) = some { ptr := .thing x, atIndex := index k }
  entries : ∀ c e, arrays.entry c = some e →
    e = { ptr := .uninitSentinel, atIndex := noIndex } ∨
    e = { ptr := .null, atIndex := noIndex } ∨
    ∃ k x, xs[k]? = some x ∧ e = { ptr := .thing x, atIndex := index k } ∧
      arrays.cell (index k) = some c

namespace StoresAt

variable {index : Nat → Nat} {xs : List α} {x : α}

/-- A stored entry has an index below the size. -/
theorem lt_of_getElem? {k : Nat} (h : StoresAt arrays index xs) (hk : xs[k]? = some x) :
    k < arrays.implSize :=
  (List.getElem?_eq_some_iff.mp hk).1.trans h.bounded

/-- The size is bounded. -/
theorem implSize_le (h : StoresAt arrays index xs) : arrays.implSize ≤ 2 ^ 30 := by
  cases arrays with
  | nil => exact Nat.zero_le _
  | cons impl old =>
      exact Nat.pow_le_pow_right (by omega) (h.small impl.logSize List.mem_cons_self)

/-- Every index has an entry. -/
theorem slot_ne_none (h : StoresAt arrays index xs) (i : Nat) : ∃ e, arrays.slot i = some e := by
  obtain ⟨c, hc⟩ := Option.ne_none_iff_exists'.mp (h.total i)
  clear h
  induction arrays generalizing c with
  | nil => cases hc
  | cons impl old ih =>
      by_cases huninit : (impl.data (i % impl.size)).ptr = .uninitSentinel
      · rw [cell_cons_of_uninit old huninit, Option.map_eq_some_iff] at hc
        obtain ⟨c', hc', -⟩ := hc
        rw [slot_cons_of_uninit old huninit]
        exact ih c' hc'
      · exact ⟨_, slot_cons_of_ne old huninit⟩

/-- The empty array that a constructor leaves. -/
theorem new (index : Nat → Nat) : StoresAt (CircularArray.new : CircularArray α) index [] := by
  refine ⟨fun i => ?_, fun l hl => ?_, ?_, fun k x hk => ?_, fun c e he => ?_⟩
  · rw [CircularArray.new, cell_cons_of_ne]
    · simp
    · simp [CircularArrayImplementation.first]
  · simp [CircularArray.new, CircularArrayImplementation.first,
      CircularArrayImplementation.defaultLogSize] at hl
    omega
  · exact Nat.two_pow_pos _
  · simp at hk
  · obtain ⟨d, pos⟩ := c
    cases d with
    | zero =>
        cases he
        exact Or.inr (Or.inl rfl)
    | succ d => simp [CircularArray.new, entry] at he

/-- A bigger array in front does not change what is stored. -/
theorem grow {limit : Nat} (hlimit : limit ≤ 30) (h : StoresAt arrays index xs) :
    (∃ arrays', arrays.grow limit = .ok arrays' ∧ StoresAt arrays' index xs ∧
      arrays'.implSize = 2 * arrays.implSize) ∨
    arrays.grow limit = .error .badAlloc ∧ 2 ^ limit ≤ arrays.implSize := by
  cases arrays with
  | nil => exact absurd h.bounded (Nat.not_lt_zero _)
  | cons impl old =>
      by_cases hlog : impl.logSize + 1 ≤ limit
      case neg =>
        refine Or.inr ⟨by simp [CircularArray.grow, hlog], ?_⟩
        exact Nat.pow_le_pow_right (by omega) (by omega)
      refine Or.inl ?_
      have huninit : ∀ pos, (impl.inFrontOf.data pos).ptr = EntryPtr.uninitSentinel :=
        fun _ => rfl
      have hcell : ∀ i, CircularArray.cell (impl.inFrontOf :: impl :: old) i =
          (CircularArray.cell (impl :: old) i).map fun c => (c.1 + 1, c.2) :=
        fun i => cell_cons_of_uninit _ (huninit _)
      refine ⟨impl.inFrontOf :: impl :: old, by simp [CircularArray.grow, hlog], ⟨fun i => ?_,
        fun l hl => ?_, ?_, fun k x hk => ?_, fun c e he => ?_⟩, ?_⟩
      · rw [hcell i]
        simpa using h.total i
      · rcases List.mem_cons.mp hl with rfl | hl
        · exact hlog.trans hlimit
        · exact h.small l hl
      · have hbounded := h.bounded
        simp only [implSize, CircularArrayImplementation.size, CircularArrayImplementation.inFrontOf,
          Nat.pow_succ] at hbounded ⊢
        omega
      · rw [slot_cons_of_uninit _ (huninit _)]
        exact h.live k x hk
      · obtain ⟨d, pos⟩ := c
        cases d with
        | zero =>
            cases he
            exact Or.inl rfl
        | succ d =>
            rw [entry_cons_succ] at he
            rcases h.entries (d, pos) e he with huninit | hnull | ⟨k, x, hk, hthing, hat⟩
            · exact Or.inl huninit
            · exact Or.inr (Or.inl hnull)
            · exact Or.inr (Or.inr ⟨k, x, hk, hthing, by rw [hcell, hat]; rfl⟩)
      · simp [implSize, CircularArrayImplementation.size, CircularArrayImplementation.inFrontOf,
          Nat.pow_succ']

/-- The first thing is found and taken out. -/
theorem pop [DecidableEq α] (hindex : Consecutive index) (h : StoresAt arrays index (x :: xs)) :
    ∃ arrays', arrays.get (index 0) false =
        .ok (arrays, { ptr := .thing x, atIndex := index 0 }) ∧
      arrays.casToNull (index 0) x = .ok (arrays', true) ∧
      StoresAt arrays' (fun k => index (k + 1)) xs := by
  have hslot := h.live 0 x rfl
  refine ⟨arrays.write (index 0) { ptr := .null, atIndex := noIndex }, get_false hslot,
    casToNull_eq hslot, ⟨fun i => ?_, ?_, ?_, fun k y hk => ?_, fun c e he => ?_⟩⟩
  · rw [cell_write (by simp)]
    exact h.total i
  · rw [logSize_write]
    exact h.small
  · rw [implSize_write]
    exact (Nat.lt_succ_self _).trans h.bounded
  · have hold := h.live (k + 1) y hk
    rw [slot, cell_write (by simp)]
    obtain ⟨c, hc, hentry⟩ := entry_of_slot hold
    rw [hc, Option.bind_some, entry_write (h.total _)]
    split
    next hsame =>
      -- no entry holds two things
      have hslot' : arrays.slot (index 0) = arrays.slot (index (k + 1)) := by
        rw [slot, slot, hc, hsame]
      rw [hslot, hold] at hslot'
      have heq := congrArg TStructEntry.atIndex (Option.some_injective _ hslot')
      have hlt := h.lt_of_getElem? (k := k + 1) hk
      have hle := h.implSize_le
      exact absurd (hindex.injective (by omega) (by omega) heq) (by omega)
    · exact hentry
  · rw [entry_write (h.total _)] at he
    split at he
    · cases he
      exact Or.inr (Or.inl rfl)
    next hother =>
      rcases h.entries c e he with huninit | hnull | ⟨k, y, hk, hthing, hat⟩
      · exact Or.inl huninit
      · exact Or.inr (Or.inl hnull)
      · cases k with
        | zero => exact absurd hat hother
        | succ k =>
            refine Or.inr (Or.inr ⟨k, y, hk, hthing, ?_⟩)
            rw [cell_write (by simp)]
            exact hat

section Push

variable {impl : CircularArrayImplementation α} {old : CircularArray α}
  (hindex : Consecutive index) (h : StoresAt (impl :: old) index xs)
  (hroom : xs.length + 1 < impl.size)
include hindex h hroom

/-- The places of one round differ, also in the newest array. -/
theorem mod_ne_of_room {k : Nat} {y : α} (hk : xs[k]? = some y) :
    index k % impl.size ≠ index xs.length % impl.size := by
  intro hsame
  have hlog : impl.logSize ≤ 30 := h.small impl.logSize List.mem_cons_self
  have hsize : impl.size = 2 ^ impl.logSize := rfl
  have hklt := (List.getElem?_eq_some_iff.mp hk).1
  exact absurd (hindex.mod_injective hlog (by omega) (by omega) hsame) (by omega)

/-- The entry behind the last one stored is empty. -/
theorem data_of_room :
    impl.data (index xs.length % impl.size) = { ptr := .uninitSentinel, atIndex := noIndex } ∨
      impl.data (index xs.length % impl.size) = { ptr := .null, atIndex := noIndex } := by
  rcases h.entries (0, index xs.length % impl.size) _ rfl with
    huninit | hnull | ⟨k, y, hk, hthing, hat⟩
  · exact Or.inl huninit
  · exact Or.inr hnull
  · exact absurd (pos_of_cell old hat) (h.mod_ne_of_room hindex hroom hk)

/-- The place behind the last thing is null; an older entry at its position has another index. -/
theorem get_of_room (hlast : index xs.length ≠ noIndex) :
    CircularArray.get (impl :: old) (index xs.length) true =
      .ok (impl.set (index xs.length % impl.size) { ptr := .null, atIndex := noIndex } :: old,
        { ptr := .null, atIndex := noIndex }) := by
  have hsize : impl.size = 2 ^ impl.logSize := rfl
  have hle : impl.size ≤ 2 ^ 30 := h.implSize_le
  rcases h.data_of_room hindex hroom with huninit | hnull
  · obtain ⟨rold, hrold⟩ := h.slot_ne_none (index xs.length)
    have huninit' : (impl.data (index xs.length % impl.size)).ptr = .uninitSentinel := by
      rw [huninit]
    have hne : rold.atIndex ≠ index xs.length := by
      obtain ⟨c, -, hentry⟩ := entry_of_slot hrold
      have hptr := ptr_of_slot hrold
      rcases h.entries c rold hentry with heq | heq | ⟨k, y, hk, heq, -⟩
      · rw [heq] at hptr
        exact absurd rfl hptr
      · rw [heq]
        exact hlast.symm
      · rw [heq]
        have hklt := (List.getElem?_eq_some_iff.mp hk).1
        intro hsame
        exact absurd (hindex.injective (by omega) (by omega) hsame) (by omega)
    rw [slot_cons_of_uninit old huninit'] at hrold
    simp [CircularArray.get, huninit, get_false hrold, hne]
  · have hsame : impl.set (index xs.length % impl.size) { ptr := .null, atIndex := noIndex } =
        impl := by
      rw [CircularArrayImplementation.set, ← hnull, Function.update_eq_self]
    rw [hsame]
    simp [CircularArray.get, hnull]

/-- A thing that is written behind the last one is stored. -/
theorem set_of_room (x : α) :
    StoresAt (impl.set (index xs.length % impl.size)
      { ptr := .thing x, atIndex := index xs.length } :: old) index (xs ++ [x]) := by
  have hother : ∀ k y, xs[k]? = some y →
      index k % impl.size ≠ index xs.length % impl.size :=
    fun k y => h.mod_ne_of_room hindex hroom
  generalize hi : index xs.length = i at hother ⊢
  have hcell : ∀ j, j % impl.size ≠ i % impl.size →
      CircularArray.cell (impl.set (i % impl.size) { ptr := .thing x, atIndex := i } :: old)
        j = CircularArray.cell (impl :: old) j := by
    intro j hj
    simp only [cell, CircularArrayImplementation.size_set,
      CircularArrayImplementation.data_set_ne impl _ _ hj]
  have hnew : ∀ j, j % impl.size = i % impl.size →
      CircularArray.cell (impl.set (i % impl.size) { ptr := .thing x, atIndex := i } :: old)
        j = some (0, i % impl.size) := by
    intro j hj
    rw [cell_cons_of_ne] <;> simp [hj]
  refine ⟨fun j => ?_, h.small, ?_, fun k y hk => ?_, fun c e he => ?_⟩
  · by_cases hj : j % impl.size = i % impl.size
    · simp [hnew j hj]
    · rw [hcell j hj]
      exact h.total j
  · simpa [implSize] using hroom
  · rcases Nat.lt_or_ge k xs.length with hk' | hk'
    · rw [List.getElem?_append_left hk'] at hk
      obtain ⟨c, hc, hentry⟩ := entry_of_slot (h.live k y hk)
      have hpos : c ≠ (0, i % impl.size) := by
        intro heq
        subst heq
        exact hother k y hk (pos_of_cell old hc)
      rw [slot, hcell _ (hother k y hk), hc, Option.bind_some, entry_set, if_neg hpos]
      exact hentry
    · rw [List.getElem?_append_right hk', List.getElem?_singleton] at hk
      split at hk
      next hzero =>
        cases hk
        have hlast : k = xs.length := by omega
        rw [hlast, hi, slot, hnew i rfl, Option.bind_some, entry_set, if_pos rfl]
      · cases hk
  · rw [entry_set] at he
    split at he
    next hc =>
      cases he
      refine Or.inr (Or.inr ⟨xs.length, x, by simp, ?_, ?_⟩)
      · rw [hi]
      · rw [hi, hnew i rfl, hc]
    · rcases h.entries c e he with huninit | hnull | ⟨k, y, hk, hthing, hat⟩
      · exact Or.inl huninit
      · exact Or.inr (Or.inl hnull)
      · refine Or.inr (Or.inr ⟨k, y, ?_, hthing, ?_⟩)
        · rw [List.getElem?_append_left (List.getElem?_eq_some_iff.mp hk).1]
          exact hk
        · rw [hcell _ (hother k y hk)]
          exact hat

end Push

/-- The place behind the last thing is null, and is assigned. -/
theorem push (hindex : Consecutive index) (hlast : index xs.length ≠ noIndex)
    (h : StoresAt arrays index xs) (x : α) (hroom : xs.length + 1 < arrays.implSize) :
    ∃ arrays1 arrays2, arrays.get (index xs.length) true =
        .ok (arrays1, { ptr := .null, atIndex := noIndex }) ∧
      arrays1.casFromNull (index xs.length) x = .ok (arrays2, true) ∧
      StoresAt arrays2 index (xs ++ [x]) ∧ arrays2.implSize = arrays.implSize := by
  cases arrays with
  | nil => exact absurd h.bounded (Nat.not_lt_zero _)
  | cons impl old =>
      refine ⟨_, _, h.get_of_room hindex hroom hlast, ?_, h.set_of_room hindex hroom x, rfl⟩
      simp [casFromNull]

end StoresAt

/-! ## Indices of 32 bits -/

/-- The index of 32 bits that many places behind another one. -/
def nth (out : BitVec 32) (k : Nat) : Nat := (out + BitVec.ofNat 32 k).toNat

/-- The indices have 32 bits. -/
theorem nth_lt (out : BitVec 32) (k : Nat) : nth out k < 2 ^ 32 :=
  (out + BitVec.ofNat 32 k).isLt

/-- The first index. -/
theorem nth_zero (out : BitVec 32) : nth out 0 = out.toNat := by
  simp [nth]

/-- The index after the next pop. -/
theorem nth_succ (out : BitVec 32) (k : Nat) : nth (out + 1) k = nth out (k + 1) := by
  rw [nth, nth, BitVec.ofNat_add, BitVec.add_assoc, BitVec.add_comm 1]
  rfl

/-- A size that is a power of two does not see the indices wrap around. -/
theorem consecutive_nth (out : BitVec 32) : Consecutive (nth out) := by
  intro k l hl
  have hdvd : 2 ^ l ∣ 2 ^ 32 := Nat.pow_dvd_pow 2 (by omega)
  rw [nth_zero, nth, BitVec.toNat_add, BitVec.toNat_ofNat, Nat.mod_mod_of_dvd _ hdvd, Nat.add_mod,
    Nat.mod_mod_of_dvd _ hdvd, ← Nat.add_mod]

/-- The array stores these things from an index on, each in one entry; every other entry
is empty. -/
structure Stores (arrays : CircularArray α) (out : BitVec 32) (xs : List α) : Prop where
  total : ∀ i, arrays.cell i ≠ none
  small : ∀ l ∈ arrays.map CircularArrayImplementation.logSize, l ≤ 30
  bounded : xs.length < arrays.implSize
  live : ∀ k x, xs[k]? = some x →
    arrays.slot (nth out k) = some { ptr := .thing x, atIndex := nth out k }
  entries : ∀ c e, arrays.entry c = some e →
    e = { ptr := .uninitSentinel, atIndex := noIndex } ∨
    e = { ptr := .null, atIndex := noIndex } ∨
    ∃ k x, xs[k]? = some x ∧ e = { ptr := .thing x, atIndex := nth out k } ∧
      arrays.cell (nth out k) = some c

/-- The 32-bit queue stores at the indices that wrap round. -/
theorem stores_iff {out : BitVec 32} {xs : List α} :
    Stores arrays out xs ↔ StoresAt arrays (nth out) xs :=
  ⟨fun h => ⟨h.total, h.small, h.bounded, h.live, h.entries⟩,
    fun h => ⟨h.total, h.small, h.bounded, h.live, h.entries⟩⟩

namespace Stores

variable {out : BitVec 32} {xs : List α} {x : α}

/-- The size is bounded. -/
theorem implSize_le (h : Stores arrays out xs) : arrays.implSize ≤ 2 ^ 30 :=
  (stores_iff.mp h).implSize_le

/-- The empty array that a constructor leaves. -/
theorem new : Stores (CircularArray.new : CircularArray α) 0 [] :=
  stores_iff.mpr (.new _)

/-- A bigger array in front does not change what is stored. -/
theorem grow {limit : Nat} (hlimit : limit ≤ 30) (h : Stores arrays out xs) :
    (∃ arrays', arrays.grow limit = .ok arrays' ∧ Stores arrays' out xs ∧
      arrays'.implSize = 2 * arrays.implSize) ∨
    arrays.grow limit = .error .badAlloc ∧ 2 ^ limit ≤ arrays.implSize := by
  simp only [stores_iff] at h ⊢
  exact h.grow hlimit

/-- The first thing is found and taken out. -/
theorem pop [DecidableEq α] (h : Stores arrays out (x :: xs)) :
    ∃ arrays', arrays.get out.toNat false =
        .ok (arrays, { ptr := .thing x, atIndex := out.toNat }) ∧
      arrays.casToNull out.toNat x = .ok (arrays', true) ∧ Stores arrays' (out + 1) xs := by
  obtain ⟨arrays', hget, hcas, hstores⟩ := (stores_iff.mp h).pop (consecutive_nth out)
  rw [nth_zero] at hget hcas
  refine ⟨arrays', hget, hcas, stores_iff.mpr ?_⟩
  rwa [funext fun k => nth_succ out k]

/-- The place behind the last thing is null, and is assigned. -/
theorem push (h : Stores arrays out xs) (x : α) (hroom : xs.length + 1 < arrays.implSize) :
    ∃ arrays1 arrays2, arrays.get (nth out xs.length) true =
        .ok (arrays1, { ptr := .null, atIndex := noIndex }) ∧
      arrays1.casFromNull (nth out xs.length) x = .ok (arrays2, true) ∧
      Stores arrays2 out (xs ++ [x]) ∧ arrays2.implSize = arrays.implSize := by
  have hlt := nth_lt out xs.length
  have hne : nth out xs.length ≠ noIndex := by
    rw [noIndex]
    omega
  simp only [stores_iff] at h ⊢
  exact h.push (consecutive_nth out) hne x hroom

end Stores

end CircularArray

end Lockfree
end OFlux
