import Mathlib.Logic.Function.Basic

/-!
# The slots of the lock-free hash table

The values of the lock-free hash table are pointer words, and its constants are
words too: the empty value, the tombstone of a removed key, and the expected
values by which a caller of {lit}`compareAndSwap` says what it wants to find.
The table is the map from keys to the slots that {lit}`lookUp` finds for them;
growth of the table, which is what the tag bit of a value is for, is left out.

Main results:

- Theorem {lit}`whatever_eq_doesNotExist`: the expected value that matches
  everything is the same word as the value of an absent key.
- Theorem {lit}`compareAndSwap_whatever`: with it, {lit}`compareAndSwap` always
  writes and returns what was there before.
- Theorem {lit}`compareAndSwap_expectDoesNotExist`: with the sentinel meant for
  insertion it writes only where no value exists.
-/

namespace OFlux
namespace Lockfree

/-- A pointer as the hash table stores and compares it. -/
abbrev Word := BitVec 64

namespace HashTableConstants

/-- The value of a key that is not in the table: the null pointer. -/
def doesNotExist : Word := 0

/-- The tag bit is a 32-bit constant, so that stripping it keeps 32 bits only. -/
def stripTag (v : Word) : Word := v &&& 0xFFFFFFFE

/-- The value of a key that was removed. -/
def tombStone : Word := stripTag (-1)

end HashTableConstants

namespace CasExpect

/-- Any old value is fine. -/
def whatever : Word := 0

/-- Some value has to be there. -/
def exists_ : Word := -1

/-- No value may be there. -/
def doesNotExist : Word := -2

end CasExpect

open HashTableConstants

/-- The slot of a key: {lit}`none` is an empty slot, without the key. -/
abbrev Slot := Option Word

/-- {lit}`get` on the slot of a key. -/
def Slot.get : Slot → Word
  | none => doesNotExist
  | some entVal => if entVal = tombStone then doesNotExist else entVal

/-- {lit}`compareAndSwap` on a slot that holds the key. -/
def Slot.swapValue (entVal expectedVal newVal : Word) : Word × Slot :=
  let oldExisted := entVal ≠ tombStone ∧ entVal ≠ doesNotExist
  if expectedVal ≠ CasExpect.whatever ∧ expectedVal ≠ entVal ∧
      expectedVal ≠ (if oldExisted then CasExpect.exists_ else CasExpect.doesNotExist) then
    (entVal, some entVal)
  else if (newVal = doesNotExist ∧ ¬ oldExisted) ∨ entVal = newVal then
    (entVal, some entVal)
  else (entVal, some (if newVal = doesNotExist then tombStone else newVal))

/-- {lit}`compareAndSwap` of the implementation: an empty slot first gets the key. -/
def Slot.compareAndSwap (slot : Slot) (expectedVal newVal : Word) : Word × Slot :=
  match slot with
  | none =>
      if expectedVal ≠ CasExpect.doesNotExist ∧ expectedVal ≠ CasExpect.whatever then
        (doesNotExist, none)
      else if newVal = doesNotExist then (doesNotExist, none)
      else swapValue doesNotExist expectedVal newVal
  | some entVal => swapValue entVal expectedVal newVal

/-- The result of the table's {lit}`compareAndSwap`, which reports a tombstone as
an absent value. -/
def oldValue (val : Word) : Word :=
  if val = tombStone then doesNotExist else val

/-- The hash table, by the slots of its keys. -/
abbrev HashTable (K : Type) := K → Slot

namespace HashTable

variable {K : Type} [DecidableEq K]

/-- The value bound to `k`. -/
def get (table : HashTable K) (k : K) : Word :=
  (table k).get

/-- Swaps the value bound to `k` and returns the one found there. -/
def compareAndSwap (table : HashTable K) (k : K) (expectedVal newVal : Word) :
    Word × HashTable K :=
  (oldValue ((table k).compareAndSwap expectedVal newVal).1,
    Function.update table k ((table k).compareAndSwap expectedVal newVal).2)

/-- The stored key, if the table has a slot for it. -/
def getPersistentKey (table : HashTable K) (k : K) : Option K :=
  if (table k).isSome then some k else none

/-! ## What the expected values mean -/

/-- The sentinel that matches everything is the null pointer. -/
theorem whatever_eq_doesNotExist : CasExpect.whatever = doesNotExist :=
  rfl

/-- The tombstone is not the mark of an absent value. -/
theorem tombStone_ne_doesNotExist : tombStone ≠ doesNotExist := by
  decide

/-- A value that a caller may store: not null and not the tombstone. -/
def Storable (v : Word) : Prop :=
  v ≠ doesNotExist ∧ v ≠ tombStone

@[simp]
theorem get_update_self (table : HashTable K) (k : K) {v : Word} (hv : Storable v) :
    HashTable.get (Function.update table k (some v)) k = v := by
  simp [HashTable.get, Slot.get, hv.2]

/-- With {lit}`Whatever` the new value is written over any old one, which is returned. -/
theorem compareAndSwap_whatever (table : HashTable K) (k : K) {v : Word} (hv : Storable v)
    (hfresh : table.get k ≠ v) :
    table.compareAndSwap k CasExpect.whatever v =
      (table.get k, Function.update table k (some v)) := by
  have hswap : ∀ entVal, entVal ≠ v →
      Slot.swapValue entVal CasExpect.whatever v = (entVal, some v) := by
    intro entVal hne
    simp [Slot.swapValue, hv.1, hne]
  unfold compareAndSwap get at *
  cases hslot : table k with
  | none =>
      have hne : doesNotExist ≠ v := Ne.symm hv.1
      simp only [Slot.compareAndSwap, ne_eq, not_true_eq_false, and_false, if_false, hv.1,
        hswap doesNotExist hne]
      rfl
  | some entVal =>
      have hne : entVal ≠ v := by
        intro heq
        rw [hslot] at hfresh
        exact hfresh (by simp [Slot.get, heq, hv.2])
      simp only [Slot.compareAndSwap, hswap entVal hne]
      rfl

/-- With {lit}`Does_Not_Exist` of the expected values, a value that exists is kept. -/
theorem compareAndSwap_expectDoesNotExist (table : HashTable K) (k : K) {v : Word}
    (hv : Storable v) (hne : ∀ w, table k = some w → w ≠ CasExpect.doesNotExist)
    (hfresh : table.get k ≠ v) :
    table.compareAndSwap k CasExpect.doesNotExist v =
      (table.get k,
        if table.get k = doesNotExist then Function.update table k (some v) else table) := by
  have hinsert : ∀ entVal, ¬ (entVal ≠ tombStone ∧ entVal ≠ doesNotExist) → entVal ≠ v →
      Slot.swapValue entVal CasExpect.doesNotExist v = (entVal, some v) := by
    intro entVal hold hnev
    simp only [Slot.swapValue, hold, ne_eq, if_false, not_true_eq_false, and_false, hv.1,
      hnev, false_and, or_self]
  unfold compareAndSwap get at *
  cases hslot : table k with
  | none =>
      have hold : ¬ (doesNotExist ≠ tombStone ∧ doesNotExist ≠ doesNotExist) := by simp
      simp only [Slot.compareAndSwap, ne_eq, not_true_eq_false, false_and, if_false, hv.1,
        hinsert doesNotExist hold (Ne.symm hv.1)]
      rfl
  | some entVal =>
      have hnev : entVal ≠ v := by
        intro heq
        rw [hslot] at hfresh
        exact hfresh (by simp [Slot.get, heq, hv.2])
      by_cases hold : entVal ≠ tombStone ∧ entVal ≠ doesNotExist
      · have hkeep : Slot.swapValue entVal CasExpect.doesNotExist v =
            (entVal, some entVal) := by
          have hsentinels : CasExpect.doesNotExist ≠ CasExpect.whatever ∧
              CasExpect.doesNotExist ≠ CasExpect.exists_ := by decide
          unfold Slot.swapValue
          refine if_pos ⟨hsentinels.1, Ne.symm (hne entVal hslot), ?_⟩
          rw [if_pos hold]
          exact hsentinels.2
        simp [Slot.compareAndSwap, hkeep, oldValue, Slot.get, hold.1, hold.2, ← hslot]
      · have hget : Slot.get (some entVal) = doesNotExist := by
          by_cases htomb : entVal = tombStone
          · exact if_pos htomb
          · have hnull : entVal = doesNotExist := by
              by_contra hexists
              exact hold ⟨htomb, hexists⟩
            exact (if_neg htomb).trans hnull
        simp only [Slot.compareAndSwap, hinsert entVal hold hnev, hget, if_true]
        rw [← hget]
        rfl

end HashTable

end Lockfree
end OFlux
