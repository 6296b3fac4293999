import Mathlib.Data.List.Basic
import Mathlib.Logic.Function.Basic

/-!
# Open addressing

A table with open addressing has slots that are empty or hold a key.  Every key has a sequence of
slots in which it is looked for: the search ends at the key itself or at the first empty slot,
which is where the key goes when it is inserted.

Main results:

- Theorem {lit}`Placed.insert`: an insertion where the search ends keeps all keys where their
  searches end.
- Theorem {lit}`lookUp_insert_of_ne`: what an insertion does to the searches for other keys.
-/

namespace OFlux
namespace Library
namespace Probing

universe u v

variable {κ : Type u} {ι : Type v} [DecidableEq κ]

/-- The first slot on the way that is empty or holds the key. -/
def lookUp (keys : ι → Option κ) (probes : List ι) (k : κ) : Option ι :=
  probes.find? fun i => keys i = none ∨ keys i = some k

/-- Every key is where its search ends. -/
def Placed (keys : ι → Option κ) (probes : κ → List ι) : Prop :=
  ∀ i k, keys i = some k → lookUp keys (probes k) k = some i

variable {keys : ι → Option κ} {k k' : κ} {i : ι}

/-- A search ends at an entry that it visits. -/
theorem mem_of_lookUp {l : List ι} (h : lookUp keys l k = some i) : i ∈ l :=
  List.mem_of_find?_eq_some h

/-- A search ends at its key or at an empty entry. -/
theorem key_of_lookUp {l : List ι} (h : lookUp keys l k = some i) :
    keys i = none ∨ keys i = some k := by
  unfold lookUp at h
  simpa using List.find?_some h

/-- A search ends where all slots before hold other keys. -/
theorem lookUp_eq_some_iff {l : List ι} :
    lookUp keys l k = some i ↔ (keys i = none ∨ keys i = some k) ∧
      ∃ front back, l = front ++ i :: back ∧ ∀ j ∈ front, keys j ≠ none ∧ keys j ≠ some k := by
  simp [lookUp, List.find?_eq_some_iff_append]

/-- In an empty table every search ends. -/
theorem lookUp_of_empty {l : List ι} (hkeys : ∀ i, keys i = none) (hl : l ≠ []) :
    ∃ i, lookUp keys l k = some i := by
  cases l with
  | nil => exact absurd rfl hl
  | cons i l => exact ⟨i, List.find?_cons_of_pos (by simp [hkeys i])⟩

section

variable {probes : κ → List ι}

/-- A key is in one slot only. -/
theorem Placed.eq_of_key (h : Placed keys probes) {j : ι} (hi : keys i = some k)
    (hj : keys j = some k) : i = j :=
  Option.some.inj ((h i k hi).symm.trans (h j k hj))

/-- A key whose search ends at an empty entry is nowhere. -/
theorem Placed.ne_key_of_empty (h : Placed keys probes)
    (hk : lookUp keys (probes k) k = some i) (hi : keys i = none) (j : ι) :
    keys j ≠ some k := by
  intro hj
  rw [h j k hj] at hk
  cases hk
  rw [hi] at hj
  cases hj

end

/-! ## An insertion -/

section

variable [DecidableEq ι] {j : ι}

/-- A search that another key's insertion does not meet. -/
theorem lookUp_insert_of_ne {l : List ι} (hj : keys j = none) (hk : lookUp keys l k' ≠ some j) :
    lookUp (Function.update keys j (some k)) l k' = lookUp keys l k' := by
  induction l with
  | nil => rfl
  | cons i l ih =>
      by_cases hend : keys i = none ∨ keys i = some k'
      · have hij : i ≠ j := by
          rintro rfl
          exact hk (List.find?_cons_of_pos (by simpa using hend))
        have hsame : Function.update keys j (some k) i = keys i :=
          Function.update_of_ne hij _ _
        rw [lookUp, lookUp, List.find?_cons_of_pos (by simpa [hsame] using hend),
          List.find?_cons_of_pos (by simpa using hend)]
      · have hij : i ≠ j := by
          rintro rfl
          exact hend (Or.inl hj)
        have hsame : Function.update keys j (some k) i = keys i :=
          Function.update_of_ne hij _ _
        have hrest : lookUp keys (i :: l) k' = lookUp keys l k' :=
          List.find?_cons_of_neg (by simpa using hend)
        rw [hrest] at hk
        rw [hrest, ← ih hk]
        exact List.find?_cons_of_neg (by simpa [hsame] using hend)

theorem lookUp_insert_self {l : List ι} (hj : lookUp keys l k = some j) :
    lookUp (Function.update keys j (some k)) l k = some j := by
  obtain ⟨hend, front, back, rfl, hfront⟩ := lookUp_eq_some_iff.mp hj
  refine lookUp_eq_some_iff.mpr ⟨Or.inr (Function.update_self j _ _), front, back, rfl, ?_⟩
  intro i hi
  have hij : i ≠ j := by
    rintro rfl
    exact hend.elim (hfront i hi).1 (hfront i hi).2
  rw [Function.update_of_ne hij]
  exact hfront i hi

/-- An insertion where the search ends keeps all keys where their searches end. -/
theorem Placed.insert {probes : κ → List ι} (h : Placed keys probes) (hj : keys j = none)
    (hk : lookUp keys (probes k) k = some j) :
    Placed (Function.update keys j (some k)) probes := by
  intro i k' hi
  by_cases hij : i = j
  · subst hij
    rw [Function.update_self] at hi
    cases hi
    exact lookUp_insert_self hk
  · rw [Function.update_of_ne hij] at hi
    rw [lookUp_insert_of_ne hj fun heq => ?_, h i k' hi]
    rw [h i k' hi] at heq
    exact hij (Option.some.inj heq)

end

end Probing
end Library
end OFlux
