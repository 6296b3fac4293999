import Mathlib.Data.List.Nodup
import Mathlib.Data.List.Perm.Basic
import Mathlib.Data.Option.Basic

/-!
# Things with one location each

Any family of places, each with the list of things that it holds.  A location
function says where each thing is; {lit}`Located` says that the lists agree with
it, which leaves no room for a thing listed twice.

Main results:

- Theorem {lit}`Located.moveAll`: moving things from one place to another.
- Theorem {lit}`Located.existsUnique`: a thing with a location is in exactly one
  place, and once.
-/

namespace OFlux
namespace Library

universe u v

variable {P : Type u} {E : Type v} [DecidableEq P] [DecidableEq E]

/-- Each place lists exactly the things located there, once each. -/
def Located (contents : P → List E) (place : E → Option P) : Prop :=
  ∀ e p, (contents p).count e = if place e = some p then 1 else 0

namespace Located

variable {contents contents' : P → List E} {place : E → Option P}

/-- An element is where its place says. -/
theorem mem_iff (h : Located contents place) {e : E} {p : P} :
    e ∈ contents p ↔ place e = some p := by
  rw [← List.count_pos_iff, h e p]
  split <;> simp_all

theorem nodup (h : Located contents place) (p : P) : (contents p).Nodup := by
  apply List.nodup_iff_count_le_one.mpr
  intro e
  rw [h e p]
  split <;> omega

/-- Lists without repetitions that agree with the locations. -/
theorem of_mem_iff (hnodup : ∀ p, (contents p).Nodup)
    (hmem : ∀ e p, e ∈ contents p ↔ place e = some p) : Located contents place := by
  intro e p
  split
  · rename_i hp
    exact List.count_eq_one_of_mem (hnodup p) ((hmem e p).mpr hp)
  · rename_i hp
    exact List.count_eq_zero_of_not_mem (mt (hmem e p).mp hp)

/-- A thing with a location is in exactly one place. -/
theorem existsUnique (h : Located contents place) {e : E} (he : place e ≠ none) :
    ∃! p, e ∈ contents p := by
  cases hp : place e with
  | none => exact absurd hp he
  | some p =>
      refine ⟨p, h.mem_iff.mpr hp, fun q hq => ?_⟩
      exact Option.some_injective _ ((h.mem_iff.mp hq).symm.trans hp)

/-- Only the contents matter, up to order. -/
theorem congr (h : Located contents place)
    (hperm : ∀ p, (contents' p).Perm (contents p)) : Located contents' place := by
  intro e p
  rw [(hperm p).count_eq, h e p]

/-- A thing that was nowhere enters a place. -/
theorem enter (h : Located contents place) {e : E} {q : P} (he : place e = none)
    (hto : (contents' q).Perm (e :: contents q))
    (hrest : ∀ r, r ≠ q → (contents' r).Perm (contents r)) :
    Located contents' (Function.update place e (some q)) := by
  intro x r
  by_cases hr : r = q
  · subst hr
    rw [hto.count_eq, List.count_cons, h x r]
    by_cases hx : x = e
    · subst hx
      simp [he]
    · simp [hx, Ne.symm hx]
  · rw [(hrest r hr).count_eq, h x r]
    by_cases hx : x = e
    · subst hx
      simp [he, Ne.symm hr]
    · simp [hx]

/-- Things move from one place to another. -/
theorem moveAll (h : Located contents place) {xs : List E} {p q : P} (hne : p ≠ q)
    (hfrom : (contents p).Perm (xs ++ contents' p))
    (hto : (contents' q).Perm (xs ++ contents q))
    (hrest : ∀ r, r ≠ p → r ≠ q → (contents' r).Perm (contents r)) :
    Located contents' (fun e => if e ∈ xs then some q else place e) := by
  intro e r
  have hp := h e p
  have hq := h e q
  rw [hfrom.count_eq, List.count_append] at hp
  by_cases he : e ∈ xs
  · -- it was at `p`, once, and is among those that moved
    have hpos : 0 < xs.count e := List.count_pos_iff.mpr he
    have hplace : place e = some p := by
      by_contra hno
      rw [if_neg hno] at hp
      omega
    rw [if_pos hplace] at hp
    simp only [he, if_true, Option.some.injEq]
    by_cases hrp : r = p
    · subst hrp
      rw [if_neg (Ne.symm hne)]
      omega
    · by_cases hrq : r = q
      · subst hrq
        rw [hto.count_eq, List.count_append, hq, hplace]
        simp only [Option.some.injEq, hne, if_false, if_true]
        omega
      · rw [(hrest r hrp hrq).count_eq, h e r, hplace]
        simp only [Option.some.injEq, Ne.symm hrp, Ne.symm hrq, if_false]
  · have hzero : xs.count e = 0 := List.count_eq_zero.mpr he
    simp only [he, if_false]
    by_cases hrp : r = p
    · subst hrp
      omega
    · by_cases hrq : r = q
      · subst hrq
        rw [hto.count_eq, List.count_append, hq]
        omega
      · rw [(hrest r hrp hrq).count_eq, h e r]

/-- One thing moves from one place to another. -/
theorem move (h : Located contents place) {x : E} {p q : P} (hne : p ≠ q)
    (hfrom : (contents p).Perm (x :: contents' p))
    (hto : (contents' q).Perm (x :: contents q))
    (hrest : ∀ r, r ≠ p → r ≠ q → (contents' r).Perm (contents r)) :
    Located contents' (fun e => if e ∈ [x] then some q else place e) :=
  h.moveAll hne hfrom hto hrest

end Located

end Library
end OFlux
