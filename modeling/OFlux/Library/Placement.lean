import Mathlib.Algebra.Order.BigOperators.Group.Finset
import Mathlib.Algebra.Order.Group.Multiset
import Mathlib.Tactic.Abel

/-!
# Things in places

A finite family of places, each with the multiset of things that it holds.  If
the total has no duplicates, every thing is in exactly one place, and a move is
two changes of a place that cancel.

Main results:

- Theorem {lit}`Placement.existsUnique_place`: without duplicates in the total,
  each thing is in exactly one place.
- Theorem {lit}`Placement.sum_update_add`: what one change does to a total.
-/

namespace OFlux
namespace Library
namespace Placement

universe u v w x

variable {P : Type u} {E : Type v}

/-! ## Exactly one place -/

/-- Everything that the places hold. -/
def total [Fintype P] (contents : P → Multiset E) : Multiset E :=
  ∑ p, contents p

/-- An element is somewhere when it is in the total. -/
theorem mem_total [Fintype P] {contents : P → Multiset E} {x : E} :
    x ∈ total contents ↔ ∃ p, x ∈ contents p := by
  simp [total]

/-- Two different places share nothing, and no place holds a thing twice. -/
theorem nodup_of_total [Fintype P] {contents : P → Multiset E}
    (h : (total contents).Nodup) (p : P) : (contents p).Nodup :=
  Multiset.nodup_of_le (Finset.single_le_sum (fun _ _ => Multiset.zero_le _)
    (Finset.mem_univ p)) h

/-- With no repetition in the total an element is at one place. -/
theorem place_unique [Fintype P] {contents : P → Multiset E}
    (h : (total contents).Nodup) {x : E} {p q : P} (hp : x ∈ contents p)
    (hq : x ∈ contents q) : p = q := by
  classical
  by_contra hne
  have hpair : contents p + contents q ≤ total contents := by
    have hsubset : ({p, q} : Finset P) ⊆ Finset.univ := Finset.subset_univ _
    rw [← Finset.sum_pair hne]
    exact Finset.sum_le_sum_of_subset hsubset
  have hdisjoint := (Multiset.nodup_add.mp (Multiset.nodup_of_le hpair h)).2.2
  exact Multiset.disjoint_left.mp hdisjoint hp hq

/-- Without duplicates in the total, each thing is in exactly one place. -/
theorem existsUnique_place [Fintype P] {contents : P → Multiset E}
    (h : (total contents).Nodup) {x : E} (hx : x ∈ total contents) :
    ∃! p, x ∈ contents p := by
  obtain ⟨p, hp⟩ := mem_total.mp hx
  exact ⟨p, hp, fun q hq => place_unique h hq hp⟩

/-! ## Changes of one place -/

/-- Replacing one summand of a total, written without subtraction. -/
theorem sum_update_add [Fintype P] [DecidableEq P] {σ : Type w} {M : Type x}
    [AddCommMonoid M] (f : P → σ) (p : P) (t : σ) (held : σ → M) :
    (∑ q, held (Function.update f p t q)) + held (f p) = (∑ q, held (f q)) + held t := by
  have hnew := Finset.add_sum_erase Finset.univ (fun q => held (Function.update f p t q))
    (Finset.mem_univ p)
  have hold := Finset.add_sum_erase Finset.univ (fun q => held (f q)) (Finset.mem_univ p)
  have hrest : ∑ q ∈ Finset.univ.erase p, held (Function.update f p t q) =
      ∑ q ∈ Finset.univ.erase p, held (f q) :=
    Finset.sum_congr rfl fun q hq => by
      rw [Function.update_of_ne (Finset.ne_of_mem_erase hq)]
  rw [← hnew, ← hold, hrest, Function.update_self]
  abel

end Placement
end Library
end OFlux
