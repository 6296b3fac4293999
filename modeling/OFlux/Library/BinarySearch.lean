import Mathlib.Data.List.Sort
import Mathlib.Order.Defs.LinearOrder

/-!
# Binary search

The search halves the part of a sorted list in which a value can still be.  The list may have
repeated values.

Main results:

- Theorem {lit}`binarySearch_iff`: on a sorted list the search finds a value if and only if it is
  there.
-/

namespace OFlux
namespace Library

universe u

variable {α : Type u} [LinearOrder α]

/-- Search the positions from {lit}`low` on and before {lit}`stop`. -/
def binarySearch (l : List α) (x : α) (low stop : Nat) (hstop : stop ≤ l.length) : Bool :=
  if h : low < stop then
    let mid := (low + (stop - 1)) / 2
    have hmid : mid < l.length := by omega
    if l[mid] = x then true
    else if l[mid] < x then binarySearch l x (mid + 1) stop hstop
    else binarySearch l x low mid (Nat.le_of_lt hmid)
  else false
termination_by stop - low

/-- A sorted list grows. -/
theorem getElem_le_getElem {l : List α} (hsorted : l.Pairwise (· ≤ ·)) {i j : Nat} (hij : i ≤ j)
    (hj : j < l.length) : l[i] ≤ l[j] := by
  rcases Nat.lt_or_eq_of_le hij with hlt | rfl
  · exact List.pairwise_iff_getElem.mp hsorted i j (by omega) hj hlt
  · exact le_rfl

/-- The search of a range finds what is in it. -/
theorem binarySearch_range_iff {l : List α} {x : α} (hsorted : l.Pairwise (· ≤ ·)) {low stop : Nat}
    {hstop : stop ≤ l.length} :
    binarySearch l x low stop hstop = true ↔
      ∃ i, ∃ hi : i < l.length, low ≤ i ∧ i < stop ∧ l[i] = x := by
  fun_induction binarySearch l x low stop hstop with
  | case1 low stop hstop h mid hmid heq =>
      exact iff_of_true rfl ⟨mid, hmid, by omega, by omega, heq⟩
  | case2 low stop hstop h mid hmid hne hlt ih =>
      -- all up to the middle are less than the value
      rw [ih]
      refine exists_congr fun i => exists_congr fun hi => ?_
      constructor
      · exact fun ⟨hlow, hi, hx⟩ => ⟨by omega, hi, hx⟩
      · rintro ⟨hlow, hi', hx⟩
        refine ⟨?_, hi', hx⟩
        by_contra hbefore
        have := getElem_le_getElem hsorted (i := i) (by omega) hmid
        exact absurd hlt (not_lt.mpr (hx ▸ this))
  | case3 low stop hstop h mid hmid hne hlt ih =>
      rw [ih]
      refine exists_congr fun i => exists_congr fun hi => ?_
      constructor
      · exact fun ⟨hlow, hi, hx⟩ => ⟨hlow, by omega, hx⟩
      · rintro ⟨hlow, hi', hx⟩
        refine ⟨hlow, ?_, hx⟩
        by_contra hbehind
        have := getElem_le_getElem hsorted (i := mid) (by omega) hi
        exact hne (le_antisymm (hx ▸ this) (not_lt.mp hlt))
  | case4 low stop hstop h =>
      exact iff_of_false Bool.false_ne_true fun ⟨i, _, hlow, hi, _⟩ => h (by omega)

/-- On a sorted list the search finds a value if and only if it is there. -/
theorem binarySearch_iff {l : List α} {x : α} (hsorted : l.Pairwise (· ≤ ·)) :
    binarySearch l x 0 l.length le_rfl = true ↔ x ∈ l := by
  rw [binarySearch_range_iff hsorted, List.mem_iff_getElem]
  refine exists_congr fun i => ?_
  exact ⟨fun ⟨hi, _, _, hx⟩ => ⟨hi, hx⟩, fun ⟨hi, hx⟩ => ⟨hi, i.zero_le, hi, hx⟩⟩

end Library
end OFlux
