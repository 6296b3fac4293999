import Mathlib.Data.List.Sort
import Mathlib.Data.String.Basic
import OFlux.Library.Fallible

/-!
# XML trees of the compiler and their difference

The elements that the compiler writes, and the recursive difference of two of them.  The
difference compares children pairwise as long as the elements agree and have equally many
of them; anything else it hands to a handler, which may raise an exception.

Main results:

- Theorem {lit}`diffPair_eq_ok`: what it means that a difference succeeds.
- Theorem {lit}`filter_eq_self`: filtering keeps an element of which it rejects nothing.
-/

namespace OFlux
namespace Compiler

/-- An element with its tag, attributes and contents. -/
inductive Xml where
  | element (tag : String) (attributes : List (String × String)) (contents : List Xml)

/-- The message of the exception {lit}`XMLConversion`. -/
abbrev XMLConversion := String

namespace Xml

/-- {lit}`get_tag` -/
def tag : Xml → String
  | element t _ _ => t

/-- {lit}`get_attributes` -/
def attributes : Xml → List (String × String)
  | element _ a _ => a

/-- {lit}`get_contents` -/
def contents : Xml → List Xml
  | element _ _ c => c

@[simp]
theorem tag_element (t : String) (a : List (String × String)) (c : List Xml) :
    (element t a c).tag = t :=
  rfl

@[simp]
theorem attributes_element (t : String) (a : List (String × String)) (c : List Xml) :
    (element t a c).attributes = a :=
  rfl

@[simp]
theorem contents_element (t : String) (a : List (String × String)) (c : List Xml) :
    (element t a c).contents = c :=
  rfl

/-! ## Order -/

/-- What {lit}`node_compare` compares, one string after the other. -/
def compareKey (x : Xml) : List String :=
  x.tag :: x.attributes.flatMap fun (name, value) => [name, value]

/-- {lit}`List.sort node_compare`. -/
def sort (l : List Xml) : List Xml :=
  l.insertionSort fun x y => x.compareKey ≤ y.compareKey

/-- Sorting loses no element. -/
theorem sort_perm (l : List Xml) : (sort l).Perm l :=
  List.perm_insertionSort _ l

/-- The children in the order in which they are compared. -/
def sortOpt (orderedTags : List String) (t : String) (l : List Xml) : List Xml :=
  if t ∈ orderedTags then l else sort l

/-- Sorting loses no element. -/
theorem sortOpt_perm (orderedTags : List String) (t : String) (l : List Xml) :
    (sortOpt orderedTags t l).Perm l := by
  unfold sortOpt
  split
  · exact List.Perm.refl l
  · exact sort_perm l

/-! ## Difference -/

/-- What is written for two elements whose children were compared. -/
def combine (sameHandler : Xml → Xml) (x : Xml) (resl : List (Bool × Xml)) : Bool × Xml :=
  if resl.any Prod.fst then
    (true, element x.tag x.attributes (resl.map fun r => if r.1 then r.2 else sameHandler r.2))
  else (false, x)

section

variable (orderedTags : List String) (diffHandler : Xml → Xml → Except XMLConversion Xml)
  (sameHandler : Xml → Xml)

/-- The local function of {lit}`diff`: whether two elements differ, and what to write. -/
def diffPair : Xml → Xml → Except XMLConversion (Bool × Xml)
  | element n1 a1 xl1, element n2 a2 xl2 =>
      if n1 = n2 ∧ a1 = a2 ∧ xl1.length = xl2.length then do
        let resl ← ((sortOpt orderedTags n1 xl1).zip (sortOpt orderedTags n1 xl2)).attach.mapM
          fun p => diffPair p.1.1 p.1.2
        return combine sameHandler (element n1 a1 xl1) resl
      else do
        let res ← diffHandler (element n1 a1 xl1) (element n2 a2 xl2)
        return (true, res)
termination_by x => sizeOf x
decreasing_by
  have hmem := (sortOpt_perm orderedTags n1 xl1).mem_iff.mp (List.of_mem_zip p.2).1
  have hlt := List.sizeOf_lt_of_mem hmem
  simp only [element.sizeOf_spec]
  exact Nat.lt_of_lt_of_le hlt (by omega)

/-- The difference of two trees, where what did not change goes through its own handler. -/
def diff (xml1 xml2 : Xml) : Except XMLConversion Xml := do
  let (notsame, res) ← diffPair orderedTags diffHandler sameHandler xml1 xml2
  return if notsame then res else sameHandler res

end

/-- Drop the elements that a test rejects, at every level. -/
def filter (filtfun : Xml → Bool) : Xml → Option Xml
  | element t a c =>
      if filtfun (element t a c) then
        some (element t a (c.filterMap fun x => filter filtfun x))
      else none

/-- A filter looks at an element and then at its contents. -/
theorem filter_element (filtfun : Xml → Bool) (t : String) (a : List (String × String))
    (c : List Xml) : filter filtfun (element t a c) =
      if filtfun (element t a c) then some (element t a (c.filterMap (filter filtfun)))
      else none := by
  rw [filter]

/-! ## Differences that succeed -/

section

variable {orderedTags : List String} {diffHandler : Xml → Xml → Except XMLConversion Xml}
  {sameHandler : Xml → Xml} {x y : Xml} {r : Bool × Xml}

/-- Two elements are compared, and then their contents. -/
theorem diffPair_element (n1 n2 : String) (a1 a2 : List (String × String))
    (xl1 xl2 : List Xml) :
    diffPair orderedTags diffHandler sameHandler (element n1 a1 xl1) (element n2 a2 xl2) =
      if n1 = n2 ∧ a1 = a2 ∧ xl1.length = xl2.length then do
        let resl ← ((sortOpt orderedTags n1 xl1).zip (sortOpt orderedTags n1 xl2)).mapM
          fun p => diffPair orderedTags diffHandler sameHandler p.1 p.2
        return combine sameHandler (element n1 a1 xl1) resl
      else do
        let res ← diffHandler (element n1 a1 xl1) (element n2 a2 xl2)
        return (true, res) := by
  rw [diffPair]
  have hattach : ∀ (l : List (Xml × Xml)) (f : Xml × Xml → Except XMLConversion (Bool × Xml)),
      (l.attach.mapM fun p => f p.1) = l.mapM f := by
    intro l f
    conv_rhs => rw [← List.attach_map_subtype_val l, List.mapM_map]
    rfl
  rw [hattach _ fun p => diffPair orderedTags diffHandler sameHandler p.1 p.2]

/-- An element does not differ from itself. -/
theorem diffPair_self (orderedTags : List String)
    (diffHandler : Xml → Xml → Except XMLConversion Xml) (sameHandler : Xml → Xml) :
    (x : Xml) → diffPair orderedTags diffHandler sameHandler x x = .ok (false, x)
  | element t a c => by
      have hchildren : ∀ y ∈ sortOpt orderedTags t c,
          diffPair orderedTags diffHandler sameHandler y y = .ok (false, y) := fun y hy => by
        have hmem := (sortOpt_perm orderedTags t c).mem_iff.mp hy
        exact diffPair_self orderedTags diffHandler sameHandler y
      have hmapM : ∀ l : List Xml,
          (∀ y ∈ l, diffPair orderedTags diffHandler sameHandler y y = .ok (false, y)) →
          ((l.zip l).mapM fun p => diffPair orderedTags diffHandler sameHandler p.1 p.2) =
            .ok (l.map fun y => (false, y)) := by
        intro l hl
        induction l with
        | nil => rfl
        | cons y l ih =>
            rw [List.forall_mem_cons] at hl
            rw [List.zip_cons_cons, List.mapM_cons, hl.1, ih hl.2]
            rfl
      rw [diffPair_element, if_pos ⟨rfl, rfl, rfl⟩, hmapM _ hchildren]
      have hany : ((sortOpt orderedTags t c).map fun y => (false, y)).any Prod.fst = false := by
        simp
      change Except.ok (combine sameHandler (element t a c) _) = _
      rw [combine, hany]
      rfl
termination_by x => sizeOf x
decreasing_by
  have hlt := List.sizeOf_lt_of_mem hmem
  simp only [element.sizeOf_spec]
  exact Nat.lt_of_lt_of_le hlt (by omega)

/-- A difference that succeeds compared the children, or the handler succeeded. -/
theorem diffPair_eq_ok (h : diffPair orderedTags diffHandler sameHandler x y = .ok r) :
    (x.tag = y.tag ∧ x.attributes = y.attributes ∧ x.contents.length = y.contents.length ∧
      ∃ resl, List.Forall₂
        (fun p r => diffPair orderedTags diffHandler sameHandler p.1 p.2 = .ok r)
        ((sortOpt orderedTags x.tag x.contents).zip (sortOpt orderedTags x.tag y.contents))
        resl ∧ r = combine sameHandler x resl) ∨
    (¬ (x.tag = y.tag ∧ x.attributes = y.attributes ∧
        x.contents.length = y.contents.length) ∧
      ∃ res, diffHandler x y = .ok res ∧ r = (true, res)) := by
  obtain ⟨n1, a1, xl1⟩ := x
  obtain ⟨n2, a2, xl2⟩ := y
  rw [diffPair_element] at h
  split at h
  next heq =>
    left
    refine ⟨heq.1, heq.2.1, heq.2.2, ?_⟩
    cases hm : ((sortOpt orderedTags n1 xl1).zip (sortOpt orderedTags n1 xl2)).mapM
        fun p => diffPair orderedTags diffHandler sameHandler p.1 p.2 with
    | error e => rw [hm] at h; cases h
    | ok resl =>
        rw [hm] at h
        cases h
        exact ⟨resl, Library.Fallible.mapM_eq_ok_iff.mp hm, rfl⟩
  next hne =>
    right
    refine ⟨hne, ?_⟩
    cases hd : diffHandler (element n1 a1 xl1) (element n2 a2 xl2) with
    | error e => rw [hd] at h; cases h
    | ok res =>
        rw [hd] at h
        cases h
        exact ⟨res, rfl, rfl⟩

end

/-- Filtering keeps an element of which it rejects nothing. -/
theorem filter_eq_self {filtfun : Xml → Bool} {x : Xml} (hx : filtfun x = true)
    (hcontents : ∀ y ∈ x.contents, filter filtfun y = some y) :
    filter filtfun x = some x := by
  obtain ⟨t, a, c⟩ := x
  have hc : c.filterMap (filter filtfun) = c := by
    have hsome : ∀ y ∈ c, filter filtfun y = some y := hcontents
    rw [List.filterMap_congr hsome]
    exact List.filterMap_some
  rw [filter_element, if_pos hx, hc]

end Xml
end Compiler
end OFlux
