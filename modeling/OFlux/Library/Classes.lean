import Mathlib.Data.List.Lattice
import Mathlib.Data.List.Pairwise
import Mathlib.Logic.Relation

/-!
# Equivalence classes as a list of lists

The classes of an equivalence relation that a list of pairs generates, kept as a list of
lists.  One more pair merges the classes that its two elements are in.

Main results:

- Theorem {lit}`Generated.sameClass_iff`: two elements are in one class if and only if a
  chain of pairs links them.
- Theorem {lit}`Generated.merge`: merging the classes that a pair meets accounts for it.
-/

namespace OFlux
namespace Library
namespace Classes

universe u

variable {α : Type u}

/-- Two elements share a class. -/
def SameClass (classes : List (List α)) (x y : α) : Prop :=
  ∃ c ∈ classes, x ∈ c ∧ y ∈ c

/-- A chain of pairs, in either direction, leads from one element to the other. -/
def Linked (pairs : List (α × α)) : α → α → Prop :=
  Relation.EqvGen fun a b => (a, b) ∈ pairs

/-- Classes as they should be: without a common element, and none of them empty. -/
structure Separated (classes : List (List α)) : Prop where
  nonempty : ∀ c ∈ classes, c ≠ []
  disjoint : classes.Pairwise List.Disjoint

/-- The classes that a list of pairs generates. -/
structure Generated (pairs : List (α × α)) (classes : List (List α)) : Prop where
  separated : Separated classes
  linked : ∀ x y, SameClass classes x y → Linked pairs x y
  covers : ∀ a b, (a, b) ∈ pairs → SameClass classes a b
  mentioned : ∀ c ∈ classes, ∀ x ∈ c, ∃ p ∈ pairs, x = p.1 ∨ x = p.2

variable {pairs : List (α × α)} {classes : List (List α)} {x y z a b : α}

/-! ## Classes of one list -/

/-- Being in one class is symmetric. -/
theorem SameClass.symm (h : SameClass classes x y) : SameClass classes y x := by
  obtain ⟨c, hc, hx, hy⟩ := h
  exact ⟨c, hc, hy, hx⟩

/-- In disjoint lists a common element tells that two lists are one. -/
theorem eq_of_mem_of_mem {c d : List α} (h : classes.Pairwise List.Disjoint) (hc : c ∈ classes)
    (hd : d ∈ classes) (hxc : x ∈ c) (hxd : x ∈ d) : c = d := by
  have : Std.Symm (List.Disjoint (α := α)) := ⟨fun _ _ hdisjoint => hdisjoint.symm⟩
  by_contra hne
  exact h.forall hc hd hne hxc hxd

theorem SameClass.trans (h : classes.Pairwise List.Disjoint) (hxy : SameClass classes x y)
    (hyz : SameClass classes y z) : SameClass classes x z := by
  obtain ⟨c, hc, hx, hyc⟩ := hxy
  obtain ⟨d, hd, hyd, hz⟩ := hyz
  obtain rfl := eq_of_mem_of_mem h hc hd hyc hyd
  exact ⟨c, hc, hx, hz⟩

/-- Classes that are disjoint and not empty are different from each other. -/
theorem Separated.nodup (h : Separated classes) : classes.Nodup := by
  refine h.disjoint.imp_of_mem fun {c d} hc _ hdisjoint heq => ?_
  subst heq
  obtain ⟨x, hx⟩ := List.exists_mem_of_ne_nil c (h.nonempty c hc)
  exact hdisjoint hx hx

/-! ## Chains of pairs -/

theorem Linked.mono {more : List (α × α)} (hsub : ∀ p ∈ pairs, p ∈ more)
    (h : Linked pairs x y) : Linked more x y :=
  Relation.EqvGen.mono (fun a b hab => hsub (a, b) hab) x y h

namespace Generated

/-- An element that no chain moves, or two that share a class. -/
theorem sameClass_of_linked (h : Generated pairs classes) (hlinked : Linked pairs x y) :
    x = y ∨ SameClass classes x y := by
  induction hlinked with
  | rel a b hab => exact Or.inr (h.covers a b hab)
  | refl a => exact Or.inl rfl
  | symm a b _ ih => exact ih.imp Eq.symm SameClass.symm
  | trans a b c _ _ ihab ihbc =>
      rcases ihab with rfl | hab
      · exact ihbc
      · rcases ihbc with rfl | hbc
        · exact Or.inr hab
        · exact Or.inr (hab.trans h.separated.disjoint hbc)

/-- In generated classes exactly the linked are together. -/
theorem sameClass_iff (h : Generated pairs classes) (hx : SameClass classes x x) :
    SameClass classes x y ↔ Linked pairs x y := by
  constructor
  · exact h.linked x y
  · intro hlinked
    rcases h.sameClass_of_linked hlinked with rfl | hxy
    · exact hx
    · exact hxy

theorem nil : Generated ([] : List (α × α)) [] where
  separated := ⟨by simp, List.Pairwise.nil⟩
  linked := by simp [SameClass]
  covers := by simp
  mentioned := by simp

/-! ## One more pair -/

/-- Merging the classes that a pair meets accounts for it. -/
theorem merge {merged : List α} {met rest : List (List α)} (h : Generated pairs classes)
    (hmet : ∀ c, c ∈ met ↔ c ∈ classes ∧ (a ∈ c ∨ b ∈ c))
    (hrest : rest.Sublist classes) (hapart : ∀ c ∈ rest, a ∉ c ∧ b ∉ c)
    (hall : ∀ c ∈ classes, c ∈ met ∨ c ∈ rest)
    (hmerged : ∀ x, x ∈ merged ↔ x = a ∨ x = b ∨ ∃ c ∈ met, x ∈ c) :
    Generated (pairs ++ [(a, b)]) (merged :: rest) := by
  have hold : ∀ {x y}, Linked pairs x y → Linked (pairs ++ [(a, b)]) x y :=
    Linked.mono fun p hp => List.mem_append_left _ hp
  have hab : Linked (pairs ++ [(a, b)]) a b :=
    Relation.EqvGen.rel a b (List.mem_append_right _ (List.mem_singleton.mpr rfl))
  -- everything in the merged class is linked to the first element of the pair
  have hto : ∀ x ∈ merged, Linked (pairs ++ [(a, b)]) x a := by
    intro x hx
    rcases (hmerged x).mp hx with rfl | rfl | ⟨c, hc, hxc⟩
    · exact Relation.EqvGen.refl x
    · exact hab.symm
    · obtain ⟨hc, hac | hbc⟩ := (hmet c).mp hc
      · exact hold (h.linked x a ⟨c, hc, hxc, hac⟩)
      · exact (hold (h.linked x b ⟨c, hc, hxc, hbc⟩)).trans _ _ _ hab.symm
  constructor
  · constructor
    · intro c hc
      rcases List.mem_cons.mp hc with rfl | hc
      · exact List.ne_nil_of_mem ((hmerged a).mpr (Or.inl rfl))
      · exact h.separated.nonempty c (hrest.subset hc)
    · refine List.Pairwise.cons ?_ (h.separated.disjoint.sublist hrest)
      intro c hc x hx hxc
      rcases (hmerged x).mp hx with rfl | rfl | ⟨d, hd, hxd⟩
      · exact (hapart c hc).1 hxc
      · exact (hapart c hc).2 hxc
      · obtain ⟨hd, hmeets⟩ := (hmet d).mp hd
        obtain rfl := eq_of_mem_of_mem h.separated.disjoint hd (hrest.subset hc) hxd hxc
        exact hmeets.elim (hapart d hc).1 (hapart d hc).2
  · rintro x y ⟨c, hc, hx, hy⟩
    rcases List.mem_cons.mp hc with rfl | hc
    · exact (hto x hx).trans _ _ _ (hto y hy).symm
    · exact hold (h.linked x y ⟨c, hrest.subset hc, hx, hy⟩)
  · intro x y hxy
    rcases List.mem_append.mp hxy with hxy | hxy
    · obtain ⟨c, hc, hx, hy⟩ := h.covers x y hxy
      rcases hall c hc with hc | hc
      · exact ⟨merged, List.mem_cons_self, (hmerged x).mpr (Or.inr (Or.inr ⟨c, hc, hx⟩)),
          (hmerged y).mpr (Or.inr (Or.inr ⟨c, hc, hy⟩))⟩
      · exact ⟨c, List.mem_cons_of_mem _ hc, hx, hy⟩
    · obtain ⟨rfl, rfl⟩ := Prod.mk.inj (List.mem_singleton.mp hxy)
      exact ⟨merged, List.mem_cons_self, (hmerged x).mpr (Or.inl rfl),
        (hmerged y).mpr (Or.inr (Or.inl rfl))⟩
  · have hmore : ∀ x, (∃ p ∈ pairs, x = p.1 ∨ x = p.2) →
        ∃ p ∈ pairs ++ [(a, b)], x = p.1 ∨ x = p.2 :=
      fun x ⟨p, hp, hx⟩ => ⟨p, List.mem_append_left _ hp, hx⟩
    have hlast : (a, b) ∈ pairs ++ [(a, b)] := by simp
    intro c hc x hx
    rcases List.mem_cons.mp hc with rfl | hc
    · rcases (hmerged x).mp hx with rfl | rfl | ⟨d, hd, hxd⟩
      · exact ⟨_, hlast, Or.inl rfl⟩
      · exact ⟨_, hlast, Or.inr rfl⟩
      · exact hmore x (h.mentioned d ((hmet d).mp hd).1 x hxd)
    · exact hmore x (h.mentioned c (hrest.subset hc) x hx)

end Generated

/-! ## The order within the classes -/

/-- Classes with the same elements, one by one. -/
theorem sameClass_map_iff {f : List α → List α} (hf : ∀ c x, x ∈ f c ↔ x ∈ c) :
    SameClass (classes.map f) x y ↔ SameClass classes x y := by
  simp [SameClass, hf]

/-- Classes with the same members are generated too. -/
theorem Generated.map {f : List α → List α} (hf : ∀ c x, x ∈ f c ↔ x ∈ c)
    (h : Generated pairs classes) : Generated pairs (classes.map f) where
  separated := by
    constructor
    · intro c hc
      obtain ⟨d, hd, rfl⟩ := List.mem_map.mp hc
      obtain ⟨x, hx⟩ := List.exists_mem_of_ne_nil d (h.separated.nonempty d hd)
      exact List.ne_nil_of_mem ((hf d x).mpr hx)
    · refine List.pairwise_map.mpr (h.separated.disjoint.imp ?_)
      intro c d hdisjoint x hx hxd
      exact hdisjoint ((hf c x).mp hx) ((hf d x).mp hxd)
  linked x y hxy := h.linked x y ((sameClass_map_iff hf).mp hxy)
  covers a b hab := (sameClass_map_iff hf).mpr (h.covers a b hab)
  mentioned c hc x hx := by
    obtain ⟨d, hd, rfl⟩ := List.mem_map.mp hc
    exact h.mentioned d hd x ((hf d x).mp hx)

end Classes
end Library
end OFlux
