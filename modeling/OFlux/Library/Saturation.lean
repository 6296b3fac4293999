import Mathlib.Data.Finset.Card
import Mathlib.Data.List.Basic
import Mathlib.Logic.Relation

/-!
# Saturation along edges

A list of names grows along the edges of a list, each edge in its turn adding its end when its
start is there.  One pass over the edges finds what a path leads to whose edges stand in the
list in the order of the path; passes that are repeated until one adds nothing find all that is
reachable.

Main results:

- Theorem {lit}`mem_sweep_iff`: what one pass finds.
- Theorem {lit}`mem_iff_of_closed`: a list that no edge extends is complete.
-/

namespace OFlux
namespace Library
namespace Saturation

universe u

variable {α : Type u}

/-- The relation of the edges of a list. -/
def Edge (edges : List (α × α)) (a b : α) : Prop :=
  (a, b) ∈ edges

/-! ## One pass -/

section

variable [DecidableEq α]

/-- One edge in its turn. -/
def extend (found : List α) (edge : α × α) : List α :=
  if edge.1 ∈ found ∧ edge.2 ∉ found then edge.2 :: found else found

/-- One pass over the edges. -/
def sweep (edges : List (α × α)) (found : List α) : List α :=
  edges.foldl extend found

/-- What is found after one edge was followed. -/
theorem mem_extend_iff {found : List α} {edge : α × α} {x : α} :
    x ∈ extend found edge ↔ x ∈ found ∨ edge.1 ∈ found ∧ x = edge.2 := by
  unfold extend
  split
  next h =>
    rw [List.mem_cons]
    constructor
    · rintro (rfl | hx)
      · exact Or.inr ⟨h.1, rfl⟩
      · exact Or.inl hx
    · rintro (hx | ⟨-, rfl⟩)
      · exact Or.inr hx
      · exact Or.inl rfl
  next h =>
    constructor
    · exact Or.inl
    · rintro (hx | ⟨hstart, rfl⟩)
      · exact hx
      · by_contra hx
        exact h ⟨hstart, hx⟩

/-- Nothing is found twice. -/
theorem nodup_extend {found : List α} {edge : α × α} (h : found.Nodup) :
    (extend found edge).Nodup := by
  unfold extend
  split
  next hnew => exact List.nodup_cons.mpr ⟨hnew.2, h⟩
  next => exact h

end

/-! ## Paths in the order of the list -/

/-- A path whose edges stand in the list in the order of the path. -/
inductive OrderedPath : List (α × α) → α → α → Prop where
  | refl (edges : List (α × α)) (a : α) : OrderedPath edges a a
  | skip {edges : List (α × α)} {edge : α × α} {a b : α} :
      OrderedPath edges a b → OrderedPath (edge :: edges) a b
  | follow {edges : List (α × α)} {a c b : α} :
      OrderedPath edges c b → OrderedPath ((a, c) :: edges) a b

theorem edge_mono {edges edges' : List (α × α)} (h : edges ⊆ edges') {a b : α}
    (hpath : Relation.ReflTransGen (Edge edges) a b) :
    Relation.ReflTransGen (Edge edges') a b :=
  Relation.ReflTransGen.mono (fun _ _ hmem => h hmem) _ _ hpath

/-- An ordered path is a path. -/
theorem OrderedPath.reflTransGen {edges : List (α × α)} {a b : α}
    (h : OrderedPath edges a b) : Relation.ReflTransGen (Edge edges) a b := by
  induction h with
  | refl => exact Relation.ReflTransGen.refl
  | skip _ ih => exact edge_mono (List.subset_cons_self _ _) ih
  | follow _ ih =>
      exact Relation.ReflTransGen.head List.mem_cons_self
        (edge_mono (List.subset_cons_self _ _) ih)

/-- The first edge is followed, or not. -/
theorem orderedPath_cons_iff {edges : List (α × α)} {edge : α × α} {a b : α} :
    OrderedPath (edge :: edges) a b ↔
      OrderedPath edges a b ∨ a = edge.1 ∧ OrderedPath edges edge.2 b := by
  constructor
  · intro h
    cases h with
    | refl => exact Or.inl (.refl _ _)
    | skip hrest => exact Or.inl hrest
    | follow hrest => exact Or.inr ⟨rfl, hrest⟩
  · rintro (h | ⟨rfl, h⟩)
    · exact .skip h
    · exact .follow h

/-- One pass finds what a path in the order of the list leads to. -/
theorem mem_sweep_iff [DecidableEq α] {edges : List (α × α)} {found : List α} {x : α} :
    x ∈ sweep edges found ↔ ∃ a ∈ found, OrderedPath edges a x := by
  induction edges generalizing found with
  | nil =>
      constructor
      · exact fun hx => ⟨x, hx, .refl _ _⟩
      · rintro ⟨a, ha, hpath⟩
        cases hpath
        exact ha
  | cons edge edges ih =>
      rw [sweep, List.foldl_cons]
      refine Iff.trans ih ⟨?_, ?_⟩
      · rintro ⟨a, ha, hpath⟩
        rcases mem_extend_iff.mp ha with ha | ⟨hstart, rfl⟩
        · exact ⟨a, ha, .skip hpath⟩
        · exact ⟨edge.1, hstart, .follow hpath⟩
      · rintro ⟨a, ha, hpath⟩
        rcases orderedPath_cons_iff.mp hpath with hrest | ⟨rfl, hrest⟩
        · exact ⟨a, mem_extend_iff.mpr (Or.inl ha), hrest⟩
        · exact ⟨edge.2, mem_extend_iff.mpr (Or.inr ⟨ha, rfl⟩), hrest⟩

/-! ## Passes until nothing is added -/

/-- No edge leads out of the list. -/
def Closed (edges : List (α × α)) (found : List α) : Prop :=
  ∀ edge ∈ edges, edge.1 ∈ found → edge.2 ∈ found

/-- A closed list has all that can be reached. -/
theorem Closed.mem_of_reflTransGen {edges : List (α × α)} {found : List α}
    (h : Closed edges found) {a x : α} (ha : a ∈ found)
    (hpath : Relation.ReflTransGen (Edge edges) a x) : x ∈ found := by
  induction hpath with
  | refl => exact ha
  | tail _ hedge ih => exact h _ hedge ih

/-- A list of reachable names that no edge leads out of has all of them. -/
theorem mem_iff_of_closed {edges : List (α × α)} {found : List α} {a : α} (ha : a ∈ found)
    (hclosed : Closed edges found)
    (hsound : ∀ x ∈ found, Relation.ReflTransGen (Edge edges) a x) {x : α} :
    x ∈ found ↔ Relation.ReflTransGen (Edge edges) a x :=
  ⟨hsound x, hclosed.mem_of_reflTransGen ha⟩

section

variable [DecidableEq α]

/-- How many names the edges could still add. -/
def missing (edges : List (α × α)) (found : List α) : Nat :=
  ((edges.map Prod.snd).toFinset.filter fun x => x ∉ found).card

/-- More edges miss more. -/
theorem missing_le_of_subset {edges edges' : List (α × α)} (found : List α)
    (h : edges ⊆ edges') : missing edges found ≤ missing edges' found := by
  refine Finset.card_le_card fun x hx => ?_
  rw [Finset.mem_filter, List.mem_toFinset] at hx ⊢
  exact ⟨List.map_subset Prod.snd h hx.1, hx.2⟩

/-- Each find misses less. -/
theorem missing_cons_lt {edges : List (α × α)} {found : List α} {edge : α × α}
    (hmem : edge ∈ edges) (hnew : edge.2 ∉ found) :
    missing edges (edge.2 :: found) < missing edges found := by
  refine Finset.card_lt_card (Finset.ssubset_iff_of_subset ?_ |>.mpr ⟨edge.2, ?_, ?_⟩)
  · intro x hx
    rw [Finset.mem_filter] at hx ⊢
    exact ⟨hx.1, fun hx' => hx.2 (List.mem_cons_of_mem _ hx')⟩
  · rw [Finset.mem_filter, List.mem_toFinset]
    exact ⟨List.mem_map_of_mem hmem, hnew⟩
  · rw [Finset.mem_filter]
    exact fun h => h.2 List.mem_cons_self

end

end Saturation
end Library
end OFlux
