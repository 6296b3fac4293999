import OFlux.Frontend.ParserTypes
import OFlux.Library.Classes

/-!
# Union find

The classes of a list of associated pairs, by merging lists one pair after the other.  A pair
meets at most two of the classes so far, because these are disjoint.

Main results:

- Theorem {lit}`uf_spec`: one pair.
- Theorem {lit}`unionFind_spec`: the classes are those that the pairs generate, and no
  exception is raised.
-/

namespace OFlux
namespace Frontend
namespace UnionFind

open Library

variable {α : Type} [DecidableEq α]

/-- The class has one of the two. -/
def hasEither (p : α × α) (ll : List α) : Bool :=
  p.1 ∈ ll || p.2 ∈ ll

/-- Put in front, unless it is there. -/
def add (ll : List α) (a : α) : List α :=
  if a ∈ ll then ll else a :: ll

/-- One pair: the classes that have one of its elements become one. -/
def uf (res : List (List α)) (p : α × α) : Except Exn (List (List α)) :=
  let parts := res.partition (hasEither p)
  match parts.1 with
  | [] => .ok ([p.1, p.2] :: parts.2)
  | [ll] => .ok ([p.1, p.2].foldl add ll :: parts.2)
  | [ll1, ll2] => .ok ((ll1 ++ ll2) :: parts.2)
  | _ => .error .notFound

/-- The classes that the pairs generate. -/
def unionFind (itemList : List (α × α)) : Except Exn (List (List α)) :=
  itemList.foldlM uf []

/-! ## One pair -/

/-- A class has either end of the pair. -/
theorem hasEither_iff {p : α × α} {ll : List α} :
    hasEither p ll = true ↔ p.1 ∈ ll ∨ p.2 ∈ ll := by
  simp [hasEither]

/-- A class after an element was added. -/
theorem mem_add {ll : List α} {a x : α} : x ∈ add ll a ↔ x = a ∨ x ∈ ll := by
  unfold add
  split
  next h => exact ⟨Or.inr, fun hx => hx.elim (fun heq => heq ▸ h) id⟩
  next => exact List.mem_cons

omit [DecidableEq α] in
/-- Of three disjoint classes one has neither element of a pair. -/
theorem not_three_met {p : α × α} {c1 c2 c3 : List α} {rest : List (List α)}
    (h : (c1 :: c2 :: c3 :: rest).Pairwise List.Disjoint)
    (hmet : ∀ c ∈ c1 :: c2 :: c3 :: rest, p.1 ∈ c ∨ p.2 ∈ c) : False := by
  rw [List.pairwise_cons, List.pairwise_cons] at h
  obtain ⟨h1, h2, -⟩ := h
  have h12 := h1 c2 (by simp)
  have h13 := h1 c3 (by simp)
  have h23 := h2 c3 (by simp)
  rcases hmet c1 (by simp) with m1 | m1
  · rcases hmet c2 (by simp) with m2 | m2
    · exact h12 m1 m2
    · rcases hmet c3 (by simp) with m3 | m3
      · exact h13 m1 m3
      · exact h23 m2 m3
  · rcases hmet c2 (by simp) with m2 | m2
    · rcases hmet c3 (by simp) with m3 | m3
      · exact h23 m2 m3
      · exact h13 m1 m3
    · exact h12 m1 m2

omit [DecidableEq α] in
/-- Two disjoint classes that have an element of a pair have both elements. -/
theorem mem_append_of_met {p : α × α} {c1 c2 : List α} (h : c1.Disjoint c2)
    (h1 : p.1 ∈ c1 ∨ p.2 ∈ c1) (h2 : p.1 ∈ c2 ∨ p.2 ∈ c2) :
    p.1 ∈ c1 ++ c2 ∧ p.2 ∈ c1 ++ c2 := by
  rw [List.mem_append, List.mem_append]
  rcases h1 with h1 | h1
  · rcases h2 with h2 | h2
    · exact absurd h2 (h h1)
    · exact ⟨Or.inl h1, Or.inr h2⟩
  · rcases h2 with h2 | h2
    · exact ⟨Or.inr h2, Or.inl h1⟩
    · exact absurd h2 (h h1)

/-- One more pair keeps the classes generated. -/
theorem uf_spec {pairs : List (α × α)} {res : List (List α)}
    (h : Classes.Generated pairs res) (p : α × α) :
    ∃ res', uf res p = .ok res' ∧ Classes.Generated (pairs ++ [p]) res' := by
  have hmet : ∀ c, c ∈ res.filter (hasEither p) ↔ c ∈ res ∧ (p.1 ∈ c ∨ p.2 ∈ c) := by
    intro c
    rw [List.mem_filter, hasEither_iff]
  have hdisjoint : (res.filter (hasEither p)).Pairwise List.Disjoint :=
    h.separated.disjoint.filter _
  have happart : ∀ c ∈ res.filter (fun c => !hasEither p c), p.1 ∉ c ∧ p.2 ∉ c := by
    intro c hc
    have hnot := (List.mem_filter.mp hc).2
    rw [Bool.not_eq_true', ← Bool.not_eq_true, hasEither_iff, not_or] at hnot
    exact hnot
  have hall : ∀ c ∈ res,
      c ∈ res.filter (hasEither p) ∨ c ∈ res.filter (fun c => !hasEither p c) := by
    intro c hc
    cases hp : hasEither p c with
    | true => exact Or.inl (List.mem_filter.mpr ⟨hc, hp⟩)
    | false => exact Or.inr (List.mem_filter.mpr ⟨hc, by rw [hp]; rfl⟩)
  have hmerge : ∀ merged : List α,
      (∀ x, x ∈ merged ↔ x = p.1 ∨ x = p.2 ∨ ∃ c ∈ res.filter (hasEither p), x ∈ c) →
      Classes.Generated (pairs ++ [p]) (merged :: res.filter (fun c => !hasEither p c)) :=
    fun merged hmerged => h.merge hmet List.filter_sublist happart hall hmerged
  unfold uf
  simp only [List.partition_eq_filter_filter]
  generalize hres1 : res.filter (hasEither p) = res1 at hmet hdisjoint hmerge
  match res1 with
  | [] => exact ⟨_, rfl, hmerge _ (by simp)⟩
  | [ll] =>
      refine ⟨_, rfl, hmerge _ fun x => ?_⟩
      simp only [List.foldl_cons, List.foldl_nil, mem_add, List.mem_singleton, exists_eq_left]
      exact or_left_comm
  | [ll1, ll2] =>
      refine ⟨_, rfl, hmerge _ fun x => ?_⟩
      have hboth := mem_append_of_met (List.rel_of_pairwise_cons hdisjoint List.mem_cons_self)
        ((hmet ll1).mp (by simp)).2 ((hmet ll2).mp (by simp)).2
      have hin : (∃ c ∈ [ll1, ll2], x ∈ c) ↔ x ∈ ll1 ++ ll2 := by simp
      rw [hin]
      constructor
      · exact fun hx => Or.inr (Or.inr hx)
      · rintro (rfl | rfl | hx)
        · exact hboth.1
        · exact hboth.2
        · exact hx
  | c1 :: c2 :: c3 :: rest =>
      exact (not_three_met hdisjoint fun c hc => ((hmet c).mp hc).2).elim

/-! ## All pairs -/

/-- More pairs keep the classes generated. -/
theorem foldlM_uf_spec {pairs : List (α × α)} {res : List (List α)}
    (h : Classes.Generated pairs res) (itemList : List (α × α)) :
    ∃ ufs, itemList.foldlM uf res = .ok ufs ∧ Classes.Generated (pairs ++ itemList) ufs := by
  induction itemList generalizing pairs res with
  | nil => exact ⟨res, rfl, by rwa [List.append_nil]⟩
  | cons p itemList ih =>
      obtain ⟨res', hres', hgen⟩ := uf_spec h p
      obtain ⟨ufs, hufs, hall⟩ := ih hgen
      refine ⟨ufs, ?_, by rwa [List.append_assoc] at hall⟩
      rw [List.foldlM_cons, hres']
      exact hufs

/-- The classes are those that the pairs generate. -/
theorem unionFind_spec (itemList : List (α × α)) :
    ∃ ufs, unionFind itemList = .ok ufs ∧ Classes.Generated itemList ufs :=
  foldlM_uf_spec Classes.Generated.nil itemList

end UnionFind
end Frontend
end OFlux
