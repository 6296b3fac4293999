import OFlux.Library.Classes
import Mathlib.Data.List.Nodup
import Mathlib.Data.List.Perm.Basic

/-!
# Grouping by a key

Items are put one by one into the first group whose head has their key, and become the head of
the group; an item with a new key starts a group at the end.  The head stands for its group, and
the other items follow it.

Main results:

- Theorem {lit}`Grouped.insert`: one more item keeps the groups apart.
- Theorem {lit}`Grouped.singleton_iff`: there is one group if and only if all keys agree.
- Theorem {lit}`Grouped.leads_or_follows`: each item is a head, or follows one with its key.
-/

namespace OFlux
namespace Library
namespace Grouping

universe u v

variable {α : Type u} {κ : Type v} {key : α → κ} {l : List α} {ll : List (List α)} {a b h : α}

/-- Put an item into the first group whose head has its key. -/
def insert [DecidableEq κ] (key : α → κ) : List (List α) → α → List (List α)
  | (h :: t) :: rest, a =>
      if key h = key a then (a :: h :: t) :: rest else (h :: t) :: insert key rest a
  | rest, a => [a] :: rest

/-- Groups of the items of a list: within a group the keys agree, and between groups they
differ. -/
structure Grouped (key : α → κ) (l : List α) (ll : List (List α)) : Prop where
  perm : ll.flatten.Perm l
  nonempty : ∀ g ∈ ll, g ≠ []
  same : ∀ g ∈ ll, ∀ a ∈ g, ∀ b ∈ g, key a = key b
  distinct : ll.Pairwise fun g g' => ∀ a ∈ g, ∀ b ∈ g', key a ≠ key b

/-- An item stands at the head of a group. -/
def Leads (ll : List (List α)) (h : α) : Prop :=
  ∃ t, h :: t ∈ ll

/-- An item stands behind the head of a group. -/
def Follows (ll : List (List α)) (a h : α) : Prop :=
  ∃ t, h :: t ∈ ll ∧ a ∈ t

namespace Grouped

theorem nil : Grouped key [] [] where
  perm := List.Perm.refl _
  nonempty := by simp
  same := by simp
  distinct := List.Pairwise.nil

/-- Every element is in some group. -/
theorem mem_iff (h : Grouped key l ll) : a ∈ l ↔ ∃ g ∈ ll, a ∈ g := by
  rw [← h.perm.mem_iff, List.mem_flatten]

/-- The other groups are grouped. -/
theorem tail {g : List α} (h : Grouped key l (g :: ll)) : Grouped key ll.flatten ll where
  perm := List.Perm.refl _
  nonempty := fun g' hg' => h.nonempty g' (List.mem_cons_of_mem _ hg')
  same := fun g' hg' => h.same g' (List.mem_cons_of_mem _ hg')
  distinct := (List.pairwise_cons.mp h.distinct).2

/-- One more item keeps the groups apart. -/
theorem insert [DecidableEq κ] (h : Grouped key l ll) (a : α) :
    Grouped key (a :: l) (Grouping.insert key ll a) := by
  induction ll generalizing l with
  | nil =>
      refine ⟨?_, by simp [Grouping.insert], by simp [Grouping.insert], List.pairwise_singleton _ _⟩
      exact h.perm.cons a
  | cons g rest ih =>
      obtain ⟨hg, hrest⟩ := List.pairwise_cons.mp h.distinct
      cases g with
      | nil => exact absurd rfl (h.nonempty [] List.mem_cons_self)
      | cons head t =>
          have hsame := h.same _ List.mem_cons_self
          unfold Grouping.insert
          split
          next hkey =>
            have hkeys : ∀ x ∈ a :: head :: t, key x = key head := by
              rw [List.forall_mem_cons]
              exact ⟨hkey.symm, fun x hx => hsame x hx head List.mem_cons_self⟩
            refine ⟨h.perm.cons a, ?_, ?_, List.pairwise_cons.mpr ⟨?_, hrest⟩⟩
            · rw [List.forall_mem_cons]
              exact ⟨List.cons_ne_nil _ _, h.tail.nonempty⟩
            · rw [List.forall_mem_cons]
              exact ⟨fun x hx y hy => (hkeys x hx).trans (hkeys y hy).symm, h.tail.same⟩
            · intro g' hg' x hx y hy
              rw [hkeys x hx]
              exact hg g' hg' head List.mem_cons_self y hy
          next hkey =>
            have hins := ih h.tail
            refine ⟨?_, ?_, ?_, List.pairwise_cons.mpr ⟨?_, hins.distinct⟩⟩
            · exact ((hins.perm.append_left _).trans List.perm_middle).trans (h.perm.cons a)
            · exact List.forall_mem_cons.mpr ⟨List.cons_ne_nil _ _, hins.nonempty⟩
            · exact List.forall_mem_cons.mpr ⟨hsame, hins.same⟩
            · intro g' hg' x hx y hy
              rw [hsame x hx head List.mem_cons_self]
              rcases List.mem_cons.mp (hins.mem_iff.mpr ⟨g', hg', hy⟩) with rfl | hy
              · exact hkey
              · obtain ⟨g'', hg'', hy⟩ := List.mem_flatten.mp hy
                exact hg g'' hg'' head List.mem_cons_self y hy

/-- Two groups that share a key are the same. -/
theorem eq_of_key_eq (h : Grouped key l ll) {g g' : List α} (hg : g ∈ ll) (hg' : g' ∈ ll)
    (ha : a ∈ g) (hb : b ∈ g') (hkey : key a = key b) : g = g' := by
  by_contra hne
  have hsymm : Std.Symm fun g g' : List α => ∀ a ∈ g, ∀ b ∈ g', key a ≠ key b :=
    ⟨fun _ _ hdistinct b hb a ha => (hdistinct a ha b hb).symm⟩
  exact h.distinct.forall hg hg' hne a ha b hb hkey

/-- There is one group if and only if all keys agree. -/
theorem singleton_iff (h : Grouped key l ll) (hl : l ≠ []) :
    (∃ g, ll = [g]) ↔ ∀ a ∈ l, ∀ b ∈ l, key a = key b := by
  constructor
  · rintro ⟨g, rfl⟩ a ha b hb
    obtain ⟨g', hg', ha⟩ := h.mem_iff.mp ha
    obtain ⟨g'', hg'', hb⟩ := h.mem_iff.mp hb
    rw [List.mem_singleton.mp hg'] at ha
    rw [List.mem_singleton.mp hg''] at hb
    exact h.same g List.mem_cons_self a ha b hb
  · intro hall
    cases ll with
    | nil => exact absurd (List.nil_perm.mp h.perm) hl
    | cons g rest =>
        cases rest with
        | nil => exact ⟨g, rfl⟩
        | cons g' rest =>
            obtain ⟨a, ha⟩ := List.exists_mem_of_ne_nil g (h.nonempty g List.mem_cons_self)
            have hg' : g' ∈ g :: g' :: rest := List.mem_cons_of_mem _ List.mem_cons_self
            obtain ⟨b, hb⟩ := List.exists_mem_of_ne_nil g' (h.nonempty g' hg')
            have hkey := hall a (h.mem_iff.mpr ⟨g, List.mem_cons_self, ha⟩) b
              (h.mem_iff.mpr ⟨g', hg', hb⟩)
            exact absurd hkey ((List.pairwise_cons.mp h.distinct).1 g' List.mem_cons_self a ha b hb)

/-! ## Heads and followers -/

/-- The first of a group is an element. -/
theorem mem_of_leads (h : Grouped key l ll) (ha : Leads ll a) : a ∈ l := by
  obtain ⟨t, ht⟩ := ha
  exact h.mem_iff.mpr ⟨_, ht, List.mem_cons_self⟩

/-- The others of a group are elements. -/
theorem mem_of_follows (h : Grouped key l ll) (hab : Follows ll a b) : a ∈ l := by
  obtain ⟨t, ht, ha⟩ := hab
  exact h.mem_iff.mpr ⟨_, ht, List.mem_cons_of_mem _ ha⟩

/-- Whoever is followed leads a group. -/
theorem leads_of_follows (hab : Follows ll a b) : Leads ll b := by
  obtain ⟨t, ht, -⟩ := hab
  exact ⟨t, ht⟩

/-- A group has one key. -/
theorem key_eq_of_follows (h : Grouped key l ll) (hab : Follows ll a b) : key a = key b := by
  obtain ⟨t, ht, ha⟩ := hab
  exact h.same _ ht a (List.mem_cons_of_mem _ ha) b List.mem_cons_self

/-- Each item is a head, or follows one. -/
theorem leads_or_follows (h : Grouped key l ll) (ha : a ∈ l) :
    Leads ll a ∨ ∃ b, Follows ll a b := by
  obtain ⟨g, hg, ha⟩ := h.mem_iff.mp ha
  cases g with
  | nil => cases ha
  | cons b t =>
      rcases List.mem_cons.mp ha with rfl | ha
      · exact Or.inl ⟨t, hg⟩
      · exact Or.inr ⟨b, t, hg, ha⟩

/-- Among items without repetitions a head follows nobody. -/
theorem not_follows_of_leads (h : Grouped key l ll) (hl : l.Nodup) (ha : Leads ll a) :
    ¬ Follows ll a b := by
  rintro ⟨t', ht', hat⟩
  obtain ⟨t, ht⟩ := ha
  have heq := h.eq_of_key_eq ht ht' List.mem_cons_self (List.mem_cons_of_mem _ hat) rfl
  have hnodup := (List.nodup_flatten.mp (h.perm.nodup_iff.mpr hl)).1 _ ht
  obtain ⟨-, rfl⟩ := List.cons.inj heq
  exact (List.nodup_cons.mp hnodup).1 hat

/-- Two heads with one key are the same. -/
theorem eq_of_leads (h : Grouped key l ll) (ha : Leads ll a) (hb : Leads ll b)
    (hkey : key a = key b) : a = b := by
  obtain ⟨t, ht⟩ := ha
  obtain ⟨t', ht'⟩ := hb
  exact (List.cons.inj (h.eq_of_key_eq ht ht' List.mem_cons_self List.mem_cons_self hkey)).1

end Grouped
end Grouping
end Library
end OFlux
