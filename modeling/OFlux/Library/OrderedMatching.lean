import Mathlib.Data.List.Basic
import Mathlib.Data.List.Sort
import Mathlib.Data.List.Sublists
import Mathlib.Order.Basic

/-!
# Matching a list of keys in order

The keys of one list take items of another one, each the first item with its key behind
the item that was taken before.  Two ways to go on with a key that no item has are
compared: to pass over it, and to stop.

Main results:

- Theorem {lit}`unmatched_eq_fresh_iff`: the two ways leave the same items exactly when no
  key behind a lost one is found again.
- Theorem {lit}`fresh_eq_filter`: for sorted lists the items left are those whose key does
  not occur.
-/

namespace OFlux
namespace Library
namespace OrderedMatching

universe u v

variable {α : Type u} {κ : Type v} [DecidableEq κ] (key : α → κ)

/-! ## Taking an item -/

/-- The items in front of the first one with a key. -/
def before (k : κ) (items : List α) : List α :=
  items.takeWhile fun x => key x ≠ k

/-- The items behind the first one with a key. -/
def behind (k : κ) (items : List α) : List α :=
  (items.dropWhile fun x => key x ≠ k).tail

/-- The items that are left when a key that no item has is passed over. -/
def fresh : List κ → List α → List α
  | [], items => items
  | k :: ks, items =>
      if k ∈ items.map key then before key k items ++ fresh ks (behind key k items)
      else fresh ks items

/-- The items that are left when the first key that no item has ends the matching. -/
def unmatched : List κ → List α → List α
  | [], items => items
  | _ :: _, [] => []
  | k :: ks, x :: items =>
      if key x = k then unmatched ks items else x :: unmatched (k :: ks) items

/-- No key behind a lost one is found among the items that are left. -/
def NoneBehindLost : List κ → List α → Prop
  | [], _ => True
  | k :: ks, items =>
      if k ∈ items.map key then NoneBehindLost ks (behind key k items)
      else ∀ k' ∈ ks, k' ∉ items.map key

instance decidableNoneBehindLost : (ks : List κ) → (items : List α) →
    Decidable (NoneBehindLost key ks items)
  | [], _ => .isTrue trivial
  | k :: ks, items =>
      if h : k ∈ items.map key then
        @decidable_of_iff _ _ (by simp [NoneBehindLost, h])
          (decidableNoneBehindLost ks (behind key k items))
      else decidable_of_iff (∀ k' ∈ ks, k' ∉ items.map key) (by simp [NoneBehindLost, h])

variable {key} {k : κ} {ks : List κ} {x : α} {items : List α}

@[simp]
theorem fresh_nil (items : List α) : fresh key [] items = items :=
  rfl

@[simp]
theorem unmatched_nil (items : List α) : unmatched key [] items = items := by
  simp [unmatched]

theorem before_cons_of_eq (h : key x = k) : before key k (x :: items) = [] := by
  simp [before, h]

theorem before_cons_of_ne (h : key x ≠ k) :
    before key k (x :: items) = x :: before key k items := by
  simp [before, h]

theorem behind_cons_of_eq (h : key x = k) : behind key k (x :: items) = items := by
  simp [behind, h]

theorem behind_cons_of_ne (h : key x ≠ k) :
    behind key k (x :: items) = behind key k items := by
  simp [behind, h]

/-- A key that is found splits the items. -/
theorem exists_eq_append (h : k ∈ items.map key) :
    ∃ x, key x = k ∧ items = before key k items ++ x :: behind key k items := by
  induction items with
  | nil => simp at h
  | cons y items ih =>
      by_cases hy : key y = k
      · refine ⟨y, hy, ?_⟩
        rw [before_cons_of_eq hy, behind_cons_of_eq hy, List.nil_append]
      · have hrest : k ∈ items.map key := by
          rw [List.map_cons, List.mem_cons] at h
          exact h.resolve_left fun heq => hy heq.symm
        obtain ⟨x, hx, hsplit⟩ := ih hrest
        refine ⟨x, hx, ?_⟩
        rw [before_cons_of_ne hy, behind_cons_of_ne hy, List.cons_append, ← hsplit]

/-! ## The two matchings -/

/-- A key that matches leaves what is before its match. -/
theorem unmatched_of_mem (h : k ∈ items.map key) :
    unmatched key (k :: ks) items =
      before key k items ++ unmatched key ks (behind key k items) := by
  induction items with
  | nil => simp at h
  | cons x items ih =>
      by_cases hx : key x = k
      · rw [before_cons_of_eq hx, behind_cons_of_eq hx, List.nil_append]
        simp [unmatched, hx]
      · have hrest : k ∈ items.map key := by
          rw [List.map_cons, List.mem_cons] at h
          exact h.resolve_left fun heq => hx heq.symm
        rw [before_cons_of_ne hx, behind_cons_of_ne hx, List.cons_append, ← ih hrest]
        simp [unmatched, hx]

/-- A key that does not match leaves all. -/
theorem unmatched_of_not_mem (h : k ∉ items.map key) :
    unmatched key (k :: ks) items = items := by
  induction items with
  | nil => rfl
  | cons x items ih =>
      rw [List.map_cons, List.mem_cons, not_or] at h
      have hx : key x ≠ k := fun heq => h.1 heq.symm
      simp [unmatched, hx, ih h.2]

/-- The fresh items keep their order. -/
theorem fresh_sublist (ks : List κ) (items : List α) :
    (fresh key ks items).Sublist items := by
  induction ks generalizing items with
  | nil => exact List.Sublist.refl _
  | cons k ks ih =>
      unfold fresh
      split
      next h =>
        obtain ⟨x, _, hsplit⟩ := exists_eq_append h
        conv_rhs => rw [hsplit]
        exact List.Sublist.append (List.Sublist.refl _) ((ih _).trans (List.sublist_cons_self x _))
      · exact ih items

/-- Nothing is taken exactly when no key is found. -/
theorem fresh_eq_self_iff : fresh key ks items = items ↔ ∀ k ∈ ks, k ∉ items.map key := by
  induction ks with
  | nil => simp
  | cons k ks ih =>
      unfold fresh
      split
      next h =>
        constructor
        · intro heq
          obtain ⟨x, _, hsplit⟩ := exists_eq_append h
          have hlength := congrArg List.length heq
          have hsplit' := congrArg List.length hsplit
          have hsub : (fresh key ks (behind key k items)).Sublist (behind key k items) :=
            fresh_sublist ks _
          have hle := hsub.length_le
          simp only [List.length_append, List.length_cons] at hlength hsplit'
          omega
        · intro hnone
          exact absurd h (hnone k List.mem_cons_self)
      next h =>
        rw [ih]
        constructor
        · intro hnone
          exact List.forall_mem_cons.mpr ⟨h, hnone⟩
        · intro hnone
          exact (List.forall_mem_cons.mp hnone).2

/-- Passing over a lost key leaves no more than stopping at it. -/
theorem fresh_sublist_unmatched (ks : List κ) (items : List α) :
    (fresh key ks items).Sublist (unmatched key ks items) := by
  induction ks generalizing items with
  | nil => simp
  | cons k ks ih =>
      by_cases h : k ∈ items.map key
      · rw [unmatched_of_mem h, fresh, if_pos h]
        exact List.Sublist.append (List.Sublist.refl _) (ih _)
      · rw [unmatched_of_not_mem h]
        exact fresh_sublist _ _

/-- Only fresh items are left when none behind is lost. -/
theorem unmatched_eq_fresh_iff :
    unmatched key ks items = fresh key ks items ↔ NoneBehindLost key ks items := by
  induction ks generalizing items with
  | nil => simp [NoneBehindLost]
  | cons k ks ih =>
      by_cases h : k ∈ items.map key
      · rw [unmatched_of_mem h, fresh, if_pos h, NoneBehindLost, if_pos h, ← ih,
          List.append_cancel_left_eq]
      · rw [unmatched_of_not_mem h, fresh, if_neg h, NoneBehindLost, if_neg h,
          ← fresh_eq_self_iff]
        exact eq_comm

/-- Neither the order of the items left matters nor what they are mapped to. -/
theorem unmatched_perm_fresh_iff {β : Type*} (f : α → β) :
    ((unmatched key ks items).map f).Perm ((fresh key ks items).map f) ↔
      NoneBehindLost key ks items := by
  rw [← unmatched_eq_fresh_iff]
  constructor
  · intro hperm
    have hlength := hperm.length_eq
    rw [List.length_map, List.length_map] at hlength
    exact ((fresh_sublist_unmatched ks items).eq_of_length hlength.symm).symm
  · intro heq
    rw [heq]

/-- Matching goes along a map of the items. -/
theorem unmatched_map {β : Type*} (f : β → α) (ks : List κ) (items : List β) :
    unmatched key ks (items.map f) = (unmatched (key ∘ f) ks items).map f := by
  induction ks, items using unmatched.induct (key ∘ f) with
  | case1 items => simp
  | case2 k ks => rfl
  | case3 ks x items ih => simp [unmatched, ih]
  | case4 k ks x items hne ih =>
      have hne' : key (f x) ≠ k := hne
      simp [unmatched, hne', ih]

/-- Matching goes along an injective map of the keys. -/
theorem unmatched_map_key (key : α → κ) {μ : Type*} [DecidableEq μ] {g : κ → μ}
    (hg : Function.Injective g) (ks : List κ) (items : List α) :
    unmatched (g ∘ key) (ks.map g) items = unmatched key ks items := by
  induction ks, items using unmatched.induct key with
  | case1 items => simp
  | case2 k ks => rfl
  | case3 ks x items ih => simp [unmatched, ih]
  | case4 k ks x items hne ih =>
      have hne' : g (key x) ≠ g k := fun heq => hne (hg heq)
      simpa [unmatched, hne', hne] using ih

/-- The own keys of a list take every item. -/
theorem fresh_map_self (items : List α) : fresh key (items.map key) items = [] := by
  induction items with
  | nil => rfl
  | cons x items ih =>
      have hmem : key x ∈ (x :: items).map key := List.mem_map_of_mem List.mem_cons_self
      rw [List.map_cons, fresh, if_pos hmem, before_cons_of_eq rfl, behind_cons_of_eq rfl, ih,
        List.nil_append]

theorem noneBehindLost_map_self (items : List α) :
    NoneBehindLost key (items.map key) items := by
  induction items with
  | nil => trivial
  | cons x items ih =>
      have hmem : key x ∈ (x :: items).map key := List.mem_map_of_mem List.mem_cons_self
      rw [List.map_cons, NoneBehindLost, if_pos hmem, behind_cons_of_eq rfl]
      exact ih

/-! ## Nothing lost -/

/-- The later keys match behind the first match. -/
theorem sublist_behind (h : (k :: ks).Sublist (items.map key)) :
    ks.Sublist ((behind key k items).map key) := by
  induction items with
  | nil => simp at h
  | cons x items ih =>
      rw [List.map_cons, List.cons_sublist_cons'] at h
      by_cases hx : key x = k
      · rw [behind_cons_of_eq hx]
        exact h.elim (fun h => (List.sublist_cons_self _ _).trans h) fun h => h.2
      · rw [behind_cons_of_ne hx]
        exact ih (h.resolve_right fun h => hx h.1.symm)

/-- When every key is found, no key behind a lost one is. -/
theorem noneBehindLost_of_sublist (h : ks.Sublist (items.map key)) :
    NoneBehindLost key ks items := by
  induction ks generalizing items with
  | nil => trivial
  | cons k ks ih =>
      have hmem : k ∈ items.map key := h.subset List.mem_cons_self
      rw [NoneBehindLost, if_pos hmem]
      exact ih (sublist_behind h)

/-- An injective map keeps sublists. -/
theorem map_sublist_map_iff {α β : Type*} {f : α → β} (hf : Function.Injective f)
    {l m : List α} : (l.map f).Sublist (m.map f) ↔ l.Sublist m := by
  constructor
  · intro h
    obtain ⟨l', hl', heq⟩ := List.sublist_map_iff.mp h
    rwa [List.map_injective_iff.mpr hf heq]
  · exact fun h => h.map f

/-! ## Sorted lists -/

section Sorted

variable [LinearOrder κ]

/-- For sorted lists the items left are those whose key does not occur. -/
theorem fresh_eq_filter (hks : ks.Pairwise (· < ·))
    (hitems : items.Pairwise fun x y => key x < key y) :
    fresh key ks items = items.filter fun x => key x ∉ ks := by
  induction ks generalizing items with
  | nil => simp
  | cons k ks ih =>
      rw [List.pairwise_cons] at hks
      by_cases h : k ∈ items.map key
      · obtain ⟨x, rfl, hsplit⟩ := exists_eq_append h
        have hsorted := hitems
        rw [hsplit, List.pairwise_append, List.pairwise_cons] at hsorted
        obtain ⟨_, ⟨hbehind, hrest⟩, hbefore⟩ := hsorted
        rw [fresh, if_pos h, ih hks.2 hrest]
        conv_rhs => rw [hsplit]
        have hfront : (before key (key x) items).filter (fun y => key y ∉ key x :: ks) =
            before key (key x) items := by
          refine List.filter_eq_self.mpr fun y hy => ?_
          have hlt : key y < key x := hbefore y hy x List.mem_cons_self
          have hnot : key y ∉ ks := fun hmem => (hks.1 _ hmem).not_gt hlt
          simp [hlt.ne, hnot]
        have hback : (behind key (key x) items).filter (fun y => key y ∉ key x :: ks) =
            (behind key (key x) items).filter fun y => key y ∉ ks := by
          refine List.filter_congr fun y hy => ?_
          have hne : key y ≠ key x := (hbehind y hy).ne'
          simp [hne]
        rw [List.filter_append, hfront, List.filter_cons_of_neg (by simp), hback]
      · rw [fresh, if_neg h, ih hks.2 hitems]
        refine List.filter_congr fun y hy => ?_
        have hne : key y ≠ k := fun heq => h (heq ▸ List.mem_map_of_mem hy)
        simp [hne]

end Sorted

/-- For strictly sorted lists it is enough that every key occurs. -/
theorem sublist_iff_subset {μ : Type*} [LinearOrder μ] {l m : List μ}
    (hl : l.Pairwise (· < ·)) (hm : m.Pairwise (· < ·)) : l.Sublist m ↔ l ⊆ m := by
  refine ⟨List.Sublist.subset, fun hsub => ?_⟩
  have hnodup : l.Nodup := hl.imp fun h => h.ne
  exact List.sublist_of_subperm_of_pairwise (List.subperm_of_subset hnodup hsub)
    (hl.imp fun h => h.le) (hm.imp fun h => h.le)

end OrderedMatching
end Library
end OFlux
