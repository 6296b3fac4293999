import OFlux.Guards.AtomicsHolder

/-!
# The order of acquisition

{lit}`HeldAtomic::compare` orders held atomics by guard, then by mode, then by key;
late ones come last within their mode and are not told apart.  With one magic number
for each guard this is a total preorder, so sorting by it gives a sorted order.

Main results:

- Theorem {lit}`compare_nonpos_total`, {lit}`compare_nonpos_trans`: the order is total
  and transitive.
- Theorem {lit}`sortedOrder_insertionSort`: a stable sort is one of the sorted orders.
-/

namespace OFlux
namespace Guards

variable {I K D : Type} [LinearOrder K]

/-! ## Keys -/

/-- No key comes before every key. -/
theorem kCompare_nonpos_iff (k1 k2 : Option K) :
    kCompare k1 k2 ≤ 0 ↔ k1 = none ∨ ∃ a b, k1 = some a ∧ k2 = some b ∧ a ≤ b := by
  cases k1 with
  | none => cases k2 <;> simp [kCompare]
  | some a =>
      cases k2 with
      | none => simp [kCompare]
      | some b =>
          simp only [kCompare]
          split
          next hlt => simp [hlt.le]
          next hlt =>
            split
            next hgt => simp [not_le.mpr hgt]
            next hgt => simp [not_lt.mp hgt]

namespace Guard

variable (guard : Guard)

/-- Any two keys can be ordered. -/
theorem compareKeys_nonpos_total (k1 k2 : Option K) :
    guard.compareKeys k1 k2 ≤ 0 ∨ guard.compareKeys k2 k1 ≤ 0 := by
  simp only [compareKeys]
  split
  · simp only [kCompare_nonpos_iff]
    cases k1 with
    | none => simp
    | some a =>
        cases k2 with
        | none => simp
        | some b => simpa using le_total a b
  · simp
  · simp

theorem compareKeys_nonpos_trans {k1 k2 k3 : Option K} (h12 : guard.compareKeys k1 k2 ≤ 0)
    (h23 : guard.compareKeys k2 k3 ≤ 0) : guard.compareKeys k1 k3 ≤ 0 := by
  simp only [compareKeys] at *
  split
  next cls hcls =>
    simp only [hcls, kCompare_nonpos_iff] at *
    rcases h12 with h1 | ⟨a, b, ha, hb, hab⟩
    · exact Or.inl h1
    · rcases h23 with h2 | ⟨b', c, hb', hc, hbc⟩
      · rw [hb] at h2
        cases h2
      · cases hb.symm.trans hb'
        exact Or.inr ⟨a, c, ha, hc, hab.trans hbc⟩
  · exact le_rfl
  · exact le_rfl

end Guard

/-! ## Held atomics -/

namespace HeldAtomic

variable {guards : GuardId → Guard}

/-- The comparison, level by level. -/
theorem compare_nonpos_iff (left right : HeldAtomic I K D) :
    left.compare guards right false ≤ 0 ↔
      (guards left.ref.guard).magicNumber < (guards right.ref.guard).magicNumber ∨
      (guards left.ref.guard).magicNumber = (guards right.ref.guard).magicNumber ∧
        (left.ref.wtype < right.ref.wtype ∨
          left.ref.wtype = right.ref.wtype ∧
            (left.ref.late guards = false ∧ right.ref.late guards = true ∨
              left.ref.late guards = right.ref.late guards ∧
                (left.ref.late guards = false →
                  (guards left.ref.guard).compareKeys left.key right.key ≤ 0))) := by
  simp only [compare, compareLates]
  by_cases hgt : (guards left.ref.guard).magicNumber = (guards right.ref.guard).magicNumber
  · by_cases hwt : left.ref.wtype = right.ref.wtype
    · cases left.ref.late guards <;> cases right.ref.late guards <;> simp [hgt, hwt]
    · have hne : left.ref.wtype < right.ref.wtype ∨ right.ref.wtype < left.ref.wtype :=
        Nat.lt_or_gt_of_ne hwt
      rcases hne with hlt | hlt
      · simp [hgt, hwt, hlt]
      · simp [hgt, hwt, Nat.not_lt.mpr hlt.le]
  · rcases Nat.lt_or_gt_of_ne hgt with hlt | hlt
    · simp [hgt, hlt]
    · simp [hgt, Nat.not_lt.mpr hlt.le]

variable (hmagic : ∀ g g', (guards g).magicNumber = (guards g').magicNumber → g = g')
include hmagic

/-- Any two references can be ordered. -/
theorem compare_nonpos_total (left right : HeldAtomic I K D) :
    left.compare guards right false ≤ 0 ∨ right.compare guards left false ≤ 0 := by
  simp only [compare_nonpos_iff]
  rcases lt_trichotomy (guards left.ref.guard).magicNumber
    (guards right.ref.guard).magicNumber with hlt | heq | hgt
  · exact Or.inl (Or.inl hlt)
  · rcases lt_trichotomy left.ref.wtype right.ref.wtype with hwlt | hweq | hwgt
    · exact Or.inl (Or.inr ⟨heq, Or.inl hwlt⟩)
    · have hguard := hmagic _ _ heq
      have hkeys := (guards left.ref.guard).compareKeys_nonpos_total left.key right.key
      rw [← hguard]
      cases left.ref.late guards <;> cases right.ref.late guards <;>
        simp_all
    · exact Or.inr (Or.inr ⟨heq.symm, Or.inl hwgt⟩)
  · exact Or.inr (Or.inl hgt)

theorem compare_nonpos_trans {left middle right : HeldAtomic I K D}
    (h12 : left.compare guards middle false ≤ 0) (h23 : middle.compare guards right false ≤ 0) :
    left.compare guards right false ≤ 0 := by
  rw [compare_nonpos_iff] at *
  rcases h12 with hlt | ⟨heq, h12⟩
  · rcases h23 with hlt' | ⟨heq', -⟩
    · exact Or.inl (hlt.trans hlt')
    · exact Or.inl (heq' ▸ hlt)
  rcases h23 with hlt' | ⟨heq', h23⟩
  · exact Or.inl (heq ▸ hlt')
  refine Or.inr ⟨heq.trans heq', ?_⟩
  rcases h12 with hlt | ⟨hweq, h12⟩
  · rcases h23 with hlt' | ⟨hweq', -⟩
    · exact Or.inl (hlt.trans hlt')
    · exact Or.inl (hweq' ▸ hlt)
  rcases h23 with hlt' | ⟨hweq', h23⟩
  · exact Or.inl (hweq ▸ hlt')
  refine Or.inr ⟨hweq.trans hweq', ?_⟩
  -- within one guard and mode: the early ones by key, then the late ones
  rcases h12 with ⟨hl, hm⟩ | ⟨hlm, hk12⟩
  · rcases h23 with ⟨hm', -⟩ | ⟨hmr, -⟩
    · rw [hm] at hm'
      cases hm'
    · exact Or.inl ⟨hl, hmr ▸ hm⟩
  · rcases h23 with ⟨hm, hr⟩ | ⟨hmr, hk23⟩
    · exact Or.inl ⟨hlm.trans hm, hr⟩
    · refine Or.inr ⟨hlm.trans hmr, fun hl => ?_⟩
      have h23' := hk23 (hlm ▸ hl)
      rw [← hmagic _ _ heq] at h23'
      exact (guards left.ref.guard).compareKeys_nonpos_trans (hk12 hl) h23'

/-- A stable sort gives one of the sorted orders. -/
theorem sortedOrder_insertionSort (holders : List (HeldAtomic I K D)) :
    Store.SortedOrder guards holders
      (holders.insertionSort fun left right => left.compare guards right false ≤ 0) := by
  have htotal : Std.Total fun left right : HeldAtomic I K D =>
      left.compare guards right false ≤ 0 := ⟨compare_nonpos_total hmagic⟩
  have htrans : IsTrans (HeldAtomic I K D) fun left right =>
      left.compare guards right false ≤ 0 :=
    ⟨fun _ _ _ hab hbc => compare_nonpos_trans hmagic hab hbc⟩
  exact ⟨List.perm_insertionSort _ _, List.pairwise_insertionSort _ _⟩

end HeldAtomic

end Guards
end OFlux
