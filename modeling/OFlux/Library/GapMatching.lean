import Mathlib.Data.List.Count
import Mathlib.Data.List.Pairwise
import Mathlib.Data.List.Sort
import Mathlib.Order.Interval.Set.OrdConnected

/-!
# Matching two sorted lists gap by gap

Targets and sources are keys of a linear order, each of some kind, and the keys of one kind
come one after the other.  A target that is also a source takes itself; the others take
sources of their kind.  The keys that are both cut the order into gaps, and there is room for
all targets if and only if no gap has more targets than sources of a kind.

Main results:

- Theorems {lit}`Fits.tail_of_same`, {lit}`Fits.tail_of_free` and {lit}`Fits.skip`: the
  condition is kept by the steps of a walk over both lists.
- Theorem {lit}`fits_of_pairs`: pairs in which common keys take themselves show that there is
  room.
-/

namespace OFlux
namespace Library
namespace GapMatching

universe u v

variable {κ : Type u} {σ : Type v} [LinearOrder κ] [DecidableEq σ] (kind : κ → σ)

/-- A key of one kind between two bounds, where there are bounds. -/
def InGap (s : σ) (lo hi : Option κ) (k : κ) : Prop :=
  kind k = s ∧ (∀ a ∈ lo, a < k) ∧ ∀ b ∈ hi, k < b

instance (s : σ) (lo hi : Option κ) : DecidablePred (InGap kind s lo hi) := fun _ => by
  unfold InGap
  cases lo <;> cases hi <;> simp <;> infer_instance

/-- No gap between common keys has more targets than sources of a kind. -/
def Fits (targets sources : List κ) : Prop :=
  ∀ s lo hi, (∀ a ∈ lo, a ∈ targets ∧ a ∈ sources) → (∀ b ∈ hi, b ∈ targets ∧ b ∈ sources) →
    targets.countP (fun k => InGap kind s lo hi k) ≤
      sources.countP (fun k => InGap kind s lo hi k)

variable {kind} {x y : κ} {s : σ} {lo hi : Option κ} {targets sources : List κ}

/-- The order of the elements does not matter. -/
theorem Fits.perm {targets' sources' : List κ} (htargets : targets.Perm targets')
    (hsources : sources.Perm sources') (h : Fits kind targets sources) :
    Fits kind targets' sources' := by
  intro s lo hi hlo hhi
  rw [← htargets.countP_eq, ← hsources.countP_eq]
  refine h s lo hi (fun a ha => ?_) (fun b hb => ?_)
  · exact (hlo a ha).imp htargets.mem_iff.mpr hsources.mem_iff.mpr
  · exact (hhi b hb).imp htargets.mem_iff.mpr hsources.mem_iff.mpr

/-- Elements of the sources fit. -/
theorem fits_of_subperm (h : targets.Subperm sources) : Fits kind targets sources :=
  fun _ _ _ _ _ => h.countP_le _

/-! ## Counts of a list with one more key -/

/-- An element outside of the gap is not counted. -/
theorem countP_cons_of_not (h : ¬ InGap kind s lo hi x) :
    (x :: targets).countP (fun k => InGap kind s lo hi k) =
      targets.countP (fun k => InGap kind s lo hi k) :=
  List.countP_cons_of_neg (by simpa using h)

/-- An element in the gap is counted. -/
theorem countP_cons_of_inGap (h : InGap kind s lo hi x) :
    (x :: targets).countP (fun k => InGap kind s lo hi k) =
      targets.countP (fun k => InGap kind s lo hi k) + 1 :=
  List.countP_cons_of_pos (by simpa using h)

omit [DecidableEq σ] in
/-- Below its lower end nothing is in the gap. -/
theorem not_inGap_of_le {a : κ} (h : x ≤ a) : ¬ InGap kind s (some a) hi x :=
  fun hgap => absurd (hgap.2.1 a rfl) (not_lt.mpr h)

/-- Above its first key, a sorted list is what comes behind that key. -/
theorem countP_above_head (hsorted : (x :: targets).Pairwise (· < ·)) :
    (x :: targets).countP (fun k => InGap kind s (some x) hi k) =
      targets.countP (fun k => InGap kind s none hi k) := by
  rw [countP_cons_of_not (not_inGap_of_le le_rfl)]
  refine List.countP_congr fun k hk => ?_
  have hxk : x < k := List.rel_of_pairwise_cons hsorted hk
  simp [InGap, hxk]

/-- Nothing in the gap, nothing counted. -/
theorem countP_eq_zero_of (h : ∀ k ∈ targets, ¬ InGap kind s lo hi k) :
    targets.countP (fun k => InGap kind s lo hi k) = 0 :=
  List.countP_eq_zero.mpr fun k hk => by simpa using h k hk

/-! ## Steps of a walk over both lists -/

/-- Both lists start with a common key. -/
theorem Fits.tail_of_same (h : Fits kind (x :: targets) (x :: sources))
    (htargets : (x :: targets).Pairwise (· < ·)) (hsources : (x :: sources).Pairwise (· < ·)) :
    Fits kind targets sources := by
  intro s lo hi hlo hhi
  have hmore : ∀ {a}, a ∈ targets ∧ a ∈ sources → a ∈ x :: targets ∧ a ∈ x :: sources :=
    fun ha => ha.imp (List.mem_cons_of_mem x) (List.mem_cons_of_mem x)
  cases lo with
  | none =>
      rw [← countP_above_head htargets, ← countP_above_head hsources]
      refine h s (some x) hi ?_ fun b hb => hmore (hhi b hb)
      rintro a ⟨⟩
      exact ⟨List.mem_cons_self, List.mem_cons_self⟩
  | some a =>
      have hxa : x < a := List.rel_of_pairwise_cons htargets (hlo a rfl).1
      have hle := h s (some a) hi (fun b hb => hmore (hlo b hb)) fun b hb => hmore (hhi b hb)
      rwa [countP_cons_of_not (not_inGap_of_le hxa.le),
        countP_cons_of_not (not_inGap_of_le hxa.le)] at hle

/-- The first target is no source: the first source of its kind is no target. -/
theorem Fits.not_mem_of_free (h : Fits kind (x :: targets) (y :: sources))
    (htargets : (x :: targets).Pairwise (· < ·)) (hsources : (y :: sources).Pairwise (· < ·)) :
    y ∉ targets := by
  intro hy
  have hxy : x < y := List.rel_of_pairwise_cons htargets hy
  have hle := h (kind x) none (some y) (by simp) (by
    rintro b ⟨⟩
    exact ⟨List.mem_cons_of_mem x hy, List.mem_cons_self⟩)
  have hgap : InGap kind (kind x) none (some y) x := ⟨rfl, by simp, by simpa using hxy⟩
  rw [countP_cons_of_inGap hgap] at hle
  have hzero : (y :: sources).countP (fun k => InGap kind (kind x) none (some y) k) = 0 := by
    refine countP_eq_zero_of fun k hk hk' => ?_
    have hyk : y ≤ k := by
      rcases List.mem_cons.mp hk with rfl | hk
      · exact le_rfl
      · exact (List.rel_of_pairwise_cons hsources hk).le
    exact absurd (hk'.2.2 y rfl) (not_lt.mpr hyk)
  omega

/-- The first target takes the first source, which has its kind. -/
theorem Fits.tail_of_free (h : Fits kind (x :: targets) (y :: sources)) (hkind : kind x = kind y)
    (htargets : (x :: targets).Pairwise (· < ·)) (hsources : (y :: sources).Pairwise (· < ·)) :
    Fits kind targets sources := by
  intro s lo hi hlo hhi
  have hmore : ∀ {a}, a ∈ targets ∧ a ∈ sources → a ∈ x :: targets ∧ a ∈ y :: sources :=
    fun ha => ha.imp (List.mem_cons_of_mem x) (List.mem_cons_of_mem y)
  have hle := h s lo hi (fun a ha => hmore (hlo a ha)) fun b hb => hmore (hhi b hb)
  have hsame : InGap kind s lo hi x ↔ InGap kind s lo hi y := by
    cases lo with
    | some a =>
        have hxa : x < a := List.rel_of_pairwise_cons htargets (hlo a rfl).1
        have hya : y < a := List.rel_of_pairwise_cons hsources (hlo a rfl).2
        exact iff_of_false (not_inGap_of_le hxa.le) (not_inGap_of_le hya.le)
    | none =>
        refine and_congr (by rw [hkind]) (and_congr (by simp) (forall₂_congr fun b hb => ?_))
        exact iff_of_true (List.rel_of_pairwise_cons htargets (hhi b hb).1)
          (List.rel_of_pairwise_cons hsources (hhi b hb).2)
  by_cases hx : InGap kind s lo hi x
  · rw [countP_cons_of_inGap hx, countP_cons_of_inGap (hsame.mp hx)] at hle
    omega
  · rwa [countP_cons_of_not hx, countP_cons_of_not fun hy => hx (hsame.mpr hy)] at hle

/-- A key that stands in a gap is one more than what is above it. -/
theorem countP_above_lt (hx : x ∈ sources) (hgap : InGap kind s none hi x) :
    sources.countP (fun k => InGap kind s (some x) hi k) <
      sources.countP (fun k => InGap kind s none hi k) := by
  have hperm := List.perm_cons_erase hx
  rw [hperm.countP_eq, hperm.countP_eq, countP_cons_of_not (not_inGap_of_le le_rfl),
    countP_cons_of_inGap hgap, Nat.lt_succ_iff]
  refine List.countP_mono_left fun k _ hk => ?_
  have hk' : InGap kind s (some x) hi k := by simpa using hk
  exact decide_eq_true ⟨hk'.1, by simp, hk'.2.2⟩

/-- A source in front of the first target is passed over, when that target is a source
itself or of another kind. -/
theorem Fits.skip (hconvex : ∀ s, Set.OrdConnected {k | kind k = s})
    (h : Fits kind (x :: targets) (y :: sources)) (hyx : y < x)
    (hx : x ∈ sources ∨ kind x ≠ kind y) (htargets : (x :: targets).Pairwise (· < ·)) :
    Fits kind (x :: targets) sources := by
  intro s lo hi hlo hhi
  have hmore : ∀ {a}, a ∈ x :: targets ∧ a ∈ sources → a ∈ x :: targets ∧ a ∈ y :: sources :=
    fun ha => ha.imp_right (List.mem_cons_of_mem y)
  have hxle : ∀ k ∈ x :: targets, x ≤ k := by
    intro k hk
    rcases List.mem_cons.mp hk with rfl | hk
    · exact le_rfl
    · exact (List.rel_of_pairwise_cons htargets hk).le
  by_cases hy : InGap kind s lo hi y
  · cases lo with
    | some a =>
        -- a common key is no smaller than the first target
        exact absurd hy (not_inGap_of_le (hyx.le.trans (hxle a (hlo a rfl).1)))
    | none =>
        by_cases hgap : InGap kind s none hi x
        · have hxs : x ∈ sources := hx.resolve_right fun hne => hne (hgap.1.trans hy.1.symm)
          have hle := h s (some x) hi (by
            rintro a ⟨⟩
            exact ⟨List.mem_cons_self, List.mem_cons_of_mem y hxs⟩) fun b hb => hmore (hhi b hb)
          rw [countP_above_head htargets, countP_cons_of_not (not_inGap_of_le hyx.le)] at hle
          have hlt := countP_above_lt hxs hgap
          rw [countP_cons_of_inGap hgap]
          omega
        · -- then no target is in the gap
          rw [countP_eq_zero_of fun k hk hk' => hgap ⟨?_, by simp, fun b hb => ?_⟩]
          · exact Nat.zero_le _
          · exact (hconvex s).out hy.1 hk'.1 ⟨hyx.le, hxle k hk⟩
          · exact lt_of_le_of_lt (hxle k hk) (hk'.2.2 b hb)
  · have hle := h s lo hi (fun a ha => hmore (hlo a ha)) fun b hb => hmore (hhi b hb)
    rwa [countP_cons_of_not hy] at hle

/-- There is no room for a target whose kind no source has. -/
theorem not_fits_of_forall_ne (h : ∀ k ∈ sources, kind k ≠ kind x) :
    ¬ Fits kind (x :: targets) sources := by
  intro hfits
  have hle := hfits (kind x) none none (by simp) (by simp)
  rw [countP_cons_of_inGap ⟨rfl, by simp, by simp⟩,
    countP_eq_zero_of fun k hk hk' => h k hk hk'.1] at hle
  omega

/-- There is no room for a first target that is smaller than all sources and of another kind
than the first one. -/
theorem not_fits_of_lt (hconvex : ∀ s, Set.OrdConnected {k | kind k = s}) (hxy : x < y)
    (hkind : kind x ≠ kind y) (hsources : (y :: sources).Pairwise (· < ·)) :
    ¬ Fits kind (x :: targets) (y :: sources) := by
  refine not_fits_of_forall_ne fun k hk hkx => hkind ?_
  have hyk : y ≤ k := by
    rcases List.mem_cons.mp hk with rfl | hk
    · exact le_rfl
    · exact (List.rel_of_pairwise_cons hsources hk).le
  exact ((hconvex (kind x)).out rfl hkx ⟨hxy.le, hyk⟩).symm

/-! ## Pairs that show that there is room -/

/-- Pairs that ascend on both sides. -/
theorem lt_of_fst_lt {pairs : List (κ × κ)} (hfst : (pairs.map Prod.fst).Pairwise (· < ·))
    (hsnd : (pairs.map Prod.snd).Pairwise (· < ·)) :
    ∀ p ∈ pairs, ∀ q ∈ pairs, p.1 < q.1 → p.2 < q.2 := by
  let R : κ × κ → κ × κ → Prop := fun p q => (p.1 < q.1 → p.2 < q.2) ∧ (q.1 < p.1 → q.2 < p.2)
  have hsymm : Std.Symm R := ⟨fun _ _ h => h.symm⟩
  have hpairs : pairs.Pairwise R :=
    (List.pairwise_map.mp hfst).imp₂ (fun _ _ h₁ h₂ => ⟨fun _ => h₂, fun h => absurd h h₁.asymm⟩)
      (List.pairwise_map.mp hsnd)
  intro p hp q hq
  exact (hpairs.forall_of_forall
    (fun p _ => ⟨fun h => absurd h (lt_irrefl _), fun h => absurd h (lt_irrefl _)⟩) hp hq).1

/-- Pairs in which common keys take themselves show that there is room. -/
theorem fits_of_pairs {pairs : List (κ × κ)} (hfirst : pairs.map Prod.fst = targets)
    (hsecond : (pairs.map Prod.snd).Sublist sources) (htargets : targets.Pairwise (· < ·))
    (hsources : sources.Pairwise (· < ·)) (hkind : ∀ p ∈ pairs, kind p.1 = kind p.2)
    (hown : ∀ p ∈ pairs, p.1 ∈ sources → p.2 = p.1) : Fits kind targets sources := by
  subst hfirst
  have hmono := lt_of_fst_lt htargets (hsources.sublist hsecond)
  have hcommon : ∀ {a}, a ∈ pairs.map Prod.fst ∧ a ∈ sources → (a, a) ∈ pairs := by
    rintro a ⟨ha, has⟩
    obtain ⟨p, hp, rfl⟩ := List.mem_map.mp ha
    have heq := hown p hp has
    rwa [← Prod.mk.eta (p := p), heq] at hp
  intro s lo hi hlo hhi
  refine le_trans ?_ (hsecond.countP_le)
  rw [List.countP_map, List.countP_map]
  refine List.countP_mono_left fun p hp hgap => ?_
  have hgap' : InGap kind s lo hi p.1 := by simpa using hgap
  have hgoal : InGap kind s lo hi p.2 :=
    ⟨(hkind p hp).symm.trans hgap'.1,
      fun a ha => hmono (a, a) (hcommon (hlo a ha)) p hp (hgap'.2.1 a ha),
      fun b hb => hmono p hp (b, b) (hcommon (hhi b hb)) (hgap'.2.2 b hb)⟩
  simpa using hgoal

end GapMatching
end Library
end OFlux
