import Mathlib.Data.Finset.Card
import Mathlib.Data.Finset.Filter

/-!
# Reference counts

Handles point at objects, and each object counts the handles that point at it; it is deleted when
its count falls to zero.  An operation of a counted pointer is a sequence of moves: a handle
comes to life, starts to point at an object, stops to do so or passes it on, and goes.

Main results:

- Theorems {lit}`References.pointersTo_point`, {lit}`References.pointersTo_drop`: the handles on an
  object after a move.
- Theorems {lit}`References.Exact.enter`, {lit}`References.Exact.point`,
  {lit}`References.Exact.drop`, {lit}`References.Exact.leave` and {lit}`References.Exact.pass`: each
  move keeps the counts exact.
-/

namespace OFlux
namespace Library

universe u v

/-- Live handles and what they point at.  The number of deletions of an object, and whether a handle
has ever pointed at it, are history variables. -/
structure References (H : Type u) (O : Type v) where
  live : Finset H
  target : H → Option O
  count : O → Int
  owned : Finset O
  deletions : O → Nat

namespace References

variable {H : Type u} {O : Type v} [DecidableEq H] [DecidableEq O]

/-- The live handles on an object. -/
def pointersTo (r : References H O) (o : O) : Finset H :=
  r.live.filter fun h => r.target h = some o

omit [DecidableEq H] in
@[simp]
theorem mem_pointersTo {r : References H O} {o : O} {h : H} :
    h ∈ r.pointersTo o ↔ h ∈ r.live ∧ r.target h = some o :=
  Finset.mem_filter

/-- Every count is the number of handles, and an object has been deleted, and that once, exactly if
its last handle is gone. -/
structure Exact (r : References H O) : Prop where
  count_eq : ∀ o, r.count o = (r.pointersTo o).card
  deletions_eq : ∀ o, r.deletions o = if o ∈ r.owned ∧ r.pointersTo o = ∅ then 1 else 0
  owned : ∀ h ∈ r.live, ∀ o, r.target h = some o → o ∈ r.owned

/-! ## Moves -/

/-- A handle comes to life without an object. -/
def enter (r : References H O) (h : H) : References H O :=
  { r with live := insert h r.live, target := Function.update r.target h none }

/-- A handle goes. -/
def leave (r : References H O) (h : H) : References H O :=
  { r with live := r.live.erase h }

/-- A handle without an object starts to point at one. -/
def point (r : References H O) (h : H) (o : O) : References H O :=
  { r with
    target := Function.update r.target h (some o)
    count := Function.update r.count o (r.count o + 1)
    owned := insert o r.owned }

/-- A handle stops to point at its object, which is deleted if the count falls to zero. -/
def drop (r : References H O) (h : H) : References H O :=
  match r.target h with
  | none => r
  | some o =>
      { r with
        target := Function.update r.target h none
        count := Function.update r.count o (r.count o - 1)
        deletions := if r.count o - 1 = 0 then
          Function.update r.deletions o (r.deletions o + 1) else r.deletions }

/-- A handle passes its object on to another one, which has none. -/
def pass (r : References H O) (h h' : H) : References H O :=
  { r with target := Function.update (Function.update r.target h (r.target h')) h' none }

variable {r : References H O} {h : H} {o : O}

@[simp]
theorem drop_live (r : References H O) (h : H) : (r.drop h).live = r.live := by
  unfold drop
  split
  · rfl
  · rfl

@[simp]
theorem drop_target_self (r : References H O) (h : H) : (r.drop h).target h = none := by
  unfold drop
  split
  next hnone => exact hnone
  next => exact Function.update_self _ _ _

theorem drop_target_of_ne {h' : H} (hne : h' ≠ h) : (r.drop h).target h' = r.target h' := by
  unfold drop
  split
  · rfl
  · exact Function.update_of_ne hne _ _

@[simp]
theorem drop_owned (r : References H O) (h : H) : (r.drop h).owned = r.owned := by
  unfold drop
  split
  · rfl
  · rfl

/-! ## The handles on an object -/

/-- A new holder points nowhere. -/
theorem pointersTo_enter (hfresh : h ∉ r.live) (o : O) :
    (r.enter h).pointersTo o = r.pointersTo o := by
  ext h'
  simp only [mem_pointersTo, enter, Finset.mem_insert]
  by_cases heq : h' = h
  · subst heq
    simp [hfresh]
  · simp [heq]

/-- A holder that points nowhere can leave. -/
theorem pointersTo_leave (hnone : r.target h = none) (o : O) :
    (r.leave h).pointersTo o = r.pointersTo o := by
  ext h'
  simp only [mem_pointersTo, leave, Finset.mem_erase]
  constructor
  · rintro ⟨⟨-, hlive⟩, ho⟩
    exact ⟨hlive, ho⟩
  · rintro ⟨hlive, ho⟩
    refine ⟨⟨?_, hlive⟩, ho⟩
    rintro rfl
    rw [hnone] at ho
    cases ho

/-- The holders of an object after one more points to it. -/
theorem pointersTo_point (hlive : h ∈ r.live) (hnone : r.target h = none) (o o' : O) :
    (r.point h o).pointersTo o' =
      if o' = o then insert h (r.pointersTo o') else r.pointersTo o' := by
  ext h'
  by_cases heq : h' = h
  · subst heq
    split
    next ho => simp [point, hlive, ho]
    next ho => simp [point, hnone, Ne.symm ho]
  · split
    · simp [point, heq]
    · simp [point, heq]

/-- The holders of an object after one was dropped. -/
theorem pointersTo_drop (r : References H O) (h : H) (o : O) :
    (r.drop h).pointersTo o = (r.pointersTo o).erase h := by
  ext h'
  simp only [mem_pointersTo, drop_live, Finset.mem_erase]
  by_cases heq : h' = h
  · subst heq
    simp
  · simp [drop_target_of_ne heq, heq]

/-! ## The moves keep the counts exact -/

/-- Without handles all counts are exact when they are zero. -/
theorem exact_of_empty (hlive : r.live = ∅) (hcount : ∀ o, r.count o = 0) (howned : r.owned = ∅)
    (hdeletions : ∀ o, r.deletions o = 0) : r.Exact := by
  have hnone : ∀ o, r.pointersTo o = ∅ := by
    intro o
    simp [pointersTo, hlive]
  refine ⟨fun o => ?_, fun o => ?_, fun h hh => ?_⟩
  · rw [hcount o, hnone o]
    rfl
  · have hnot : o ∉ r.owned := by simp [howned]
    rw [if_neg fun hboth => hnot hboth.1]
    exact hdeletions o
  · simp [hlive] at hh

namespace Exact

variable (hexact : r.Exact)
include hexact

/-- A new holder keeps the counts exact. -/
theorem enter (hfresh : h ∉ r.live) : (r.enter h).Exact where
  count_eq o := by
    rw [pointersTo_enter hfresh]
    exact hexact.count_eq o
  deletions_eq o := by
    rw [pointersTo_enter hfresh]
    exact hexact.deletions_eq o
  owned h' hlive o ho := by
    by_cases heq : h' = h
    · subst heq
      simp [References.enter] at ho
    · have hlive' : h' ∈ r.live := by
        simpa [References.enter, heq] using hlive
      exact hexact.owned h' hlive' o (by simpa [References.enter, heq] using ho)

/-- A holder that leaves keeps the counts exact. -/
theorem leave (hnone : r.target h = none) : (r.leave h).Exact where
  count_eq o := by
    rw [pointersTo_leave hnone]
    exact hexact.count_eq o
  deletions_eq o := by
    rw [pointersTo_leave hnone]
    exact hexact.deletions_eq o
  owned h' hlive o ho := hexact.owned h' (Finset.mem_of_mem_erase hlive) o ho

/-- The object that a handle starts to point at must not have been deleted. -/
theorem point (hlive : h ∈ r.live) (hnone : r.target h = none) (hkept : r.deletions o = 0) :
    (r.point h o).Exact where
  count_eq o' := by
    rw [pointersTo_point hlive hnone]
    by_cases heq : o' = o
    · subst heq
      have hnot : h ∉ r.pointersTo o' := by simp [hnone]
      have hcount := hexact.count_eq o'
      rw [if_pos rfl, Finset.card_insert_of_notMem hnot]
      simp only [References.point, Function.update_self]
      omega
    · rw [if_neg heq, ← hexact.count_eq]
      exact Function.update_of_ne heq _ _
  deletions_eq o' := by
    rw [pointersTo_point hlive hnone]
    change r.deletions o' = _
    by_cases heq : o' = o
    · subst heq
      simp [hkept]
    · rw [hexact.deletions_eq o']
      simp [References.point, heq]
  owned h' hlive' o' ho' := by
    by_cases heq : h' = h
    · subst heq
      obtain rfl : o = o' := by simpa [References.point] using ho'
      exact Finset.mem_insert_self _ _
    · exact Finset.mem_insert_of_mem
        (hexact.owned h' hlive' o' (by simpa [References.point, heq] using ho'))

/-- An object with a handle has not been deleted. -/
theorem deletions_eq_zero (hlive : h ∈ r.live) (htarget : r.target h = some o) :
    r.deletions o = 0 := by
  rw [hexact.deletions_eq, if_neg]
  rintro ⟨-, hempty⟩
  have hmem : h ∈ r.pointersTo o := mem_pointersTo.mpr ⟨hlive, htarget⟩
  rw [hempty] at hmem
  cases hmem

/-- Dropping a reference keeps the counts exact. -/
theorem drop (hlive : h ∈ r.live) : (r.drop h).Exact := by
  cases htarget : r.target h with
  | none =>
      have hsame : r.drop h = r := by simp [References.drop, htarget]
      rw [hsame]
      exact hexact
  | some o =>
      have hmem : h ∈ r.pointersTo o := mem_pointersTo.mpr ⟨hlive, htarget⟩
      have hcard : ((r.pointersTo o).erase h).card + 1 = (r.pointersTo o).card :=
        Finset.card_erase_add_one hmem
      have hcount : r.count o - 1 = (((r.pointersTo o).erase h).card : Int) := by
        have hold := hexact.count_eq o
        omega
      have hother : ∀ o', o' ≠ o → (r.pointersTo o').erase h = r.pointersTo o' := by
        intro o' hne
        refine Finset.erase_eq_of_notMem ?_
        simp [htarget, Ne.symm hne]
      refine ⟨fun o' => ?_, fun o' => ?_, fun h' hlive' o' ho' => ?_⟩
      · rw [pointersTo_drop]
        simp only [References.drop, htarget]
        by_cases heq : o' = o
        · subst heq
          rw [Function.update_self, hcount]
        · rw [Function.update_of_ne heq, hother o' heq]
          exact hexact.count_eq o'
      · rw [pointersTo_drop, drop_owned]
        simp only [References.drop, htarget]
        have howned : o ∈ r.owned := hexact.owned h hlive o htarget
        by_cases heq : o' = o
        · subst heq
          have hzero := hexact.deletions_eq_zero hlive htarget
          have hlast : r.count o' - 1 = 0 ↔ (r.pointersTo o').erase h = ∅ := by
            rw [hcount, Int.natCast_eq_zero, Finset.card_eq_zero]
          by_cases hempty : (r.pointersTo o').erase h = ∅
          · rw [if_pos (hlast.mpr hempty), if_pos ⟨howned, hempty⟩, Function.update_self, hzero]
          · rw [if_neg (mt hlast.mp hempty), if_neg fun hboth => hempty hboth.2, hzero]
        · rw [hother o' heq, ← hexact.deletions_eq o']
          split
          · exact Function.update_of_ne heq _ _
          · rfl
      · rw [drop_owned]
        by_cases heq : h' = h
        · subst heq
          simp at ho'
        · rw [drop_live] at hlive'
          exact hexact.owned h' hlive' o' (by rwa [drop_target_of_ne heq] at ho')

/-- Passing a reference on keeps the counts exact. -/
theorem pass {h' : H} (hlive : h ∈ r.live) (hlive' : h' ∈ r.live) (hnone : r.target h = none) :
    (r.pass h h').Exact := by
  cases htarget : r.target h' with
  | none =>
      have hsame : r.pass h h' = r := by
        simp only [References.pass, htarget, ← hnone, Function.update_eq_self]
        rw [hnone, ← htarget, Function.update_eq_self]
      rw [hsame]
      exact hexact
  | some o =>
      have hne : h' ≠ h := by
        rintro rfl
        rw [hnone] at htarget
        cases htarget
      have hmoves : r.pass h h' = (r.point h o).drop h' := by
        have howned : insert o r.owned = r.owned :=
          Finset.insert_eq_of_mem (hexact.owned h' hlive' o htarget)
        have hpos : r.count o ≠ 0 := by
          have hcard := Finset.card_pos.mpr ⟨h', mem_pointersTo.mpr ⟨hlive', htarget⟩⟩
          have hcount := hexact.count_eq o
          omega
        simp only [References.pass, References.drop, References.point, htarget, howned,
          Function.update_of_ne hne, Function.update_self, Function.update_idem,
          Int.add_sub_cancel, Function.update_eq_self, if_neg hpos]
      rw [hmoves]
      have hkept := hexact.deletions_eq_zero hlive' htarget
      exact (hexact.point hlive hnone hkept).drop hlive'

end Exact

end References

end Library
end OFlux
