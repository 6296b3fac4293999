import Mathlib.Algebra.Group.Nat.Defs
import Mathlib.Algebra.Ring.Int.Defs
import OFlux.Library.ReferenceCount
import OFlux.Library.TransitionSystem

/-!
# Shared pointers

A {lit}`shared_ptr` points at an object and at the count of its handles, which is a 32-bit integer
of its own on the heap.  An assignment first gives up the old object, and then takes what the other
handle has by then.

Main results:

- Theorem {lit}`SharedPtrs.references_unlink`: giving up an object is a move of a reference count.
- Theorem {lit}`SharedPtrs.right_iff_fits`: a call is right in a state with exact counts if it does
  not assign a handle to itself and its object to too many handles.
- Theorem {lit}`SharedPtrs.stepsRight_iff`: the same for runs.
-/

namespace OFlux
namespace Runtime

open Library

/-! ## Handles and objects -/

/-- The {lit}`shared_ptr` handles that are alive, with the object in each; its count comes with it.
Whether an object has been managed, and how often it has been deleted, are history variables. -/
structure SharedPtrs (H O : Type) where
  live : Finset H
  px : H → Option O
  pn : O → BitVec 32
  owned : Finset O
  deletions : O → Nat

/-- What is done to handles.  A pointer is handed in as {lit}`none` if it is null. -/
inductive SharedPtrCall (H O : Type) where
  | construct (x : H) (p : Option O)
  | copy (x sp : H)
  | assign (x sp : H)
  | reset (x : H) (p : Option O)
  | destroy (x : H)

namespace SharedPtrs

variable {H O : Type} [DecidableEq H] [DecidableEq O]

/-- {lit}`unlink` -/
def unlink (s : SharedPtrs H O) (x : H) : SharedPtrs H O :=
  match s.px x with
  | none => s
  | some o =>
      let r := s.pn o - 1
      { s with
        px := Function.update s.px x none
        pn := Function.update s.pn o r
        deletions := if r = 0 then Function.update s.deletions o (s.deletions o + 1)
          else s.deletions }

/-- An empty handle takes a pointer with a new count. -/
def manage (s : SharedPtrs H O) (x : H) : Option O → SharedPtrs H O
  | none => s
  | some o =>
      { s with
        px := Function.update s.px x (some o)
        pn := Function.update s.pn o 1
        owned := insert o s.owned }

/-- An empty handle takes a pointer and its count from another handle. -/
def share (s : SharedPtrs H O) (x : H) : Option O → SharedPtrs H O
  | none => s
  | some o =>
      { s with
        px := Function.update s.px x (some o)
        pn := Function.update s.pn o (s.pn o + 1) }

/-- A handle comes to life. -/
def enter (s : SharedPtrs H O) (x : H) : SharedPtrs H O :=
  { s with live := insert x s.live, px := Function.update s.px x none }

/-- What each call does to the pointers and the counts that they share. -/
def call (s : SharedPtrs H O) : SharedPtrCall H O → SharedPtrs H O
  | .construct x p => (s.enter x).manage x p
  | .copy x sp => (s.enter x).share x (s.px sp)
  | .assign x sp =>
      let s := s.unlink x
      s.share x (s.px sp)
  | .reset x p => (s.unlink x).manage x p
  | .destroy x =>
      let s := s.unlink x
      { s with live := s.live.erase x }

/-- New handles are new, others are alive, and a pointer that is handed in is not managed yet. -/
def Allowed (s : SharedPtrs H O) : SharedPtrCall H O → Prop
  | .construct x p => x ∉ s.live ∧ ∀ o ∈ p, o ∉ s.owned
  | .copy x sp => x ∉ s.live ∧ sp ∈ s.live
  | .assign x sp => x ∈ s.live ∧ sp ∈ s.live
  | .reset x p => x ∈ s.live ∧ ∀ o ∈ p, o ∉ s.owned
  | .destroy x => x ∈ s.live

/-- No handle is alive, and no object has been managed. -/
structure Initial (s : SharedPtrs H O) : Prop where
  live : s.live = ∅
  pn : ∀ o, s.pn o = 0
  owned : s.owned = ∅
  deletions : ∀ o, s.deletions o = 0

variable (H O) in
/-- The calls as a transition system. -/
def system : TransitionSystem (SharedPtrs H O) (SharedPtrCall H O) :=
  .ofCalls Initial Allowed call

/-- The handles on an object. -/
def handles (s : SharedPtrs H O) (o : O) : Finset H :=
  s.live.filter fun x => s.px x = some o

/-- The count of an object is the number of its handles; it has been deleted once if it was managed
and has no handles any more, and not at all otherwise. -/
structure CountsExact (s : SharedPtrs H O) : Prop where
  pn_eq : ∀ o, (s.pn o).toInt = (s.handles o).card
  deletions_eq : ∀ o, s.deletions o = if o ∈ s.owned ∧ s.handles o = ∅ then 1 else 0

/-- The counts are exact after a call, and after an assignment both handles have the object that the
right one had before. -/
def Right (s : SharedPtrs H O) (a : SharedPtrCall H O) (t : SharedPtrs H O) : Prop :=
  t.CountsExact ∧
    match a with
    | .assign x sp => t.px x = s.px sp ∧ t.px sp = s.px sp
    | _ => True

/-- A handle with an object is not assigned to itself, and a handle is added to an object only if
the count can take it. -/
def Fits (s : SharedPtrs H O) (a : SharedPtrCall H O) (_ : SharedPtrs H O) : Prop :=
  match a with
  | .copy _ sp => ∀ o ∈ s.px sp, (s.handles o).card + 1 < 2 ^ 31
  | .assign x sp => (x = sp → s.px x = none) ∧
      ∀ o ∈ s.px sp, s.px x ≠ some o → (s.handles o).card + 1 < 2 ^ 31
  | _ => True

instance (s : SharedPtrs H O) (a : SharedPtrCall H O) (t : SharedPtrs H O) :
    Decidable (s.Fits a t) :=
  match a with
  | .copy _ sp => inferInstanceAs (Decidable (∀ o ∈ s.px sp, (s.handles o).card + 1 < 2 ^ 31))
  | .assign x sp => inferInstanceAs (Decidable ((x = sp → s.px x = none) ∧
      ∀ o ∈ s.px sp, s.px x ≠ some o → (s.handles o).card + 1 < 2 ^ 31))
  | .construct _ _ | .reset _ _ | .destroy _ => .isTrue trivial

omit [DecidableEq H] in
@[simp]
theorem mem_handles {s : SharedPtrs H O} {o : O} {x : H} :
    x ∈ s.handles o ↔ x ∈ s.live ∧ s.px x = some o :=
  Finset.mem_filter

/-! ## Counts of 32 bits -/

/-- Counting up below the largest count. -/
theorem toInt_add_one {n : BitVec 32} (h : n.toInt + 1 < 2 ^ 31) :
    (n + 1).toInt = n.toInt + 1 := by
  have hlow := n.le_toInt
  have hone : (1 : BitVec 32).toInt = 1 := by decide
  rw [BitVec.toInt_add, hone]
  exact Int.bmod_eq_of_le_mul_two (by omega) (by omega)

/-- Counting down from a positive count. -/
theorem toInt_sub_one {n : BitVec 32} (h : 0 < n.toInt) : (n - 1).toInt = n.toInt - 1 := by
  have hhigh := n.toInt_lt
  have hone : (1 : BitVec 32).toInt = 1 := by decide
  rw [BitVec.toInt_sub, hone]
  exact Int.bmod_eq_of_le_mul_two (by omega) (by omega)

/-- One more than the largest count is no larger count. -/
theorem lt_of_toInt_add_one {n : BitVec 32} (h : (n + 1).toInt = n.toInt + 1) :
    n.toInt + 1 < 2 ^ 31 := by
  rw [← h]
  exact (n + 1).toInt_lt

/-! ## The reference counts -/

/-- The handles and the values of the counts. -/
def references (s : SharedPtrs H O) : References H O where
  live := s.live
  target := s.px
  count o := (s.pn o).toInt
  owned := s.owned
  deletions := s.deletions

/-- Exact references have exact counts. -/
theorem CountsExact.of_exact {s : SharedPtrs H O} (h : s.references.Exact) : s.CountsExact :=
  ⟨h.count_eq, h.deletions_eq⟩

theorem px_unlink_self {s : SharedPtrs H O} {x : H} : (s.unlink x).px x = none := by
  unfold unlink
  split
  next hnone => exact hnone
  next => exact Function.update_self _ _ _

theorem px_unlink_of_ne {s : SharedPtrs H O} {x x' : H} (hne : x' ≠ x) :
    (s.unlink x).px x' = s.px x' := by
  unfold unlink
  split
  · rfl
  · exact Function.update_of_ne hne _ _

/-- Unlinking makes no object. -/
theorem owned_unlink {s : SharedPtrs H O} {x : H} : (s.unlink x).owned = s.owned := by
  unfold unlink
  split
  · rfl
  · rfl

theorem px_share_self {s : SharedPtrs H O} {x : H} {p : Option O} (hnone : s.px x = none) :
    (s.share x p).px x = p := by
  cases p with
  | none => exact hnone
  | some o => exact Function.update_self _ _ _

theorem px_share_of_ne {s : SharedPtrs H O} {x x' : H} {p : Option O} (hne : x' ≠ x) :
    (s.share x p).px x' = s.px x' := by
  cases p with
  | none => rfl
  | some o => exact Function.update_of_ne hne _ _

/-- Unlinking ends no pointer. -/
theorem mem_live_unlink {s : SharedPtrs H O} {x x' : H} :
    x' ∈ (s.unlink x).live ↔ x' ∈ s.live := by
  unfold unlink
  split
  · rfl
  · rfl

/-- Unlinking drops one reference. -/
theorem references_unlink {s : SharedPtrs H O} {x : H} (hexact : s.references.Exact)
    (hx : x ∈ s.live) : (s.unlink x).references = s.references.drop x := by
  cases hp : s.px x with
  | none => simp [unlink, References.drop, references, hp]
  | some o =>
      have hmem : x ∈ s.handles o := mem_handles.mpr ⟨hx, hp⟩
      have hpos : 0 < (s.pn o).toInt := by
        rw [(CountsExact.of_exact hexact).pn_eq o]
        exact_mod_cast Finset.card_pos.mpr ⟨x, hmem⟩
      have hsub := toInt_sub_one hpos
      have hzero : s.pn o - 1 = 0 ↔ (s.pn o).toInt - 1 = 0 := by
        have hnull : (0 : BitVec 32).toInt = 0 := BitVec.toInt_zero
        rw [← hsub, ← BitVec.toInt_inj, hnull]
      simp only [References.drop, references, unlink, hp]
      congr 1
      · funext o'
        by_cases heq : o' = o
        · subst heq
          rw [Function.update_self, Function.update_self, hsub]
        · rw [Function.update_of_ne heq, Function.update_of_ne heq]
      · exact if_congr hzero rfl rfl

section

variable {s : SharedPtrs H O} (hexact : s.references.Exact)
include hexact

/-- Unlinking keeps the counts exact. -/
theorem exact_unlink {x : H} (hx : x ∈ s.live) : (s.unlink x).references.Exact := by
  rw [references_unlink hexact hx]
  exact hexact.drop hx

/-- Unlinking takes the pointer from its object. -/
theorem handles_unlink {x : H} (hx : x ∈ s.live) (o : O) :
    (s.unlink x).handles o = (s.handles o).erase x := by
  have hpointers := s.references.pointersTo_drop x o
  rw [← references_unlink hexact hx] at hpointers
  exact hpointers

/-- No object has more pointers than the count can hold. -/
theorem card_handles_lt (o : O) : (s.handles o).card < 2 ^ 31 := by
  have hlt := (s.pn o).toInt_lt
  have hcount := (CountsExact.of_exact hexact).pn_eq o
  omega

/-- Managing a new object keeps the counts exact. -/
theorem exact_manage {x : H} {p : Option O} (hx : x ∈ s.live) (hnone : s.px x = none)
    (hnew : ∀ o ∈ p, o ∉ s.owned) : (s.manage x p).references.Exact := by
  cases p with
  | none => exact hexact
  | some o =>
      have hfresh : o ∉ s.owned := hnew o rfl
      have hhandles : s.handles o = ∅ := by
        rw [Finset.eq_empty_iff_forall_notMem]
        intro x' hx'
        obtain ⟨hlive, ho⟩ := mem_handles.mp hx'
        exact hfresh (hexact.owned x' hlive o ho)
      have hzero : (s.pn o).toInt = 0 := by
        rw [(CountsExact.of_exact hexact).pn_eq o, hhandles]
        rfl
      have hkept : s.deletions o = 0 :=
        (hexact.deletions_eq o).trans (if_neg fun hboth => hfresh hboth.1)
      have hpoint : (s.manage x (some o)).references = s.references.point x o := by
        simp only [references, References.point, manage]
        congr 1
        funext o'
        by_cases heq : o' = o
        · subst heq
          rw [Function.update_self, Function.update_self, hzero]
          rfl
        · rw [Function.update_of_ne heq, Function.update_of_ne heq]
      rw [hpoint]
      exact hexact.point hx hnone hkept

/-! ## Sharing an object -/

variable {x sp : H} {p : Option O}

/-- Sharing keeps the counts exact while they fit. -/
theorem exact_share (hx : x ∈ s.live) (hnone : s.px x = none) (hsp : sp ∈ s.live)
    (hp : s.px sp = p) (hfits : ∀ o ∈ p, (s.handles o).card + 1 < 2 ^ 31) :
    (s.share x p).references.Exact := by
  cases p with
  | none => exact hexact
  | some o =>
      have hcount := (CountsExact.of_exact hexact).pn_eq o
      have hlt := hfits o rfl
      have hadd : (s.pn o + 1).toInt = (s.pn o).toInt + 1 := toInt_add_one (by omega)
      have howned : insert o s.owned = s.owned :=
        Finset.insert_eq_of_mem (hexact.owned sp hsp o hp)
      have hpoint : (s.share x (some o)).references = s.references.point x o := by
        simp only [references, References.point, share, howned]
        congr 1
        funext o'
        by_cases heq : o' = o
        · subst heq
          rw [Function.update_self, Function.update_self, hadd]
        · rw [Function.update_of_ne heq, Function.update_of_ne heq]
      rw [hpoint]
      exact hexact.point hx hnone (hexact.deletions_eq_zero hsp hp)

omit hexact in
/-- A handle that shares an object stands for one more in its count. -/
theorem fits_of_share (hexact : s.CountsExact) (hx : x ∈ s.live) (hnone : s.px x = none)
    (hcounts : (s.share x p).CountsExact) : ∀ o ∈ p, (s.handles o).card + 1 < 2 ^ 31 := by
  rintro o rfl
  have hhandles : (s.share x (some o)).handles o = insert x (s.handles o) := by
    ext x'
    rw [mem_handles, Finset.mem_insert, mem_handles]
    by_cases heq : x' = x
    · subst heq
      simp [share, hx]
    · simp [share, heq]
  have hnot : x ∉ s.handles o := fun hmem => by
    rw [(mem_handles.mp hmem).2] at hnone
    cases hnone
  have hnew := hcounts.pn_eq o
  have hold := hexact.pn_eq o
  rw [hhandles, Finset.card_insert_of_notMem hnot, show (s.share x (some o)).pn o = s.pn o + 1
    from Function.update_self _ _ _] at hnew
  have hlt := lt_of_toInt_add_one (n := s.pn o) (by omega)
  omega

/-! ## Calls -/

/-- A new pointer keeps the counts exact. -/
theorem exact_enter (hfresh : x ∉ s.live) : (s.enter x).references.Exact :=
  hexact.enter hfresh

omit hexact [DecidableEq H] in
/-- A new pointer points nowhere. -/
theorem handles_enter [DecidableEq H] (hfresh : x ∉ s.live) (o : O) :
    (s.enter x).handles o = s.handles o :=
  s.references.pointersTo_enter hfresh o

/-- What is added to the handles of the shared object fits before the old one is given up, too. -/
theorem card_unlink_lt (hx : x ∈ s.live) {o : O}
    (hfits : s.px x ≠ some o → (s.handles o).card + 1 < 2 ^ 31) :
    ((s.unlink x).handles o).card + 1 < 2 ^ 31 := by
  rw [handles_unlink hexact hx]
  by_cases hsame : s.px x = some o
  · rw [Finset.card_erase_add_one (mem_handles.mpr ⟨hx, hsame⟩)]
    exact card_handles_lt hexact o
  · exact lt_of_le_of_lt (Nat.succ_le_succ (Finset.card_erase_le)) (hfits hsame)

/-- A call keeps the counts exact while they fit. -/
theorem exact_call {a : SharedPtrCall H O} {t : SharedPtrs H O} (hallowed : s.Allowed a)
    (hfits : s.Fits a t) : (s.call a).references.Exact := by
  cases a with
  | construct x p =>
      exact exact_manage (exact_enter hexact hallowed.1) (Finset.mem_insert_self _ _)
        (Function.update_self _ _ _) hallowed.2
  | copy x sp =>
      obtain ⟨hfresh, hsp⟩ := hallowed
      have hne : sp ≠ x := fun heq => hfresh (heq ▸ hsp)
      refine exact_share (exact_enter hexact hfresh) (Finset.mem_insert_self _ _)
        (Function.update_self _ _ _) (Finset.mem_insert_of_mem hsp)
        (Function.update_of_ne hne _ _) fun o ho => ?_
      rw [handles_enter hfresh]
      exact hfits o ho
  | assign x sp =>
      obtain ⟨hx, hsp⟩ := hallowed
      have hunlink := exact_unlink hexact hx
      refine exact_share hunlink (mem_live_unlink.mpr hx) px_unlink_self
        (mem_live_unlink.mpr hsp) rfl fun o ho => ?_
      by_cases heq : sp = x
      · subst heq
        rw [px_unlink_self] at ho
        cases ho
      · rw [px_unlink_of_ne heq] at ho
        exact card_unlink_lt hexact hx (hfits.2 o ho)
  | reset x p =>
      obtain ⟨hx, hnew⟩ := hallowed
      exact exact_manage (exact_unlink hexact hx) (mem_live_unlink.mpr hx) px_unlink_self
        (owned_unlink (s := s) (x := x) ▸ hnew)
  | destroy x => exact (exact_unlink hexact hallowed).leave px_unlink_self

omit hexact in
/-- After an assignment both handles have the object of the right one, unless it is an assignment of
a handle with an object to itself. -/
theorem px_assign_iff :
    ((s.call (.assign x sp)).px x = s.px sp ∧ (s.call (.assign x sp)).px sp = s.px sp) ↔
      (x = sp → s.px x = none) := by
  by_cases heq : sp = x
  · subst heq
    have hpx : (s.call (.assign sp sp)).px sp = none := by
      simp only [call]
      rw [px_share_self px_unlink_self]
      exact px_unlink_self
    rw [hpx]
    constructor
    · intro hboth _
      exact hboth.1.symm
    · intro hnone
      exact ⟨(hnone rfl).symm, (hnone rfl).symm⟩
  · have hleft : (s.call (.assign x sp)).px x = s.px sp := by
      simp only [call]
      rw [px_share_self px_unlink_self, px_unlink_of_ne heq]
    have hright : (s.call (.assign x sp)).px sp = s.px sp := by
      simp only [call]
      rw [px_share_of_ne heq, px_unlink_of_ne heq]
    exact iff_of_true ⟨hleft, hright⟩ fun h => absurd h.symm heq

/-- In a state with exact counts a call is right exactly if it fits. -/
theorem right_iff_fits {a : SharedPtrCall H O} (hallowed : s.Allowed a) :
    s.Right a (s.call a) ↔ s.Fits a (s.call a) := by
  constructor
  · rintro ⟨hcounts, hdenotes⟩
    cases a with
    | copy x sp =>
        obtain ⟨hfresh, hsp⟩ := hallowed
        have henter := CountsExact.of_exact (exact_enter hexact hfresh)
        intro o ho
        rw [← handles_enter hfresh]
        exact fits_of_share henter (Finset.mem_insert_self _ _) (Function.update_self _ _ _)
          hcounts o ho
    | assign x sp =>
        obtain ⟨hx, hsp⟩ := hallowed
        have hself := px_assign_iff.mp hdenotes
        refine ⟨hself, fun o ho hne => ?_⟩
        have hsx : sp ≠ x := by
          rintro rfl
          exact hne ho
        have hunlink := CountsExact.of_exact (exact_unlink hexact hx)
        have hlt := fits_of_share hunlink (mem_live_unlink.mpr hx) px_unlink_self hcounts o
          (by rwa [px_unlink_of_ne hsx])
        have hnot : x ∉ s.handles o := fun hmem => hne (mem_handles.mp hmem).2
        rwa [handles_unlink hexact hx, Finset.erase_eq_of_notMem hnot] at hlt
    | construct x p => exact trivial
    | reset x p => exact trivial
    | destroy x => exact trivial
  · intro hfits
    refine ⟨CountsExact.of_exact (exact_call hexact hallowed hfits), ?_⟩
    cases a with
    | assign x sp => exact px_assign_iff.mpr hfits.1
    | copy x sp => exact trivial
    | construct x p => exact trivial
    | reset x p => exact trivial
    | destroy x => exact trivial

end

theorem exact_initial {s : SharedPtrs H O} (h : s.Initial) : s.references.Exact :=
  References.exact_of_empty h.live (fun o => congrArg BitVec.toInt (h.pn o)) h.owned h.deletions

/-- All calls of a run are right, with exact counts and single deletions in every state, if and only
if none assigns a handle with an object to itself, and none adds a handle that a count of 32 bits
cannot take. -/
theorem stepsRight_iff {s : SharedPtrs H O} {path : List (SharedPtrCall H O × SharedPtrs H O)}
    (hinit : s.Initial) (hrun : (system H O).Run s path) :
    TransitionSystem.StepsMeet Right s path ↔ TransitionSystem.StepsMeet Fits s path := by
  refine hrun.stepsMeet_congr_of_kept (I := fun s => s.references.Exact) ?_ ?_
    (exact_initial hinit)
  · rintro s a t hexact ⟨hallowed, rfl⟩ hfits
    exact exact_call hexact hallowed hfits
  · rintro s a t hexact ⟨hallowed, rfl⟩
    exact right_iff_fits hexact hallowed

/-! ## A handle that is assigned to itself -/

/-- No handles and no managed objects. -/
def empty : SharedPtrs Nat Nat where
  live := ∅
  px := fun _ => none
  pn := fun _ => 0
  owned := ∅
  deletions := fun _ => 0

theorem initial_empty : empty.Initial :=
  ⟨rfl, fun _ => rfl, rfl, fun _ => rfl⟩

/-- Two handles of one object are assigned to each other, and then go. -/
def exchanges : List (SharedPtrCall Nat Nat) :=
  [.construct 0 (some 5), .copy 1 0, .assign 0 1, .assign 1 0, .reset 0 none, .destroy 1]

theorem stepsRight_exchanges : TransitionSystem.StepsMeet Right empty
    (TransitionSystem.runOf call empty exchanges) := by
  have hallowed : TransitionSystem.AllAllowed Allowed call empty exchanges := by
    simp [exchanges, TransitionSystem.AllAllowed, Allowed, call, enter, manage, share, unlink,
      empty]
  exact (stepsRight_iff initial_empty (TransitionSystem.run_runOf hallowed)).mpr (by decide)

/-- The only handle of an object is assigned to itself. -/
def selfAssignment : List (SharedPtrCall Nat Nat) := [.construct 0 (some 5), .assign 0 0]

theorem exists_not_right :
    ¬ ∀ (s : SharedPtrs Nat Nat) (path : List (SharedPtrCall Nat Nat × SharedPtrs Nat Nat)),
      s.Initial → (system Nat Nat).Run s path → TransitionSystem.StepsMeet Right s path := by
  intro hall
  have hrun : (system Nat Nat).Run empty (TransitionSystem.runOf call empty selfAssignment) :=
    TransitionSystem.run_runOf (by
      simp [selfAssignment, TransitionSystem.AllAllowed, Allowed, call, enter, manage, empty])
  obtain ⟨-, ⟨-, hleft, -⟩, -⟩ := hall empty _ initial_empty hrun
  revert hleft
  decide

end SharedPtrs

end Runtime
end OFlux
