import OFlux.Library.Acyclic
import OFlux.Library.Loop
import OFlux.Library.SortedMap
import Mathlib.Data.Finset.Insert
import Mathlib.Data.Finset.Card

/-!
# Numbering the guards

A sorter is told the points and the inequalities between them, and gives them their magic
numbers.  It collects the predecessors of each object in a map that is ordered by the addresses,
and goes over the map again and again; an object gets the next number when its predecessors have
theirs.  What remains in no inequality is numbered last.

Main results:

- Theorem {lit}`Numbering.assign`: an object whose predecessors are numbered gets a number that
  keeps the order.
- Theorem {lit}`returns_sweepTurn`: the passes end, and then every object of the map is numbered.
- Theorem {lit}`numberAll_topological`: the numbers are distinct and increase along the
  inequalities.
-/

namespace OFlux
namespace Runtime

open Library

universe u v

/-- The objects by their addresses, and the points by their names. -/
structure MagicSorter (ν : Type u) (α : Type v) where
  inequalities : List (α × α)
  points : List ν

/-- The assertion of {lit}`numberAll`. -/
inductive MagicSorter.Assertion where
  | allassigned
deriving DecidableEq, Repr

namespace MagicSorter

variable {ν : Type u} {α : Type v}

/-- A sorter without constraints. -/
def new : MagicSorter ν α where
  inequalities := []
  points := []

/-- {lit}`addInequality` -/
def addInequality (getMagicNumberable : ν → α) (sorter : MagicSorter ν α) (before after : ν) :
    MagicSorter ν α where
  inequalities := sorter.inequalities ++ [(getMagicNumberable before, getMagicNumberable after)]
  points := sorter.points

/-- {lit}`addPoint` -/
def addPoint (sorter : MagicSorter ν α) (pt : ν) : MagicSorter ν α where
  inequalities := sorter.inequalities
  points := sorter.points ++ [pt]

variable [LinearOrder α]

/-- The predecessors of the objects that are in an inequality. -/
abbrev PredMap (α : Type v) [LinearOrder α] := SortedMap α (Finset α)

/-- The object is in the map, with no predecessors if it is new. -/
def touch (predMap : PredMap α) (a : α) : PredMap α :=
  match predMap.find a with
  | some _ => predMap
  | none => predMap.add a ∅

/-- One turn of the loop over the inequalities. -/
def addPred (predMap : PredMap α) (ineq : α × α) : PredMap α :=
  let predMap := touch predMap ineq.2
  let predMap := predMap.add ineq.2 (insert ineq.1 ((predMap.find ineq.2).getD ∅))
  touch predMap ineq.1

/-- What has to come before each thing. -/
def predMap (inequalities : List (α × α)) : PredMap α :=
  inequalities.foldl addPred SortedMap.empty

/-- The magic numbers of the objects, the next number, and the flags of one pass. -/
structure Pass (α : Type v) where
  number : α → Nat
  magic : Nat
  nochange : Bool
  allassigned : Bool

/-- All of them have a number. -/
def allMagicnumberAssigned (number : α → Nat) (s : Finset α) : Bool :=
  decide (∀ a ∈ s, 0 < number a)

/-- One entry of the map. -/
def visit (a : α) (preds : Finset α) (p : Pass α) : Pass α :=
  let allassigned := p.allassigned && decide (0 < p.number a)
  if p.number a = 0 ∧ allMagicnumberAssigned p.number preds then
    { number := Function.update p.number a p.magic, magic := p.magic + 1,
      nochange := false, allassigned := allassigned }
  else { p with allassigned := allassigned }

/-- One pass over the map, from the magic numbers and the next one. -/
def sweep (predMap : PredMap α) (s : (α → Nat) × Nat) : Pass α :=
  predMap.fold visit { number := s.1, magic := s.2, nochange := true, allassigned := true }

/-- One turn of the loop that numbers the objects of the map, with the assertion after it. -/
def sweepTurn (predMap : PredMap α) (s : (α → Nat) × Nat) :
    Turn Assertion ((α → Nat) × Nat) Unit :=
  let p := sweep predMap s
  if p.nochange then
    if p.allassigned then .done (p.number, p.magic) () else .fail .allassigned
  else .again (p.number, p.magic)

/-- One turn of the loop over the points. -/
def numberPoint (s : (α → Nat) × Nat) (a : α) : (α → Nat) × Nat :=
  if s.1 a = 0 then (Function.update s.1 a s.2, s.2 + 1) else s

/-- {lit}`numberAll` with a bound on the passes over the map. -/
def numberAll (getMagicNumberable : ν → α) (sorter : MagicSorter ν α) (number : α → Nat)
    (turns : Nat) : Option (Except Assertion (α → Nat)) :=
  (runLoop (sweepTurn (predMap sorter.inequalities)) turns (number, 1)).map fun r => do
    let (s, _) ← r
    return ((sorter.points.map getMagicNumberable).foldl numberPoint s).1

/-! ## The map of the predecessors -/

/-- The map has the predecessors of the objects that are in a relation. -/
structure Collects (predMap : PredMap α) (before : α → α → Prop) : Prop where
  isSome_iff : ∀ a, (predMap.find a).isSome ↔ ∃ b, before b a ∨ before a b
  mem_iff : ∀ a preds, predMap.find a = some preds → ∀ b, b ∈ preds ↔ before b a

/-- The predecessors after a point was touched. -/
theorem find_touch (predMap : PredMap α) (a x : α) :
    (touch predMap a).find x =
      if x = a then some ((predMap.find a).getD ∅) else predMap.find x := by
  unfold touch
  split
  next preds h =>
    split
    next hx => rw [hx, h, Option.getD_some]
    next => rfl
  next h => rw [SortedMap.find_add, h, Option.getD_none]

/-- The predecessors after one was added. -/
theorem find_addPred (predMap : PredMap α) (ineq : α × α) (x : α) :
    (addPred predMap ineq).find x =
      if x = ineq.2 then some (insert ineq.1 ((predMap.find ineq.2).getD ∅))
      else if x = ineq.1 then some ((predMap.find x).getD ∅)
      else predMap.find x := by
  simp only [addPred, find_touch, SortedMap.find_add]
  by_cases hbefore : x = ineq.1
  · subst hbefore
    by_cases hafter : ineq.1 = ineq.2 <;> simp [hafter]
  · by_cases hafter : x = ineq.2
    · subst hafter
      simp [hbefore]
    · simp [hafter, hbefore]

/-- The map has the points that come before. -/
theorem Collects.mem_getD_iff {predMap : PredMap α} {before : α → α → Prop}
    (h : Collects predMap before) (a b : α) :
    b ∈ (predMap.find a).getD ∅ ↔ before b a := by
  cases hfind : predMap.find a with
  | some preds => exact h.mem_iff a preds hfind b
  | none =>
      have hnone := (h.isSome_iff a).not.mp (by simp [hfind])
      simp only [Option.getD_none, Finset.notMem_empty, false_iff]
      exact fun hb => hnone ⟨b, Or.inl hb⟩

/-- Adding a predecessor adds one edge. -/
theorem Collects.addPred {predMap : PredMap α} {before : α → α → Prop}
    (h : Collects predMap before) (ineq : α × α) :
    Collects (addPred predMap ineq) (AddEdge before ineq.1 ineq.2) := by
  constructor
  · intro a
    rw [find_addPred]
    by_cases hafter : a = ineq.2
    · rw [if_pos hafter]
      exact ⟨fun _ => ⟨ineq.1, Or.inl (Or.inr ⟨rfl, hafter⟩)⟩, fun _ => rfl⟩
    · rw [if_neg hafter]
      by_cases hbefore : a = ineq.1
      · rw [if_pos hbefore]
        exact ⟨fun _ => ⟨ineq.2, Or.inr (Or.inr ⟨hbefore, rfl⟩)⟩, fun _ => rfl⟩
      · rw [if_neg hbefore, h.isSome_iff]
        simp [AddEdge, hafter, hbefore]
  · intro a preds hfind b
    rw [find_addPred] at hfind
    by_cases hafter : a = ineq.2
    · rw [if_pos hafter] at hfind
      cases hfind
      rw [Finset.mem_insert, h.mem_getD_iff, AddEdge, hafter, or_comm]
      simp
    · rw [if_neg hafter] at hfind
      have hadd : AddEdge before ineq.1 ineq.2 b a ↔ before b a :=
        or_iff_left fun hedge => hafter hedge.2
      rw [hadd]
      by_cases hbefore : a = ineq.1
      · rw [if_pos hbefore] at hfind
        cases hfind
        exact h.mem_getD_iff a b
      · rw [if_neg hbefore] at hfind
        exact h.mem_iff a preds hfind b

/-- Adding all inequalities adds all edges. -/
theorem collects_foldl {predMap : PredMap α} {before : α → α → Prop}
    (h : Collects predMap before) (inequalities : List (α × α)) :
    Collects (inequalities.foldl MagicSorter.addPred predMap)
      (fun b a => before b a ∨ (b, a) ∈ inequalities) := by
  induction inequalities generalizing predMap before with
  | nil => simpa using h
  | cons ineq inequalities ih =>
      have hrest := ih (h.addPred ineq)
      rw [List.foldl_cons]
      simpa only [AddEdge, or_assoc, List.mem_cons, Prod.ext_iff] using hrest

/-- The map collects the inequalities. -/
theorem collects_predMap (inequalities : List (α × α)) :
    Collects (predMap inequalities) (fun b a => (b, a) ∈ inequalities) := by
  have hempty : Collects (SortedMap.empty : PredMap α) fun _ _ => False :=
    ⟨by simp, by simp⟩
  simpa [predMap] using collects_foldl hempty inequalities

/-! ## The order of the numbers -/

/-- The numbers that are given are distinct and increase along the inequalities, and an object
gets its number after its predecessors. -/
structure Numbering (point : α → Prop) (before : α → α → Prop) (s : (α → Nat) × Nat) : Prop where
  magic_pos : 0 < s.2
  lt_magic : ∀ a, point a → s.1 a < s.2
  distinct : ∀ a b, point a → point b → 0 < s.1 a → s.1 a = s.1 b → a = b
  ordered : ∀ b a, before b a → 0 < s.1 a → 0 < s.1 b ∧ s.1 b < s.1 a

/-- A point whose predecessors have numbers gets the next one. -/
theorem Numbering.assign {point : α → Prop} {before : α → α → Prop} {s : (α → Nat) × Nat}
    (h : Numbering point before s) (hpoint : ∀ b a, before b a → point b) {a : α}
    (hzero : s.1 a = 0) (hpreds : ∀ b, before b a → 0 < s.1 b) :
    Numbering point before (Function.update s.1 a s.2, s.2 + 1) := by
  constructor
  · exact Nat.succ_pos _
  · intro x hx
    by_cases hxa : x = a
    · subst hxa
      simp
    · have hlt := h.lt_magic x hx
      simp only [Function.update_of_ne hxa]
      omega
  · intro x y hx hy hpos heq
    by_cases hxa : x = a <;> by_cases hya : y = a
    · rw [hxa, hya]
    · subst hxa
      have hlt := h.lt_magic y hy
      simp only [Function.update_self, Function.update_of_ne hya] at heq
      omega
    · subst hya
      have hlt := h.lt_magic x hx
      simp only [Function.update_self, Function.update_of_ne hxa] at heq
      omega
    · simp only [Function.update_of_ne hxa, Function.update_of_ne hya] at hpos heq
      exact h.distinct x y hx hy hpos heq
  · intro b x hbx hpos
    by_cases hxa : x = a
    · subst hxa
      have hb := hpreds b hbx
      have hne : b ≠ x := by
        rintro rfl
        omega
      have hlt := h.lt_magic b (hpoint b x hbx)
      simp only [Function.update_self, Function.update_of_ne hne]
      exact ⟨hb, hlt⟩
    · simp only [Function.update_of_ne hxa] at hpos ⊢
      obtain ⟨hb, hlt⟩ := h.ordered b x hbx hpos
      have hne : b ≠ a := by
        rintro rfl
        omega
      simp only [Function.update_of_ne hne]
      exact ⟨hb, hlt⟩

/-! ## One pass over the map -/

/-- Each entry has the predecessors of its object. -/
def Entries (before : α → α → Prop) (l : List (α × Finset α)) : Prop :=
  ∀ entry ∈ l, ∀ b, b ∈ entry.2 ↔ before b entry.1

/-- The entry waits for nothing. -/
def Ready (number : α → Nat) (entry : α × Finset α) : Prop :=
  number entry.1 = 0 ∧ ∀ b ∈ entry.2, 0 < number b

/-- A ready point gets a number. -/
theorem visit_of_ready {entry : α × Finset α} {p : Pass α} (h : Ready p.number entry) :
    visit entry.1 entry.2 p =
      { number := Function.update p.number entry.1 p.magic, magic := p.magic + 1,
        nochange := false, allassigned := p.allassigned && decide (0 < p.number entry.1) } := by
  have hcond : p.number entry.1 = 0 ∧ allMagicnumberAssigned p.number entry.2 = true :=
    ⟨h.1, decide_eq_true h.2⟩
  exact if_pos hcond

/-- Any other point is passed over. -/
theorem visit_of_not_ready {entry : α × Finset α} {p : Pass α} (h : ¬ Ready p.number entry) :
    visit entry.1 entry.2 p =
      { p with allassigned := p.allassigned && decide (0 < p.number entry.1) } := by
  have hcond : ¬ (p.number entry.1 = 0 ∧ allMagicnumberAssigned p.number entry.2 = true) :=
    fun hready => h ⟨hready.1, of_decide_eq_true hready.2⟩
  exact if_neg hcond

/-- The entries in their order. -/
def visitAll (l : List (α × Finset α)) (p : Pass α) : Pass α :=
  l.foldl (fun p entry => visit entry.1 entry.2 p) p

theorem visitAll_cons (entry : α × Finset α) (l : List (α × Finset α)) (p : Pass α) :
    visitAll (entry :: l) p = visitAll l (visit entry.1 entry.2 p) :=
  rfl

section

variable {point : α → Prop} {before : α → α → Prop} {l : List (α × Finset α)} {p : Pass α}

/-- An entry that is ready gets a number, and all numbers that there are stay. -/
theorem numbering_visit {entry : α × Finset α} (hpoint : ∀ b a, before b a → point b)
    (hpreds : ∀ b, b ∈ entry.2 ↔ before b entry.1)
    (h : Numbering point before (p.number, p.magic)) :
    Numbering point before
        ((visit entry.1 entry.2 p).number, (visit entry.1 entry.2 p).magic) ∧
      (∀ a, 0 < p.number a → (visit entry.1 entry.2 p).number a = p.number a) ∧
      (Ready p.number entry → 0 < (visit entry.1 entry.2 p).number entry.1) := by
  by_cases hready : Ready p.number entry
  · rw [visit_of_ready hready]
    refine ⟨h.assign hpoint hready.1 fun b hb => hready.2 b ((hpreds b).mpr hb), ?_, ?_⟩
    · intro a ha
      have hne : a ≠ entry.1 := by
        rintro rfl
        exact absurd hready.1 ha.ne'
      exact Function.update_of_ne hne _ _
    · intro _
      simpa using h.magic_pos
  · rw [visit_of_not_ready hready]
    exact ⟨h, fun _ _ => rfl, fun h => absurd h hready⟩

/-- A pass keeps the numbering. -/
theorem numbering_visitAll (hpoint : ∀ b a, before b a → point b) (hentries : Entries before l)
    (h : Numbering point before (p.number, p.magic)) :
    Numbering point before ((visitAll l p).number, (visitAll l p).magic) ∧
      ∀ a, 0 < p.number a → (visitAll l p).number a = p.number a := by
  induction l generalizing p with
  | nil => exact ⟨h, fun _ _ => rfl⟩
  | cons entry l ih =>
      obtain ⟨hpreds, hrest⟩ := List.forall_mem_cons.mp hentries
      obtain ⟨hvisit, hkept, -⟩ := numbering_visit hpoint hpreds h
      obtain ⟨hall, hkeptAll⟩ := ih hrest hvisit
      refine ⟨hall, fun a ha => ?_⟩
      rw [visitAll_cons, hkeptAll a (hkept a ha ▸ ha), hkept a ha]

/-- A pass that changes something numbers an object. -/
theorem visitAll_of_change (hpoint : ∀ b a, before b a → point b) (hentries : Entries before l)
    (h : Numbering point before (p.number, p.magic)) (hstart : p.nochange = true)
    (hend : (visitAll l p).nochange = false) :
    ∃ entry ∈ l, p.number entry.1 = 0 ∧ 0 < (visitAll l p).number entry.1 := by
  induction l generalizing p with
  | nil => exact absurd (hstart.symm.trans hend) Bool.noConfusion
  | cons entry l ih =>
      obtain ⟨hpreds, hrest⟩ := List.forall_mem_cons.mp hentries
      obtain ⟨hvisit, -, hassigned⟩ := numbering_visit hpoint hpreds h
      by_cases hready : Ready p.number entry
      · have hpos := hassigned hready
        have hkept := (numbering_visitAll hpoint hrest hvisit).2 entry.1 hpos
        exact ⟨entry, List.mem_cons_self, hready.1, by rw [visitAll_cons, hkept]; exact hpos⟩
      · have hsame : (visit entry.1 entry.2 p).number = p.number := by
          rw [visit_of_not_ready hready]
        have hnochange : (visit entry.1 entry.2 p).nochange = true := by
          rw [visit_of_not_ready hready]
          exact hstart
        obtain ⟨e, he, hzero, hpos⟩ := ih hrest hvisit hnochange hend
        exact ⟨e, List.mem_cons_of_mem _ he, hsame ▸ hzero, hpos⟩

/-- A pass that changed something did. -/
theorem nochange_visitAll_of_false (h : p.nochange = false) :
    (visitAll l p).nochange = false := by
  induction l generalizing p with
  | nil => exact h
  | cons entry l ih =>
      rw [visitAll_cons]
      by_cases hready : Ready p.number entry
      · exact ih (by rw [visit_of_ready hready])
      · exact ih (by rw [visit_of_not_ready hready]; exact h)

/-- A pass that changes nothing found no entry that was ready. -/
theorem visitAll_of_nochange (h : (visitAll l p).nochange = true) :
    visitAll l p =
        { p with
          allassigned := p.allassigned && l.all fun entry => decide (0 < p.number entry.1) } ∧
      ∀ entry ∈ l, ¬ Ready p.number entry := by
  induction l generalizing p with
  | nil => exact ⟨by simp [visitAll], by simp⟩
  | cons entry l ih =>
      rw [visitAll_cons] at h ⊢
      by_cases hready : Ready p.number entry
      · have hfalse : (visit entry.1 entry.2 p).nochange = false := by
          rw [visit_of_ready hready]
        exact absurd (h.symm.trans (nochange_visitAll_of_false hfalse)) (by decide)
      · rw [visit_of_not_ready hready] at h ⊢
        obtain ⟨hp, hrest⟩ := ih h
        rw [hp, List.all_cons, Bool.and_assoc]
        exact ⟨rfl, List.forall_mem_cons.mpr ⟨hready, hrest⟩⟩

end

/-! ## All passes -/

/-- How many objects of the map have no number. -/
def unassigned (predMap : PredMap α) (number : α → Nat) : Nat :=
  ((predMap.entries.map Prod.fst).toFinset.filter fun a => number a = 0).card

/-- A pass that assigns a number leaves fewer without. -/
theorem unassigned_lt {predMap : PredMap α} {number number' : α → Nat}
    (hkept : ∀ a, 0 < number a → number' a = number a)
    (hnew : ∃ entry ∈ predMap.entries, number entry.1 = 0 ∧ 0 < number' entry.1) :
    unassigned predMap number' < unassigned predMap number := by
  obtain ⟨entry, hentry, hzero, hpos⟩ := hnew
  have hkey : entry.1 ∈ (predMap.entries.map Prod.fst).toFinset :=
    List.mem_toFinset.mpr (List.mem_map_of_mem hentry)
  refine Finset.card_lt_card ((Finset.ssubset_iff_of_subset ?_).mpr ⟨entry.1, ?_, ?_⟩)
  · intro a ha
    rw [Finset.mem_filter] at ha ⊢
    refine ⟨ha.1, Nat.eq_zero_of_not_pos fun hpos => ?_⟩
    have hsame := hkept a hpos
    omega
  · exact Finset.mem_filter.mpr ⟨hkey, hzero⟩
  · exact fun hmem => hpos.ne' (Finset.mem_filter.mp hmem).2

section

variable {predMap : PredMap α} {point : α → Prop} {before : α → α → Prop}

/-- The entries of the map are the points with their predecessors. -/
theorem Collects.entries (h : Collects predMap before) : Entries before predMap.entries :=
  fun _ hentry => h.mem_iff _ _ (SortedMap.mem_entries_iff.mp hentry)

/-- Every point of an inequality has an entry. -/
theorem Collects.exists_entry (h : Collects predMap before) {a : α}
    (ha : ∃ b, before b a ∨ before a b) : ∃ entry ∈ predMap.entries, entry.1 = a := by
  obtain ⟨preds, hpreds⟩ := Option.isSome_iff_exists.mp ((h.isSome_iff a).mpr ha)
  exact ⟨(a, preds), SortedMap.mem_entries_iff.mpr hpreds, rfl⟩

/-- Where no entry is ready, an inequality that starts a path backwards would never end. -/
theorem Collects.assigned_of_not_ready (h : Collects predMap before) (hacyclic : Acyclic before)
    {number : α → Nat} (hready : ∀ entry ∈ predMap.entries, ¬ Ready number entry) :
    ∀ entry ∈ predMap.entries, 0 < number entry.1 := by
  have hfinite : {b | ∃ a, before b a}.Finite := by
    refine (List.finite_toSet (predMap.entries.map Prod.fst)).subset fun b hb => ?_
    obtain ⟨a, hba⟩ := hb
    obtain ⟨entry, hentry, rfl⟩ := h.exists_entry ⟨a, Or.inr hba⟩
    exact List.mem_map_of_mem hentry
  have hall : ∀ a, (∃ b, before b a ∨ before a b) → 0 < number a := by
    intro a
    induction a using (hacyclic.wellFounded hfinite).induction with
    | _ a ih =>
      intro ha
      obtain ⟨entry, hentry, rfl⟩ := h.exists_entry ha
      refine Nat.pos_of_ne_zero fun hzero => hready entry hentry ⟨hzero, fun b hb => ?_⟩
      have hbefore := (h.entries entry hentry b).mp hb
      exact ih b hbefore ⟨entry.1, Or.inr hbefore⟩
  intro entry hentry
  refine hall entry.1 ((h.isSome_iff entry.1).mp ?_)
  rw [SortedMap.mem_entries_iff.mp hentry]
  rfl

/-- The loop over the map ends without its assertion failing, and then every object of the map
has its number. -/
theorem returns_sweepTurn (h : Collects predMap before) (hacyclic : Acyclic before)
    (hpoint : ∀ b a, before b a → point b) {s : (α → Nat) × Nat}
    (hs : Numbering point before s) :
    ∃ s', Returns (sweepTurn predMap) s (.ok (s', ())) ∧ Numbering point before s' ∧
      ∀ a, (∃ b, before b a ∨ before a b) → 0 < s'.1 a := by
  induction hn : unassigned predMap s.1 using Nat.strong_induction_on generalizing s with
  | _ n ih =>
    let p : Pass α := { number := s.1, magic := s.2, nochange := true, allassigned := true }
    have hsweep : sweep predMap s = visitAll predMap.entries p := rfl
    obtain ⟨hnumbering, hkept⟩ := numbering_visitAll (p := p) hpoint h.entries hs
    cases hnochange : (sweep predMap s).nochange with
    | false =>
        have hturn : sweepTurn predMap s =
            .again ((sweep predMap s).number, (sweep predMap s).magic) := by
          simp [sweepTurn, hnochange]
        have hnew := visitAll_of_change (p := p) hpoint h.entries hs rfl hnochange
        obtain ⟨s', hreturns, hs'⟩ := ih _ (hn ▸ unassigned_lt hkept hnew) hnumbering rfl
        exact ⟨s', Returns.again hturn hreturns, hs'⟩
    | true =>
        obtain ⟨hsame, hready⟩ := visitAll_of_nochange (p := p) hnochange
        have hassigned := h.assigned_of_not_ready hacyclic hready
        have hall : (sweep predMap s).allassigned = true := by
          rw [hsweep, hsame, Bool.true_and, List.all_eq_true]
          exact fun entry hentry => decide_eq_true (hassigned entry hentry)
        have hstate : ((sweep predMap s).number, (sweep predMap s).magic) = s := by
          rw [hsweep, hsame]
        have hturn : sweepTurn predMap s = .done s () := by
          simp only [sweepTurn, hnochange, hall, if_true, hstate]
        refine ⟨s, Returns.done hturn, hs, fun a ha => ?_⟩
        obtain ⟨entry, hentry, rfl⟩ := h.exists_entry ha
        exact hassigned entry hentry

end

/-! ## The points -/

/-- A single point keeps the numbering. -/
theorem numbering_numberPoint {point : α → Prop} {before : α → α → Prop}
    (hpoint : ∀ b a, before b a → point b) {s : (α → Nat) × Nat} (hs : Numbering point before s)
    (hassigned : ∀ a, (∃ b, before b a ∨ before a b) → 0 < s.1 a) (a : α) :
    Numbering point before (numberPoint s a) ∧
      (∀ x, 0 < s.1 x → (numberPoint s a).1 x = s.1 x) ∧ 0 < (numberPoint s a).1 a := by
  unfold numberPoint
  split
  next hzero =>
    refine ⟨hs.assign hpoint hzero fun b hb => ?_, fun x hx => ?_, ?_⟩
    · exact absurd hzero (hassigned a ⟨b, Or.inl hb⟩).ne'
    · have hne : x ≠ a := by
        rintro rfl
        exact absurd hzero hx.ne'
      exact Function.update_of_ne hne _ _
    · simpa using hs.magic_pos
  next hne => exact ⟨hs, fun _ _ => rfl, Nat.pos_of_ne_zero hne⟩

/-- The points that are in no inequality get their numbers last. -/
theorem numbering_numberPoints {point : α → Prop} {before : α → α → Prop}
    (hpoint : ∀ b a, before b a → point b) (l : List α) {s : (α → Nat) × Nat}
    (hs : Numbering point before s)
    (hassigned : ∀ a, (∃ b, before b a ∨ before a b) → 0 < s.1 a) :
    Numbering point before (l.foldl numberPoint s) ∧
      (∀ x, 0 < s.1 x → (l.foldl numberPoint s).1 x = s.1 x) ∧
      ∀ a ∈ l, 0 < (l.foldl numberPoint s).1 a := by
  induction l generalizing s with
  | nil => exact ⟨hs, fun _ _ => rfl, by simp⟩
  | cons a l ih =>
      obtain ⟨hnumbering, hkept, hpos⟩ := numbering_numberPoint hpoint hs hassigned a
      obtain ⟨hrest, hkeptRest, hposRest⟩ :=
        ih hnumbering fun x hx => hkept x (hassigned x hx) ▸ hassigned x hx
      rw [List.foldl_cons]
      refine ⟨hrest, fun x hx => ?_, List.forall_mem_cons.mpr ⟨?_, hposRest⟩⟩
      · rw [hkeptRest x (hkept x hx ▸ hx), hkept x hx]
      · rw [hkeptRest a hpos]
        exact hpos

/-- With acyclic inequalities over points that have no number, the points get distinct numbers
that increase along the inequalities. -/
theorem numberAll_of_acyclic (getMagicNumberable : ν → α) (sorter : MagicSorter ν α)
    {number : α → Nat}
    (hover : ∀ ineq ∈ sorter.inequalities, ineq.1 ∈ sorter.points.map getMagicNumberable ∧
      ineq.2 ∈ sorter.points.map getMagicNumberable)
    (hzero : ∀ a ∈ sorter.points.map getMagicNumberable, number a = 0)
    (hacyclic : Acyclic fun b a => (b, a) ∈ sorter.inequalities) :
    ∃ turns number', numberAll getMagicNumberable sorter number turns = some (.ok number') ∧
      (∀ a ∈ sorter.points.map getMagicNumberable, 0 < number' a) ∧
      (∀ a ∈ sorter.points.map getMagicNumberable,
        ∀ b ∈ sorter.points.map getMagicNumberable, number' a = number' b → a = b) ∧
      ∀ ineq ∈ sorter.inequalities, number' ineq.1 < number' ineq.2 := by
  let objects := sorter.points.map getMagicNumberable
  have hstart : Numbering (fun a => a ∈ objects) (fun b a => (b, a) ∈ sorter.inequalities)
      (number, 1) := by
    refine ⟨Nat.one_pos, fun a ha => ?_, fun a b ha _ hpos => ?_, fun b a hba hpos => ?_⟩
    · exact lt_of_eq_of_lt (hzero a ha) Nat.one_pos
    · exact absurd (hzero a ha) hpos.ne'
    · exact absurd (hzero a (hover _ hba).2) hpos.ne'
  have hpoint : ∀ b a, (b, a) ∈ sorter.inequalities → b ∈ objects :=
    fun b a hba => (hover _ hba).1
  obtain ⟨s, ⟨turns, hturns⟩, hs, hassigned⟩ :=
    returns_sweepTurn (collects_predMap sorter.inequalities) hacyclic hpoint hstart
  obtain ⟨hfinal, -, hpos⟩ := numbering_numberPoints hpoint objects hs hassigned
  refine ⟨turns, (objects.foldl numberPoint s).1, ?_, hpos, ?_, ?_⟩
  · unfold numberAll
    rw [hturns]
    rfl
  · exact fun a ha b hb => hfinal.distinct a b ha hb (hpos a ha)
  · exact fun ineq hineq => (hfinal.ordered _ _ hineq (hpos _ (hover _ hineq).2)).2

/-! ## Any sequence of calls -/

/-- A call that tells the sorter something. -/
inductive Call (ν : Type u) where
  | addInequality (before after : ν)
  | addPoint (pt : ν)
deriving DecidableEq

/-- The sorter after a call. -/
def perform (getMagicNumberable : ν → α) (sorter : MagicSorter ν α) : Call ν → MagicSorter ν α
  | .addInequality before after => sorter.addInequality getMagicNumberable before after
  | .addPoint pt => sorter.addPoint pt

/-- A new sorter after some calls. -/
def performAll (getMagicNumberable : ν → α) (calls : List (Call ν)) : MagicSorter ν α :=
  calls.foldl (perform getMagicNumberable) new

/-- The constraint that a call adds. -/
def Call.inequalityOf (getMagicNumberable : ν → α) : Call ν → Option (α × α)
  | .addInequality before after => some (getMagicNumberable before, getMagicNumberable after)
  | .addPoint _ => none

/-- The point that a call adds. -/
def Call.pointOf : Call ν → Option ν
  | .addInequality _ _ => none
  | .addPoint pt => some pt

section

variable (getMagicNumberable : ν → α) (calls : List (Call ν))

/-- The inequalities between the objects. -/
def Before (b a : α) : Prop :=
  ∃ before after, .addInequality before after ∈ calls ∧
    getMagicNumberable before = b ∧ getMagicNumberable after = a

/-- The objects of the points. -/
def Point (a : α) : Prop :=
  ∃ pt, .addPoint pt ∈ calls ∧ getMagicNumberable pt = a

omit [LinearOrder α] in
/-- The calls collect inequalities and points. -/
theorem foldl_perform (sorter : MagicSorter ν α) :
    calls.foldl (perform getMagicNumberable) sorter =
      { inequalities :=
          sorter.inequalities ++ calls.filterMap (Call.inequalityOf getMagicNumberable)
        points := sorter.points ++ calls.filterMap Call.pointOf } := by
  induction calls generalizing sorter with
  | nil => simp
  | cons call calls ih =>
      rw [List.foldl_cons, ih]
      cases call <;>
        simp [perform, addInequality, addPoint, Call.inequalityOf, Call.pointOf,
          List.filterMap_cons]

omit [LinearOrder α] in
/-- The inequalities are those of the calls. -/
theorem mem_inequalities_performAll (b a : α) :
    (b, a) ∈ (performAll getMagicNumberable calls).inequalities ↔
      Before getMagicNumberable calls b a := by
  rw [performAll, foldl_perform, new, List.nil_append, List.mem_filterMap]
  constructor
  · rintro ⟨call, hcall, heq⟩
    cases call with
    | addInequality before after =>
        cases heq
        exact ⟨before, after, hcall, rfl, rfl⟩
    | addPoint pt => cases heq
  · rintro ⟨before, after, hcall, rfl, rfl⟩
    exact ⟨_, hcall, rfl⟩

omit [LinearOrder α] in
/-- The points are those of the calls. -/
theorem mem_points_performAll (a : α) :
    a ∈ (performAll getMagicNumberable calls).points.map getMagicNumberable ↔
      Point getMagicNumberable calls a := by
  rw [performAll, foldl_perform, new, List.nil_append, List.mem_map]
  constructor
  · rintro ⟨pt, hpt, rfl⟩
    obtain ⟨call, hcall, heq⟩ := List.mem_filterMap.mp hpt
    cases call with
    | addInequality before after => cases heq
    | addPoint _ =>
        cases heq
        exact ⟨pt, hcall, rfl⟩
  · rintro ⟨pt, hcall, rfl⟩
    exact ⟨pt, List.mem_filterMap.mpr ⟨_, hcall, rfl⟩, rfl⟩

/-- Whatever is told to a new sorter in whatever order: if the inequalities are between the
points and have no cycle, and no point has a number, the loops end without the assertion failing;
the points have then distinct positive numbers that increase along the inequalities. -/
theorem numberAll_topological {number : α → Nat}
    (hover : ∀ b a, Before getMagicNumberable calls b a →
      Point getMagicNumberable calls b ∧ Point getMagicNumberable calls a)
    (hzero : ∀ a, Point getMagicNumberable calls a → number a = 0)
    (hacyclic : Acyclic (Before getMagicNumberable calls)) :
    ∃ turns number',
      numberAll getMagicNumberable (performAll getMagicNumberable calls) number turns =
        some (.ok number') ∧
      (∀ a, Point getMagicNumberable calls a → 0 < number' a) ∧
      (∀ a b, Point getMagicNumberable calls a → Point getMagicNumberable calls b →
        number' a = number' b → a = b) ∧
      ∀ b a, Before getMagicNumberable calls b a → number' b < number' a := by
  have hbefore : (fun b a => (b, a) ∈ (performAll getMagicNumberable calls).inequalities) =
      Before getMagicNumberable calls := by
    funext b a
    exact propext (mem_inequalities_performAll getMagicNumberable calls b a)
  have hmem := mem_points_performAll getMagicNumberable calls
  obtain ⟨turns, number', hreturns, hpos, hdistinct, hordered⟩ :=
    numberAll_of_acyclic getMagicNumberable (performAll getMagicNumberable calls)
      (fun ineq hineq => by
        rw [hmem, hmem]
        exact hover _ _ ((mem_inequalities_performAll getMagicNumberable calls _ _).mp hineq))
      (fun a ha => hzero a ((hmem a).mp ha)) (hbefore ▸ hacyclic)
  refine ⟨turns, number', hreturns, fun a ha => hpos a ((hmem a).mpr ha), ?_, ?_⟩
  · exact fun a b ha hb => hdistinct a ((hmem a).mpr ha) b ((hmem b).mpr hb)
  · exact fun b a hba =>
      hordered (b, a) ((mem_inequalities_performAll getMagicNumberable calls b a).mpr hba)

end

/-- The test with three constraints on four points. -/
def threeConstraints : List (Call Nat) :=
  [.addPoint 0, .addPoint 1, .addInequality 0 1, .addPoint 2, .addInequality 2 1, .addPoint 3,
    .addInequality 3 2]

theorem numberAll_topological_threeConstraints :
    ∃ turns number', numberAll id (performAll id threeConstraints) (fun _ => 0) turns =
        some (.ok number') ∧
      (∀ a, Point id threeConstraints a → 0 < number' a) ∧
      (∀ a b, Point id threeConstraints a → Point id threeConstraints b →
        number' a = number' b → a = b) ∧
      ∀ b a, Before id threeConstraints b a → number' b < number' a := by
  have hbefore : ∀ b a, Before id threeConstraints b a →
      (b, a) = (0, 1) ∨ (b, a) = (2, 1) ∨ (b, a) = (3, 2) := by
    rintro b a ⟨before, after, hcall, rfl, rfl⟩
    simpa [threeConstraints] using hcall
  have hpoint : ∀ x, .addPoint x ∈ threeConstraints → Point id threeConstraints x :=
    fun x hx => ⟨x, hx, rfl⟩
  refine numberAll_topological id threeConstraints ?_ (fun _ _ => rfl) ?_
  · intro b a hba
    rcases hbefore b a hba with h | h | h <;> cases h <;>
      exact ⟨hpoint _ (by decide), hpoint _ (by decide)⟩
  · refine acyclic_of_rank (· < ·) (fun _ => True) (fun x => [0, 2, 1, 0].getD x 0)
      (fun _ _ _ => trivial) fun b a hba _ => ?_
    rcases hbefore b a hba with h | h | h <;> cases h <;> decide

end MagicSorter
end Runtime
end OFlux
