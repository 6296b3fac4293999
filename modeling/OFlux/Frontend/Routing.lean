import Mathlib.Data.List.Find
import OFlux.Frontend.Successors
import OFlux.Reader.Programs

/-!
# Routing through abstract nodes

The source lets an event go from node to node: a choice leads to its first line whose
conditions hold, and a concurrent node to all of its branches.  What the compiler writes for
the concrete node in front of them has to select the same concrete nodes at run time.

Main results:

- Theorem {lit}`Silent.not_selects`: where no case is written, the source selects nothing.
- Theorem {lit}`genSucc'_spec`: what the generated cases select.
- Theorem {lit}`names_nameSuccessors`: the names of the successors differ.
- Theorem {lit}`routesAs_of_separated`: the runtime selects what the source says.
-/

namespace OFlux
namespace Frontend
namespace Successors

open Compiler (CaseElement SuccessorElement XMLConversion)
open ConditionArguments (CanonCondition conditionOn successorCase convertArgn targetDecls
  hashDeclFormalList)
open OFlux.Frontend.Flow (Node Cell BuiltFlow FlowMap Outcome deref holds)
open Library FirstMatch Fallible
open Reader (Valuation)

/-! ## Tests -/

/-- A test on the way to a node: the place of its item in a pattern, the output field that the
parameter there stands for, and whether it has to fail. -/
structure Test where
  column : Nat
  field : Nat
  name : String
  negated : Bool
deriving DecidableEq

/-- What the conditions say about output fields with the given numbers. -/
def outcome (v : Valuation) (unionhash : String) (fields : List Nat) : Outcome :=
  fun i s => v { name := s, argno := Nat.repr (fields.getD i 0), unionhash := unionhash }

/-- The output has what the tests ask for. -/
def Met (v : Valuation) (unionhash : String) (tests : List Test) : Prop :=
  ∀ t ∈ tests, v { name := t.name, argno := Nat.repr t.field, unionhash := unionhash } = !t.negated

/-- The tests of a line, or what they are if they have to fail. -/
def testsOf (fields : List Nat) (negated : Bool) (sol : List (Option String)) : List Test :=
  sol.zipIdx.filterMap fun p => p.1.map fun s =>
    { column := p.2, field := fields.getD p.2 0, name := s, negated := negated }

/-- A line with a test. -/
def HasTest (sol : List (Option String)) : Prop :=
  ∃ s, some s ∈ sol

/-- A line with at most one test. -/
def AtMostOneTest (sol : List (Option String)) : Prop :=
  (sol.filterMap id).length ≤ 1

section

variable {v : Valuation} {unionhash : String} {fields : List Nat} {negated : Bool}
  {sol : List (Option String)} {t : Test} {tests tests' : List Test}

@[simp]
theorem met_nil : Met v unionhash [] :=
  List.forall_mem_nil _

@[simp]
theorem met_append : Met v unionhash (tests ++ tests') ↔
    Met v unionhash tests ∧ Met v unionhash tests' :=
  List.forall_mem_append

/-- The tests of a line are its tested columns. -/
theorem mem_testsOf : t ∈ testsOf fields negated sol ↔
    sol[t.column]? = some (some t.name) ∧ t.field = fields.getD t.column 0 ∧
      t.negated = negated := by
  obtain ⟨column, field, name, neg⟩ := t
  simp only [testsOf, List.mem_filterMap, Option.map_eq_some_iff, Prod.exists,
    List.mk_mem_zipIdx_iff_getElem?, Test.mk.injEq]
  constructor
  · rintro ⟨so, i, hi, s, rfl, rfl, rfl, rfl, rfl⟩
    exact ⟨hi, rfl, rfl⟩
  · rintro ⟨hi, rfl, rfl⟩
    exact ⟨_, _, hi, _, rfl, rfl, rfl, rfl, rfl⟩

/-- A line without a test has none to pass or to fail. -/
theorem not_mem_testsOf (h : ¬ HasTest sol) : t ∉ testsOf fields negated sol := by
  intro ht
  exact h ⟨t.name, List.mem_of_getElem? (mem_testsOf.mp ht).1⟩

/-- A line is followed if its tests are met. -/
theorem met_testsOf_false :
    Met v unionhash (testsOf fields false sol) ↔ holds (outcome v unionhash fields) sol = true := by
  rw [holds, List.all_eq_true]
  constructor
  · rintro h ⟨so, i⟩ hi
    cases so with
    | none => rfl
    | some s =>
        rw [List.mk_mem_zipIdx_iff_getElem?] at hi
        exact h ⟨i, fields.getD i 0, s, false⟩ (mem_testsOf.mpr ⟨hi, rfl, rfl⟩)
  · intro h t ht
    obtain ⟨hi, hfield, hneg⟩ := mem_testsOf.mp ht
    rw [hfield, hneg]
    exact h (some t.name, t.column) (List.mk_mem_zipIdx_iff_getElem?.mpr hi)

/-- The tests against a line are the tests of the line, negated. -/
theorem testsOf_eq_map : testsOf fields negated sol =
    (testsOf fields false sol).map fun t => { t with negated := negated } := by
  rw [testsOf, testsOf, List.map_filterMap]
  refine List.filterMap_congr fun p _ => ?_
  rw [Option.map_map]
  rfl

/-- A line with one test is passed over if that test fails. -/
theorem met_testsOf_true (hone : AtMostOneTest sol) (h : HasTest sol) :
    Met v unionhash (testsOf fields true sol) ↔
      ¬ holds (outcome v unionhash fields) sol = true := by
  have hnames : (testsOf fields false sol).map Test.name = sol.filterMap id := by
    have hfst := congrArg (List.filterMap id) (List.zipIdx_map_fst 0 sol)
    rw [List.filterMap_map] at hfst
    rw [← hfst, testsOf, List.map_filterMap]
    refine List.filterMap_congr fun p _ => ?_
    rw [Option.map_map]
    exact congrFun Option.map_id p.1
  obtain ⟨t, ht⟩ : ∃ t, testsOf fields false sol = [t] := by
    rw [← List.length_eq_one_iff, ← List.length_map Test.name, hnames]
    obtain ⟨s, hs⟩ := h
    have hmem : s ∈ sol.filterMap id := List.mem_filterMap.mpr ⟨some s, hs, rfl⟩
    exact Nat.le_antisymm hone (List.length_pos_of_mem hmem)
  have hneg : t.negated = false := by
    have hmem : t ∈ testsOf fields false sol := by simp [ht]
    exact (mem_testsOf.mp hmem).2.2
  rw [← met_testsOf_false, testsOf_eq_map, ht]
  simp [Met, hneg]

end

/-! ## Conditions of cases -/

/-- A line as the condition that its tests are met, or that they fail. -/
def signedCase (negated : Bool) (sol : List (Option String)) : CanonCondition :=
  sol.map fun so => (so.map fun s => (s, negated)).toList

theorem canonCase_eq (sol : List (Option String)) : canonCase sol = signedCase false sol := by
  refine List.map_congr_left fun so _ => ?_
  cases so <;> rfl

/-- A line without a test has nothing to negate. -/
theorem negateCanonCondition_of_not_hasTest {sol : List (Option String)} (h : ¬ HasTest sol) :
    negateCanonCondition (canonCase sol) = [] := by
  induction sol with
  | nil => rfl
  | cons so sol ih =>
      cases so with
      | none =>
          have hsol : ¬ HasTest sol := fun ⟨s, hs⟩ => h ⟨s, List.mem_cons_of_mem _ hs⟩
          have hstep : negateCanonCondition (canonCase (none :: sol)) =
              (negateCanonCondition (canonCase sol)).map fun c => [] :: c :=
            rfl
          rw [hstep, ih hsol, List.map_nil]
      | some s => exact absurd ⟨s, List.mem_cons_self⟩ h

/-- Without a test the sign makes no difference. -/
theorem signedCase_of_not_hasTest {sol : List (Option String)} (h : ¬ HasTest sol)
    (negated negated' : Bool) : signedCase negated sol = signedCase negated' sol := by
  refine List.map_congr_left fun so hso => ?_
  cases so with
  | none => rfl
  | some s => exact absurd ⟨s, hso⟩ h

/-- The negation of a line with one test. -/
theorem negateCanonCondition_of_hasTest {sol : List (Option String)} (hone : AtMostOneTest sol)
    (h : HasTest sol) : negateCanonCondition (canonCase sol) = [signedCase true sol] := by
  induction sol with
  | nil =>
      obtain ⟨s, hs⟩ := h
      cases hs
  | cons so sol ih =>
      cases so with
      | none =>
          have hsol : HasTest sol := by
            obtain ⟨s, hs⟩ := h
            exact ⟨s, (List.mem_cons.mp hs).resolve_left (by simp)⟩
          have hstep : negateCanonCondition (canonCase (none :: sol)) =
              (negateCanonCondition (canonCase sol)).map fun c => [] :: c :=
            rfl
          rw [hstep, ih hone hsol]
          rfl
      | some s =>
          have hnone : ¬ HasTest sol := by
            rintro ⟨s', hs'⟩
            have hmem : s' ∈ sol.filterMap id := List.mem_filterMap.mpr ⟨_, hs', rfl⟩
            have hlen : (sol.filterMap id).length + 1 ≤ 1 := hone
            have hpos := List.length_pos_of_mem hmem
            omega
          have hstep : negateCanonCondition (canonCase (some s :: sol)) =
              [[(s, true)] :: canonCase sol] ++
                (negateCanonCondition (canonCase sol)).map fun c => [] :: c :=
            rfl
          rw [hstep, negateCanonCondition_of_not_hasTest hnone, canonCase_eq,
            signedCase_of_not_hasTest hnone false true]
          rfl

/-- The condition of a case asks for these tests, in so many columns. -/
structure Stands (tests : List Test) (width : Nat) (ccond : CanonCondition) : Prop where
  length_eq : ccond.length = width
  mem_iff : ∀ i q, q ∈ ccond.getD i [] ↔ ∃ t ∈ tests, t.column = i ∧ (t.name, t.negated) = q

section

variable {tests tests' : List Test} {width width' : Nat} {ccond c1 c2 : CanonCondition}

theorem Stands.congr (h : Stands tests width ccond) (htests : ∀ t, t ∈ tests ↔ t ∈ tests')
    (hwidth : width = width') : Stands tests' width' ccond where
  length_eq := h.length_eq.trans hwidth
  mem_iff i q := by simp only [h.mem_iff, htests]

theorem stands_nil : Stands [] 0 [] where
  length_eq := rfl
  mem_iff i q := by simp

/-- The unit condition stands for no test. -/
theorem stands_condunitOf (sol : List (Option String)) :
    Stands [] sol.length (condunitOf sol) where
  length_eq := List.length_map _
  mem_iff i q := by
    rw [condunitOf, List.getD_eq_getElem?_getD, List.getElem?_map]
    cases sol[i]? <;> simp

/-- The condition of a line stands for the tests of the line. -/
theorem stands_signedCase (fields : List Nat) (negated : Bool) (sol : List (Option String)) :
    Stands (testsOf fields negated sol) sol.length (signedCase negated sol) where
  length_eq := List.length_map _
  mem_iff i q := by
    obtain ⟨s, neg⟩ := q
    simp only [mem_testsOf, signedCase, List.getD_eq_getElem?_getD, List.getElem?_map]
    constructor
    · intro hq
      cases hso : sol[i]? with
      | none => simp [hso] at hq
      | some so =>
          cases so with
          | none => simp [hso] at hq
          | some s' =>
              obtain ⟨rfl, rfl⟩ : s = s' ∧ neg = negated := by simpa [hso] using hq
              exact ⟨⟨i, fields.getD i 0, s, neg⟩, ⟨hso, rfl, rfl⟩, rfl, rfl⟩
    · rintro ⟨t, ⟨hso, -, rfl⟩, rfl, heq⟩
      obtain ⟨rfl, rfl⟩ := Prod.mk.inj heq
      simp [hso]

/-- Dropping repetitions behind a first entry loses nothing. -/
theorem mem_uniqFrom {q h : String × Bool} {l : List (String × Bool)} :
    q ∈ uniqFrom h l ↔ q = h ∨ q ∈ l := by
  induction l generalizing h with
  | nil => simp [uniqFrom]
  | cons h2 t ih =>
      rw [uniqFrom]
      split
      next heq =>
        subst heq
        simp [ih]
      next => simp [ih]

/-- Dropping repetitions loses nothing. -/
theorem mem_uniqDiscard {q : String × Bool} {l : List (String × Bool)} :
    q ∈ uniqDiscard l ↔ q ∈ l := by
  have hperm : (l.insertionSort fun a b => toLex a ≤ toLex b).Perm l := List.perm_insertionSort _ _
  rw [← hperm.mem_iff, uniqDiscard]
  split
  next hnil => simp [hnil]
  next hcons => rw [mem_uniqFrom, hcons, List.mem_cons]

/-- A conjunction has the tests of both conditions. -/
theorem mem_andCanonCondition {i : Nat} {q : String × Bool} :
    q ∈ (andCanonCondition c1 c2).getD i [] ↔ q ∈ c1.getD i [] ∨ q ∈ c2.getD i [] := by
  induction c1 generalizing c2 i with
  | nil => simp [andCanonCondition]
  | cons h1 t1 ih =>
      cases c2 with
      | nil => simp [andCanonCondition]
      | cons h2 t2 =>
          have hzip : andCanonCondition (h1 :: t1) (h2 :: t2) =
              uniqDiscard (h1 ++ h2) :: andCanonCondition t1 t2 :=
            zipLongest_cons _ _ _ _ _
          rw [hzip]
          cases i with
          | zero =>
              simp only [List.getD_cons_zero]
              rw [mem_uniqDiscard, List.mem_append]
          | succ i =>
              simp only [List.getD_cons_succ]
              exact ih

/-- A conjunction stands for the tests of both. -/
theorem Stands.and (h1 : Stands tests width c1) (h2 : Stands tests' width' c2) :
    Stands (tests ++ tests') (max width width') (andCanonCondition c1 c2) where
  length_eq := by rw [andCanonCondition, length_zipLongest, h1.length_eq, h2.length_eq]
  mem_iff i q := by
    rw [mem_andCanonCondition, h1.mem_iff, h2.mem_iff]
    simp only [List.mem_append, or_and_right, exists_or]

/-- A column is impossible when it asks for a test and its negation. -/
theorem oneFalse_iff {l : List (String × Bool)} :
    oneFalse l = true ↔ ∃ s, (s, false) ∈ l ∧ (s, true) ∈ l := by
  induction l with
  | nil => simp [oneFalse]
  | cons q t ih =>
      obtain ⟨s, neg⟩ := q
      rw [oneFalse, Bool.or_eq_true, List.contains_iff_mem, ih]
      constructor
      · rintro (hmem | ⟨s', hs'⟩)
        · cases neg with
          | false => exact ⟨s, List.mem_cons_self, List.mem_cons_of_mem _ hmem⟩
          | true => exact ⟨s, List.mem_cons_of_mem _ hmem, List.mem_cons_self⟩
        · exact ⟨s', List.mem_cons_of_mem _ hs'.1, List.mem_cons_of_mem _ hs'.2⟩
      · rintro ⟨s', hfalse, htrue⟩
        rcases List.mem_cons.mp hfalse with heq | hmem
        · cases heq
          exact Or.inl ((List.mem_cons.mp htrue).resolve_left (by simp))
        · rcases List.mem_cons.mp htrue with heq | hmem'
          · cases heq
            exact Or.inl hmem
          · exact Or.inr ⟨s', hmem, hmem'⟩

/-- A condition contradicts itself if in one column a test is asked to hold and to fail. -/
theorem Stands.alwaysFalse_iff (h : Stands tests width ccond) :
    isConditionAlwaysFalse ccond = true ↔ ∃ t ∈ tests, ∃ t' ∈ tests, t.column = t'.column ∧
      t.name = t'.name ∧ t.negated = false ∧ t'.negated = true := by
  rw [isConditionAlwaysFalse, List.any_eq_true]
  simp only [oneFalse_iff]
  constructor
  · rintro ⟨l, hl, s, hfalse, htrue⟩
    obtain ⟨i, hi⟩ := List.getElem?_of_mem hl
    have hget : ccond.getD i [] = l := by rw [List.getD_eq_getElem?_getD, hi, Option.getD_some]
    rw [← hget, h.mem_iff] at hfalse htrue
    obtain ⟨t, ht, hcol, heq⟩ := hfalse
    obtain ⟨t', ht', hcol', heq'⟩ := htrue
    obtain ⟨hname, hneg⟩ := Prod.mk.inj heq
    obtain ⟨hname', hneg'⟩ := Prod.mk.inj heq'
    exact ⟨t, ht, t', ht', hcol.trans hcol'.symm, hname.trans hname'.symm, hneg, hneg'⟩
  · rintro ⟨t, ht, t', ht', hcol, hname, hneg, hneg'⟩
    have hfalse := (h.mem_iff t.column (t.name, false)).mpr ⟨t, ht, rfl, by rw [hneg]⟩
    have htrue := (h.mem_iff t.column (t.name, true)).mpr
      ⟨t', ht', hcol.symm, by rw [hname, hneg']⟩
    refine ⟨ccond.getD t.column [], ?_, t.name, hfalse, htrue⟩
    rw [List.getD_eq_getElem?_getD] at hfalse ⊢
    cases hget : ccond[t.column]? with
    | none =>
        rw [hget] at hfalse
        cases hfalse
    | some l => exact List.mem_of_getElem? hget

end

/-! ## Trees of nodes -/

/-- A line of a choice, with the flow it leads to. -/
abbrev Line := List (Option String) × Cell

/-- The name of a concrete node. -/
def concreteName : Node → Option String
  | .source n _ _ _ | .cNode n _ _ _ => some n
  | _ => none

/-- The cell stands for a tree of choices and concurrent nodes over concrete nodes. -/
inductive Tree (fmap : FlowMap) (Leaf : String → Prop) (Choice : String → List Line → Prop) :
    Cell → Prop
  | concrete {cell : Cell} {n : String} (hcell : concreteName (deref fmap cell) = some n)
      (hleaf : Leaf n) : Tree fmap Leaf Choice cell
  | choice {cell : Cell} {name : String} {lines : List Line}
      (hcell : deref fmap cell = .chExpr name lines) (hchoice : Choice name lines)
      (hlines : ∀ line ∈ lines, Tree fmap Leaf Choice line.2) : Tree fmap Leaf Choice cell
  | concurrent {cell : Cell} {name : String} {succs : List Cell}
      (hcell : deref fmap cell = .conExpr name succs)
      (hsuccs : ∀ succ ∈ succs, Tree fmap Leaf Choice succ) : Tree fmap Leaf Choice cell

section

variable {fmap : FlowMap} {Leaf : String → Prop} {Choice : String → List Line → Prop} {cell : Cell}

/-- A concrete node at the root is a leaf. -/
theorem Tree.leaf {n : String} (h : Tree fmap Leaf Choice cell)
    (hcell : concreteName (deref fmap cell) = some n) : Leaf n := by
  cases h with
  | concrete hcell' hleaf => exact Option.some.inj (hcell'.symm.trans hcell) ▸ hleaf
  | choice hcell' => cases hcell' ▸ hcell
  | concurrent hcell' => cases hcell' ▸ hcell

/-- A choice at the root has trees behind its lines. -/
theorem Tree.lines {name : String} {lines : List Line} (h : Tree fmap Leaf Choice cell)
    (hcell : deref fmap cell = .chExpr name lines) :
    Choice name lines ∧ ∀ line ∈ lines, Tree fmap Leaf Choice line.2 := by
  cases h with
  | concrete hcell' => cases hcell ▸ hcell'
  | choice hcell' hchoice hlines =>
      cases hcell.symm.trans hcell'
      exact ⟨hchoice, hlines⟩
  | concurrent hcell' => cases hcell.symm.trans hcell'

/-- A concurrent node at the root has trees behind its branches. -/
theorem Tree.branches {name : String} {succs : List Cell} (h : Tree fmap Leaf Choice cell)
    (hcell : deref fmap cell = .conExpr name succs) :
    ∀ succ ∈ succs, Tree fmap Leaf Choice succ := by
  cases h with
  | concrete hcell' => cases hcell ▸ hcell'
  | choice hcell' => cases hcell.symm.trans hcell'
  | concurrent hcell' hsuccs =>
      cases hcell.symm.trans hcell'
      exact hsuccs

end

/-- The source leads from a cell to a concrete node: of a choice by the first line whose
conditions hold, of a concurrent node by any branch.  A node where flows terminate does not run. -/
inductive Selects (br : BuiltFlow) (σ : String → Outcome) : Cell → String → Prop
  | concrete {cell : Cell} {n : String} (hcell : concreteName (deref br.fmap cell) = some n)
      (hn : n ∉ br.terminates) : Selects br σ cell n
  | choice {cell : Cell} {name t : String} {lines : List Line} {line : Line}
      (hcell : deref br.fmap cell = .chExpr name lines)
      (hline : (lines.find? fun line => holds (σ name) line.1) = some line)
      (h : Selects br σ line.2 t) : Selects br σ cell t
  | concurrent {cell succ : Cell} {name t : String} {succs : List Cell}
      (hcell : deref br.fmap cell = .conExpr name succs) (hsucc : succ ∈ succs)
      (h : Selects br σ succ t) : Selects br σ cell t

section

variable {br : BuiltFlow} {τ : String → Outcome} {cell : Cell} {name t : String}

/-- A concrete node selects itself, unless it ends the flow. -/
theorem selects_concrete_iff {n : String} (hcell : concreteName (deref br.fmap cell) = some n) :
    Selects br τ cell t ↔ n ∉ br.terminates ∧ t = n := by
  constructor
  · intro h
    cases h with
    | concrete hcell' hn =>
        cases hcell.symm.trans hcell'
        exact ⟨hn, rfl⟩
    | choice hcell' => cases hcell' ▸ hcell
    | concurrent hcell' => cases hcell' ▸ hcell
  · rintro ⟨hn, rfl⟩
    exact .concrete hcell hn

/-- A choice selects what is behind its first line that holds. -/
theorem selects_choice_iff {lines : List Line} (hcell : deref br.fmap cell = .chExpr name lines) :
    Selects br τ cell t ↔
      ∃ line, (lines.find? fun line => holds (τ name) line.1) = some line ∧
        Selects br τ line.2 t := by
  constructor
  · intro h
    cases h with
    | concrete hcell' => cases hcell ▸ hcell'
    | choice hcell' hline h =>
        cases hcell.symm.trans hcell'
        exact ⟨_, hline, h⟩
    | concurrent hcell' => cases hcell.symm.trans hcell'
  · rintro ⟨line, hline, h⟩
    exact .choice hcell hline h

/-- A concurrent node selects what any branch selects. -/
theorem selects_concurrent_iff {succs : List Cell}
    (hcell : deref br.fmap cell = .conExpr name succs) :
    Selects br τ cell t ↔ ∃ succ ∈ succs, Selects br τ succ t := by
  constructor
  · intro h
    cases h with
    | concrete hcell' => cases hcell ▸ hcell'
    | choice hcell' => cases hcell.symm.trans hcell'
    | concurrent hcell' hsucc h =>
        cases hcell.symm.trans hcell'
        exact ⟨_, hsucc, h⟩
  · rintro ⟨succ, hsucc, h⟩
    exact .concurrent hcell hsucc h

end

/-! ## Generated cases -/

/-- The runtime takes a case. -/
def satisfied (v : Valuation) (c : CaseElement) : Bool :=
  (Reader.caseObject c).satisfied v

/-- The lists of cases select some nodes if a condition holds, and nothing otherwise. -/
structure Resolves (v : Valuation) (H : Prop) (targets : String → Prop) (ss : CaseLists) :
    Prop where
  idle : ¬ H → Idle (satisfied v) ss
  taken : H → ∀ t, (∃ c, Taken (satisfied v) ss c ∧ c.nodetarget = t) ↔ targets t

section

variable {digest : List StrippedDf → String} {br : BuiltFlow} {nOutDfl : List DeclFormal}
variable {number : String → List Nat} {v : Valuation} {unionhash : String} {tests : List Test}
variable {width : Nat} {ccond : CanonCondition}

/-- A node has a declaration and is concrete, unless flows terminate there. -/
def Declared (br : BuiltFlow) (n : String) : Prop :=
  ∃ nd, br.symtable.lookupNodeSymbol n = .ok nd ∧ (n ∈ br.terminates ∨ nd.nodeabstract = false)

/-- The lines of a choice, whose parameters stand for the output fields with the given numbers:
a line has no pattern or an item for each parameter, and at most one test. -/
structure Written (number : String → List Nat) (name : String) (lines : List Line) : Prop where
  ne_nil : lines ≠ []
  length_eq : ∀ line ∈ lines, line.1 = [] ∨ line.1.length = (number name).length
  oneTest : ∀ line ∈ lines, AtMostOneTest line.1

/-- The same field is asked to pass a test and to fail it, in one column. -/
def Contradictory (tests : List Test) : Prop :=
  ∃ t ∈ tests, { t with negated := !t.negated } ∈ tests

/-- Each of the tests on the way to a node is written with the number of its field.  No case is
written for a node where flows terminate, nor under tests that contradict each other. -/
def Numbered (digest : List StrippedDf → String) (br : BuiltFlow) (nOutDfl : List DeclFormal)
    (tests : List Test) (width : Nat) (n : String) : Prop :=
  n ∈ br.terminates ∨ Contradictory tests ∨
    ∀ nd, br.symtable.lookupNodeSymbol n = .ok nd → ∀ t ∈ tests,
      convertArgn (targetDecls digest nd.nodeinputs nOutDfl width)
        (hashDeclFormalList digest nOutDfl, nOutDfl) (t.column + 1) = .ok t.field

/-- The tests under which a line of a choice is followed: its own hold, and those of the lines in
front of it fail. -/
def lineTests (fields : List Nat) (front : List Line) (line : Line) : List Test :=
  testsOf fields false line.1 ++ front.flatMap fun l => testsOf fields true l.1

/-- The length of the longest pattern. -/
def widthOf (lines : List Line) : Nat :=
  lines.foldr (fun line width => max line.1.length width) 0

/-- No case is written below a cell: at each concrete node that it leads to flows terminate, or the
tests on the way there contradict each other. -/
inductive Silent (br : BuiltFlow) (number : String → List Nat) : List Test → Cell → Prop
  | concrete {tests : List Test} {cell : Cell} {n : String}
      (hcell : concreteName (deref br.fmap cell) = some n)
      (hleaf : n ∈ br.terminates ∨ Contradictory tests) : Silent br number tests cell
  | choice {tests : List Test} {cell : Cell} {name : String} {lines : List Line}
      (hcell : deref br.fmap cell = .chExpr name lines)
      (hlines : ∀ i line, lines[i]? = some line → Silent br number
        (tests ++ lineTests (number name) (lines.take i) line) line.2) : Silent br number tests cell
  | concurrent {tests : List Test} {cell : Cell} {name : String} {succs : List Cell}
      (hcell : deref br.fmap cell = .conExpr name succs)
      (hsuccs : ∀ succ ∈ succs, Silent br number tests succ) : Silent br number tests cell

/-- In each choice of a tree the lines in front of one for which a case is written have a test, and
in the case of each concrete node the tests on the way to it have the numbers of their fields.  The
case has as many columns as the longest pattern among the lines on the way and those in front of
them. -/
inductive Separated (digest : List StrippedDf → String) (br : BuiltFlow)
    (nOutDfl : List DeclFormal) (number : String → List Nat) : List Test → Nat → Cell → Prop
  | silent {tests : List Test} {width : Nat} {cell : Cell} (hsilent : Silent br number tests cell) :
      Separated digest br nOutDfl number tests width cell
  | concrete {tests : List Test} {width : Nat} {cell : Cell} {n : String}
      (hcell : concreteName (deref br.fmap cell) = some n)
      (hleaf : Numbered digest br nOutDfl tests width n) :
      Separated digest br nOutDfl number tests width cell
  | choice {tests : List Test} {width : Nat} {cell : Cell} {name : String} {lines : List Line}
      (hcell : deref br.fmap cell = .chExpr name lines)
      (htests : ∀ i line, lines[i]? = some line → (∀ front ∈ lines.take i, HasTest front.1) ∨
        Silent br number (tests ++ lineTests (number name) (lines.take i) line) line.2)
      (hlines : ∀ i line, lines[i]? = some line → Separated digest br nOutDfl number
        (tests ++ lineTests (number name) (lines.take i) line)
        (max width (widthOf (lines.take (i + 1)))) line.2) :
      Separated digest br nOutDfl number tests width cell
  | concurrent {tests : List Test} {width : Nat} {cell : Cell} {name : String} {succs : List Cell}
      (hcell : deref br.fmap cell = .conExpr name succs)
      (hsuccs : ∀ succ ∈ succs, Separated digest br nOutDfl number tests width succ) :
      Separated digest br nOutDfl number tests width cell

/-- No output meets contradictory tests. -/
theorem Contradictory.not_met (h : Contradictory tests) : ¬ Met v unionhash tests := by
  obtain ⟨t, ht, ht'⟩ := h
  intro hmet
  have hpass := hmet t ht
  have hfail := hmet _ ht'
  rw [hpass] at hfail
  simp at hfail

/-- Contradictory tests make the condition always false. -/
theorem Contradictory.alwaysFalse (h : Contradictory tests) (hstands : Stands tests width ccond) :
    isConditionAlwaysFalse ccond = true := by
  obtain ⟨t, ht, ht'⟩ := h
  rw [hstands.alwaysFalse_iff]
  cases hneg : t.negated with
  | false => exact ⟨t, ht, _, ht', rfl, rfl, hneg, by simp [hneg]⟩
  | true => exact ⟨_, ht', t, ht, rfl, rfl, by simp [hneg], hneg⟩

/-- A written condition holds as its test does. -/
theorem satisfied_conditionOn {a : Nat} {q : String × Bool} :
    (Reader.conditionObject (conditionOn unionhash a q)).satisfied v = true ↔
      v { name := q.1, argno := Nat.repr a, unionhash := unionhash } = !q.2 := by
  obtain ⟨s, neg⟩ := q
  unfold Reader.Condition.satisfied
  cases neg with
  | false => simp [Reader.conditionObject, conditionOn, Reader.boolVal]
  | true => simp [Reader.conditionObject, conditionOn, Reader.boolVal]

/-- A declared node is found. -/
theorem lookupNode_eq_ok {n : String} {nd : NodeData}
    (h : br.symtable.lookupNodeSymbol n = .ok nd) : lookupNode br n = .ok nd := by
  rw [lookupNode, h]

/-- The case of a node is taken if the tests are met, when they have the numbers of their fields. -/
theorem exists_successorCase {n : String} {inputs : List DeclFormal}
    (hstands : Stands tests width ccond)
    (hnumbers : ∀ t ∈ tests, convertArgn (targetDecls digest inputs nOutDfl width)
      (hashDeclFormalList digest nOutDfl, nOutDfl) (t.column + 1) = .ok t.field) :
    ∃ e, successorCase digest n inputs nOutDfl ccond = .ok e ∧ e.nodetarget = n ∧
      ∀ v, satisfied v e = true ↔ Met v (hashDeclFormalList digest nOutDfl) tests := by
  -- the number that the tests of a column have in common
  let numbers : Nat → Nat := fun i =>
    (convertArgn (targetDecls digest inputs nOutDfl width)
      (hashDeclFormalList digest nOutDfl, nOutDfl) (i + 1)).toOption.getD 0
  have hfield : ∀ t ∈ tests, numbers t.column = t.field := by
    intro t ht
    simp only [numbers, hnumbers t ht]
    rfl
  have htested : ∀ i, ∀ q ∈ ccond.getD i [],
      convertArgn (targetDecls digest inputs nOutDfl ccond.length)
        (hashDeclFormalList digest nOutDfl, nOutDfl) (1 + i) = .ok (numbers i) := by
    intro i q hq
    obtain ⟨t, ht, rfl, -⟩ := (hstands.mem_iff i q).mp hq
    rw [hstands.length_eq, Nat.add_comm, hnumbers t ht, hfield t ht]
  obtain ⟨conditions, hconditions, hmem⟩ := ConditionArguments.exists_genCond' htested
  refine ⟨{ nodetarget := n, conditions := conditions.reverse },
    ConditionArguments.successorCase_eq_ok.mpr hconditions, rfl, fun v => ?_⟩
  have hall : satisfied v { nodetarget := n, conditions := conditions.reverse } = true ↔
      ∀ e ∈ conditions, (Reader.conditionObject e).satisfied v = true := by
    simp [satisfied, Reader.Case.satisfied, Reader.caseObject]
  rw [hall]
  constructor
  · intro h t ht
    have hq := (hstands.mem_iff t.column _).mpr ⟨t, ht, rfl, rfl⟩
    have hsat := h _ ((hmem _).mpr ⟨_, _, hq, rfl⟩)
    rwa [satisfied_conditionOn, hfield t ht] at hsat
  · intro h e he
    obtain ⟨i, q, hq, rfl⟩ := (hmem e).mp he
    obtain ⟨t, ht, rfl, rfl⟩ := (hstands.mem_iff i q).mp hq
    rw [satisfied_conditionOn, hfield t ht]
    exact h t ht

/-- Parameters that give the case of the node are looked up. -/
theorem exists_targetInputs {n : String} {nd : NodeData}
    (hnd : br.symtable.lookupNodeSymbol n = .ok nd) (ccond : CanonCondition) :
    ∃ inputs, targetInputs br nOutDfl n ccond.length = .ok inputs ∧
      successorCase digest n inputs nOutDfl ccond =
        successorCase digest n nd.nodeinputs nOutDfl ccond := by
  by_cases hlength : ccond.length = nOutDfl.length
  · refine ⟨nOutDfl, if_pos hlength, ?_⟩
    rw [successorCase, successorCase, targetDecls, targetDecls, if_pos hlength, if_pos hlength]
  · refine ⟨nd.nodeinputs, ?_, rfl⟩
    rw [targetInputs, if_neg hlength, lookupNode_eq_ok hnd]
    rfl

/-- The case for a concrete node, unless its condition is impossible. -/
theorem emitCase_of_concrete {n : String} {inputs : List DeclFormal} {nd : NodeData}
    (hnd : br.symtable.lookupNodeSymbol n = .ok nd) (hconcrete : nd.nodeabstract = false) :
    emitCase digest br nOutDfl n inputs ccond =
      if isConditionAlwaysFalse ccond then .ok []
      else (successorCase digest n inputs nOutDfl ccond).map fun e => [[e]] := by
  have habstract : isAbstract br n = .ok false := by
    rw [isAbstract, lookupNode_eq_ok hnd, ← hconcrete]
    rfl
  rw [emitCase, habstract]
  cases isConditionAlwaysFalse ccond <;> rfl

/-- The cases of a concrete node. -/
theorem sfun_spec {n : String} (hdecl : Declared br n)
    (hnumbered : Numbered digest br nOutDfl tests width n) (hstands : Stands tests width ccond) :
    ∃ ss, sfun false digest br nOutDfl n ccond = .ok ss ∧
      ∀ v, Resolves v (Met v (hashDeclFormalList digest nOutDfl) tests)
        (fun t => n ∉ br.terminates ∧ t = n) ss := by
  obtain ⟨nd, hnd, habstract⟩ := hdecl
  obtain ⟨inputs, hinputs, hcase⟩ := exists_targetInputs hnd ccond
  have hsfun : sfun false digest br nOutDfl n ccond =
      if n ∈ br.terminates then .ok [] else emitCase digest br nOutDfl n inputs ccond := by
    rw [sfun, hinputs]
    by_cases hterminates : n ∈ br.terminates
    · simp [isTerminal, hterminates, bind, Except.bind, pure, Except.pure]
    · simp [isTerminal, hterminates, bind, Except.bind]
  by_cases hterminates : n ∈ br.terminates
  · refine ⟨[], hsfun.trans (if_pos hterminates), fun v => ⟨fun _ => idle_nil, fun _ t => ?_⟩⟩
    refine iff_of_false ?_ fun h => h.1 hterminates
    rintro ⟨c, hc, -⟩
    exact not_taken_nil hc
  · rw [if_neg hterminates, emitCase_of_concrete hnd (habstract.resolve_left hterminates)] at hsfun
    rcases hnumbered.resolve_left hterminates with hcontradictory | hnumbers
    · rw [if_pos (hcontradictory.alwaysFalse hstands)] at hsfun
      exact ⟨[], hsfun, fun v => ⟨fun _ => idle_nil, fun hmet => absurd hmet
        hcontradictory.not_met⟩⟩
    · obtain ⟨e, he, htarget, hsat⟩ := exists_successorCase (n := n) hstands (hnumbers nd hnd)
      rw [hcase, he] at hsfun
      by_cases hfalse : isConditionAlwaysFalse ccond = true
      · rw [if_pos hfalse] at hsfun
        refine ⟨[], hsfun, fun v => ⟨fun _ => idle_nil, fun hmet => ?_⟩⟩
        -- tests of one column are about one field
        obtain ⟨t, ht, t', ht', hcolumn, hname, hneg, hneg'⟩ := hstands.alwaysFalse_iff.mp hfalse
        have hfield : t.field = t'.field := by
          have hnumber := hnumbers nd hnd t ht
          rw [hcolumn, hnumbers nd hnd t' ht'] at hnumber
          exact (Except.ok.inj hnumber).symm
        have hholds := hmet t ht
        rw [hname, hfield, hmet t' ht', hneg, hneg'] at hholds
        cases hholds
      · rw [if_neg hfalse] at hsfun
        refine ⟨[[e]], hsfun, fun v => ⟨fun hmet => ?_, fun hmet t => ?_⟩⟩
        · rw [idle_cons, List.find?_cons_of_neg]
          · exact ⟨rfl, idle_nil⟩
          · rwa [hsat]
        · simp only [taken_cons, List.find?_cons_of_pos ((hsat v).mpr hmet), Option.some.injEq,
            not_taken_nil, or_false, exists_eq_left', htarget, hterminates, not_false_eq_true,
            true_and]
          exact eq_comm

/-! ## Lines of a choice -/

theorem widthOf_append (lines lines' : List Line) :
    widthOf (lines ++ lines') = max (widthOf lines) (widthOf lines') := by
  induction lines with
  | nil => simp [widthOf]
  | cons line lines ih =>
      rw [List.cons_append, widthOf, List.foldr_cons, ← widthOf, ih, ← max_assoc]
      rfl

/-- A line with one test is negated by negating the test. -/
theorem negatedLine_of_hasTest (choiceName : String) {condunit : CanonCondition}
    {sol : List (Option String)} (hone : AtMostOneTest sol) (h : HasTest sol) :
    negatedLine choiceName condunit (canonCase sol) = .ok (signedCase true sol) := by
  rw [negatedLine, negateCanonCondition_of_hasTest hone h]

/-- The negation of a line stands for its test, negated, and for none where it has no test. -/
theorem exists_negatedLine (choiceName : String) (fields : List Nat) {condunit : CanonCondition}
    {unit : Nat} {sol : List (Option String)} (hunit : Stands [] unit condunit)
    (hone : AtMostOneTest sol) :
    ∃ negated width, negatedLine choiceName condunit (canonCase sol) = .ok negated ∧
      Stands (testsOf fields true sol) width negated := by
  by_cases h : HasTest sol
  · exact ⟨_, _, negatedLine_of_hasTest choiceName hone h, stands_signedCase fields true sol⟩
  · refine ⟨condunit, unit, ?_, hunit.congr (fun t => ?_) rfl⟩
    · rw [negatedLine, negateCanonCondition_of_not_hasTest h]
    · simp [not_mem_testsOf h]

/-- A line adds its part, and its negation to those of the lines in front. -/
theorem onfold_eq_ok {gen : CanonCondition → Cell → Except XMLConversion CaseLists}
    {choiceName : String} {condunit condneg negated : CanonCondition} {line : Line}
    {part : CaseLists} (sofar : List CaseLists)
    (hnegated : negatedLine choiceName condunit (canonCase line.1) = .ok negated)
    (hpart : gen ([ccond, canonCase line.1, condneg].foldl andCanonCondition condunit) line.2 =
      .ok part) :
    onfold gen choiceName condunit ccond (condneg, sofar) line =
      .ok (andCanonCondition condneg negated, part :: sofar) := by
  rw [onfold, hnegated]
  exact bind_eq_ok.mpr ⟨negated, rfl, bind_eq_ok.mpr ⟨part, hpart, rfl⟩⟩

/-- Parts of a choice, of which at most one selects anything, and the nodes that they select. -/
structure Parts (v : Valuation) (H : Prop) (targets : String → Prop) (parts : List CaseLists) :
    Prop where
  idle : ¬ H → ∀ part ∈ parts, Idle (satisfied v) part
  one : H → parts.Pairwise fun part part' => Idle (satisfied v) part ∨ Idle (satisfied v) part'
  taken : H → ∀ t, (∃ part ∈ parts, ∃ c, Taken (satisfied v) part c ∧ c.nodetarget = t) ↔ targets t

/-- One more line in front: it is followed if its conditions hold, and the lines behind it are
generated for the case that they do not. -/
theorem Parts.cons {v : Valuation} {H L : Prop} {targets rest : String → Prop} {part : CaseLists}
    {parts : List CaseLists} (hpart : Resolves v (H ∧ L) targets part)
    (hparts : Parts v (H ∧ ¬ L) rest parts) :
    Parts v H (fun t => L ∧ targets t ∨ ¬ L ∧ rest t) (part :: parts) := by
  have hidle := hparts.idle
  constructor
  · intro hH
    exact List.forall_mem_cons.mpr ⟨hpart.idle fun h => hH h.1, hidle fun h => hH h.1⟩
  · intro hH
    by_cases hL : L
    · have hrest := hidle fun h => h.2 hL
      refine List.pairwise_cons.mpr ⟨fun part' h => Or.inr (hrest part' h), ?_⟩
      exact List.pairwise_of_forall_mem_list fun part' h _ _ => Or.inl (hrest part' h)
    · exact List.pairwise_cons.mpr
        ⟨fun _ _ => Or.inl (hpart.idle fun h => hL h.2), hparts.one ⟨hH, hL⟩⟩
  · intro hH t
    simp only [List.mem_cons, exists_eq_or_imp]
    by_cases hL : L
    · have hnone : ¬ ∃ part ∈ parts, ∃ c, Taken (satisfied v) part c ∧ c.nodetarget = t := by
        rintro ⟨part', hmem, c, hc, -⟩
        exact (hidle (fun h => h.2 hL) part' hmem).not_taken hc
      rw [hpart.taken ⟨hH, hL⟩, or_iff_left hnone]
      simp [hL]
    · have hnone : ¬ ∃ c, Taken (satisfied v) part c ∧ c.nodetarget = t := by
        rintro ⟨c, hc, -⟩
        exact (hpart.idle fun h => hL h.2).not_taken hc
      rw [or_iff_right hnone, hparts.taken ⟨hH, hL⟩]
      simp [hL]

/-- What is behind the first line that holds leads to a node. -/
def FirstLeads (τ : Outcome) (targets : Cell → String → Prop) (lines : List Line) (t : String) :
    Prop :=
  ∃ line, (lines.find? fun line => holds τ line.1) = some line ∧ targets line.2 t

/-- The first line that holds is the head or the first of the others. -/
theorem firstLeads_cons {τ : Outcome} {targets : Cell → String → Prop} {lines : List Line}
    {line : Line} : FirstLeads τ targets (line :: lines) = fun t =>
      holds τ line.1 = true ∧ targets line.2 t ∨
        ¬ holds τ line.1 = true ∧ FirstLeads τ targets lines t := by
  funext t
  cases hline : holds τ line.1 with
  | true => simp [FirstLeads, hline]
  | false => simp [FirstLeads, hline]

/-- The condition of a line: the tests on the way to the choice, its own ones, and those of the lines
in front of it, negated. -/
theorem stands_line {fields : List Nat} {front : List Line} {line : Line}
    {condunit condneg : CanonCondition} {unit width' : Nat} (hunit : Stands [] unit condunit)
    (hstands : Stands tests width ccond)
    (hneg : Stands (front.flatMap fun l => testsOf fields true l.1) width' condneg) :
    Stands (tests ++ lineTests fields front line) (max (max (max unit width) line.1.length) width')
      ([ccond, canonCase line.1, condneg].foldl andCanonCondition condunit) := by
  have hline := stands_signedCase fields false line.1
  rw [← canonCase_eq] at hline
  exact (((hunit.and hstands).and hline).and hneg).congr (fun t => by simp [lineTests]) rfl

/-- The condition of a line has as many columns as the longest pattern up to it. -/
theorem max_widthOf_line {front : List Line} {line : Line} {unit width : Nat}
    (hle : unit ≤ widthOf (front ++ [line])) :
    max (max (max unit width) line.1.length) (max unit (widthOf front)) =
      max width (widthOf (front ++ [line])) := by
  have hwidth : widthOf [line] = line.1.length := Nat.max_zero _
  rw [widthOf_append, hwidth] at hle ⊢
  omega

/-- The negated tests of the lines in front, with one more line. -/
theorem stands_front {fields : List Nat} {front : List Line} {condneg : CanonCondition}
    {unit : Nat} (hneg : Stands (front.flatMap fun l => testsOf fields true l.1)
      (max unit (widthOf front)) condneg) (line : Line) :
    Stands ((front ++ [line]).flatMap fun l => testsOf fields true l.1)
      (max unit (widthOf (front ++ [line])))
      (andCanonCondition condneg (signedCase true line.1)) := by
  refine (hneg.and (stands_signedCase fields true line.1)).congr (fun t => by simp) ?_
  have hwidth : widthOf [line] = line.1.length := Nat.max_zero _
  rw [widthOf_append, hwidth, max_assoc]

/-- For a cell only cases are generated that are never taken. -/
def Quiet (gen : CanonCondition → Cell → Except XMLConversion CaseLists) (tests : List Test)
    (cell : Cell) : Prop :=
  ∀ width ccond, Stands tests width ccond →
    ∃ ss, gen ccond cell = .ok ss ∧ ∀ v, Idle (satisfied v) ss

/-- Lines of a choice for which no case is written.  Whether the lines in front of them have tests
does not matter. -/
theorem onfold_quiet {gen : CanonCondition → Cell → Except XMLConversion CaseLists}
    (choiceName : String) {fields : List Nat} {condunit : CanonCondition} {unit : Nat}
    (hunit : Stands [] unit condunit) (hstands : Stands tests width ccond) (front : List Line)
    {lines : List Line}
    (hlines : ∀ i line, lines[i]? = some line → AtMostOneTest line.1 ∧
      Quiet gen (tests ++ lineTests fields (front ++ lines.take i) line) line.2)
    {condneg : CanonCondition} {width' : Nat}
    (hneg : Stands (front.flatMap fun l => testsOf fields true l.1) width' condneg)
    (sofar : List CaseLists) :
    ∃ condneg', ∃ parts : List CaseLists,
      lines.foldlM (onfold gen choiceName condunit ccond) (condneg, sofar) =
          .ok (condneg', parts.reverse ++ sofar) ∧
        ∀ v, ∀ part ∈ parts, Idle (satisfied v) part := by
  induction lines generalizing front condneg width' sofar with
  | nil => exact ⟨condneg, [], rfl, fun _ => List.forall_mem_nil _⟩
  | cons line lines ih =>
      obtain ⟨hone, hquiet⟩ := hlines 0 line rfl
      simp only [List.take_zero, List.append_nil] at hquiet
      obtain ⟨part, hpart, hidle⟩ := hquiet _ _ (stands_line hunit hstands hneg)
      obtain ⟨negated, _, hnegated, hline⟩ := exists_negatedLine choiceName fields hunit hone
      obtain ⟨condneg', parts, hfold, hparts⟩ := ih (front ++ [line])
        (fun i l hl => by simpa using hlines (i + 1) l hl)
        ((hneg.and hline).congr (fun t => by simp) rfl) (part :: sofar)
      refine ⟨condneg', part :: parts, foldlM_cons_eq_ok.mpr
        ⟨_, onfold_eq_ok sofar hnegated hpart, ?_⟩, fun v => ?_⟩
      · rw [hfold, List.reverse_cons, List.append_assoc]
        rfl
      · exact List.forall_mem_cons.mpr ⟨hidle v, hparts v⟩

/-- The lines of a choice, where the negations of the lines in front of them are accumulated. -/
theorem onfold_spec {gen : CanonCondition → Cell → Except XMLConversion CaseLists}
    (choiceName : String) {fields : List Nat} {condunit : CanonCondition} {unit : Nat}
    {targets : Valuation → Cell → String → Prop} (hunit : Stands [] unit condunit)
    (hstands : Stands tests width ccond) (front : List Line) {lines : List Line}
    (hle : unit ≤ widthOf (front ++ lines.take 1))
    (hlines : ∀ i line, lines[i]? = some line → AtMostOneTest line.1 ∧
      ((∀ l ∈ lines.take i, HasTest l.1) ∨
        Quiet gen (tests ++ lineTests fields (front ++ lines.take i) line) line.2) ∧
      ∀ ccond, Stands (tests ++ lineTests fields (front ++ lines.take i) line)
        (max width (widthOf (front ++ lines.take (i + 1)))) ccond →
      ∃ ss, gen ccond line.2 = .ok ss ∧ ∀ v, Resolves v
        (Met v unionhash (tests ++ lineTests fields (front ++ lines.take i) line))
        (targets v line.2) ss)
    {condneg : CanonCondition}
    (hneg : Stands (front.flatMap fun l => testsOf fields true l.1) (max unit (widthOf front))
      condneg) (sofar : List CaseLists) :
    ∃ condneg' parts, lines.foldlM (onfold gen choiceName condunit ccond) (condneg, sofar) =
        .ok (condneg', parts.reverse ++ sofar) ∧
      ∀ v, Parts v (Met v unionhash tests ∧
          Met v unionhash (front.flatMap fun l => testsOf fields true l.1))
        (FirstLeads (outcome v unionhash fields) (targets v) lines) parts := by
  induction lines generalizing front condneg sofar with
  | nil =>
      refine ⟨condneg, [], rfl, fun v => ⟨fun _ => List.forall_mem_nil _, fun _ => .nil, ?_⟩⟩
      simp [FirstLeads]
  | cons line lines ih =>
      obtain ⟨hone, -, hgen⟩ := hlines 0 line rfl
      simp only [List.take_zero, List.append_nil, Nat.zero_add, List.take_succ_cons] at hgen hle
      have hccond : Stands (tests ++ lineTests fields front line)
          (max width (widthOf (front ++ [line])))
          ([ccond, canonCase line.1, condneg].foldl andCanonCondition condunit) :=
        (stands_line hunit hstands hneg).congr (fun _ => Iff.rfl) (max_widthOf_line hle)
      obtain ⟨part, hpart, hresolves⟩ := hgen _ hccond
      obtain ⟨negated, _, hnegated, hline⟩ := exists_negatedLine choiceName fields hunit hone
      have hfirst : ∀ v, Resolves v ((Met v unionhash tests ∧
          Met v unionhash (front.flatMap fun l => testsOf fields true l.1)) ∧
            holds (outcome v unionhash fields) line.1 = true) (targets v line.2) part := by
        intro v
        have hresolves := hresolves v
        rwa [met_append, lineTests, met_append, met_testsOf_false, and_comm (b := Met _ _ _),
          ← and_assoc] at hresolves
      -- the lines behind are generated for the case that this one does not hold
      obtain ⟨condneg', parts, hfold, hparts⟩ : ∃ condneg' parts,
          lines.foldlM (onfold gen choiceName condunit ccond)
              (andCanonCondition condneg negated, part :: sofar) =
            .ok (condneg', parts.reverse ++ part :: sofar) ∧
          ∀ v, Parts v ((Met v unionhash tests ∧
              Met v unionhash (front.flatMap fun l => testsOf fields true l.1)) ∧
                ¬ holds (outcome v unionhash fields) line.1 = true)
            (FirstLeads (outcome v unionhash fields) (targets v) lines) parts := by
        by_cases hhas : HasTest line.1
        · obtain rfl := Except.ok.inj
            (hnegated.symm.trans (negatedLine_of_hasTest choiceName hone hhas))
          have hle' : unit ≤ widthOf (front ++ [line] ++ lines.take 1) := by
            rw [widthOf_append]
            exact hle.trans (le_max_left _ _)
          obtain ⟨condneg', parts, hfold, hparts⟩ := ih (front ++ [line]) hle'
            (fun i l hl => by simpa [hhas] using hlines (i + 1) l hl) (stands_front hneg line)
            (part :: sofar)
          refine ⟨condneg', parts, hfold, fun v => ?_⟩
          have hrest := hparts v
          rwa [List.flatMap_append, met_append, List.flatMap_singleton,
            met_testsOf_true hone hhas, ← and_assoc] at hrest
        · have hquiet : ∀ i l, lines[i]? = some l → AtMostOneTest l.1 ∧
              Quiet gen (tests ++ lineTests fields (front ++ [line] ++ lines.take i) l) l.2 := by
            intro i l hl
            obtain ⟨hone, hquiet, -⟩ := hlines (i + 1) l hl
            refine ⟨hone, ?_⟩
            simpa using hquiet.resolve_left fun h => hhas (h line (by simp))
          obtain ⟨condneg', parts, hfold, hidle⟩ := onfold_quiet choiceName hunit hstands
            (front ++ [line]) hquiet ((hneg.and hline).congr (fun t => by simp) rfl)
            (part :: sofar)
          -- a line without a test holds
          have hholds : ∀ v, holds (outcome v unionhash fields) line.1 = true := fun v =>
            met_testsOf_false.mp fun t ht => absurd ht (not_mem_testsOf hhas)
          exact ⟨condneg', parts, hfold, fun v => ⟨fun _ => hidle v,
            fun h => absurd (hholds v) h.2, fun h => absurd (hholds v) h.2⟩⟩
      refine ⟨condneg', part :: parts,
        foldlM_cons_eq_ok.mpr ⟨_, onfold_eq_ok sofar hnegated hpart, ?_⟩, fun v => ?_⟩
      · rw [hfold, List.reverse_cons, List.append_assoc]
        rfl
      · rw [firstLeads_cons]
        exact Parts.cons (hfirst v) (hparts v)

/-- A choice selects what its parts select. -/
theorem Parts.resolves {v : Valuation} {H : Prop} {targets : String → Prop}
    {parts : List CaseLists} (h : Parts v H targets parts) :
    Resolves v H targets (combine false parts.reverse) := by
  have hidle : Idle (satisfied v) [[]] := idle_cons.mpr ⟨rfl, idle_nil⟩
  refine ⟨fun hH => idle_foldl_mergeBefore hidle fun part hpart =>
    h.idle hH part (List.mem_reverse.mp hpart), fun hH t => ?_⟩
  have hone : ([[]] :: parts.reverse).Pairwise fun part part' =>
      Idle (satisfied v) part ∨ Idle (satisfied v) part' :=
    List.pairwise_cons.mpr ⟨fun _ _ => Or.inl hidle,
      List.pairwise_reverse.mpr ((h.one hH).imp Or.symm)⟩
  rw [← h.taken hH t]
  have htaken : ∀ c, Taken (satisfied v) (combine false parts.reverse) c ↔
      ∃ part ∈ parts, Taken (satisfied v) part c := by
    intro c
    refine (taken_foldl_mergeBefore hone).trans ?_
    rw [or_iff_right hidle.not_taken]
    simp only [List.mem_reverse]
  simp only [htaken]
  constructor
  · rintro ⟨c, ⟨part, hpart, hc⟩, ht⟩
    exact ⟨part, hpart, c, hc, ht⟩
  · rintro ⟨part, hpart, c, hc, ht⟩
    exact ⟨c, ⟨part, hpart, hc⟩, ht⟩

/-! ## Generated successors -/

/-- A stack that is deep enough for each of finitely many items is deep enough for all. -/
theorem exists_depth {ι : Type} {P : ι → Nat → Prop} {l : List ι}
    (h : ∀ a ∈ l, ∃ depth₀, ∀ depth ≥ depth₀, P a depth) :
    ∃ depth₀, ∀ depth ≥ depth₀, ∀ a ∈ l, P a depth := by
  induction l with
  | nil => exact ⟨0, fun _ _ => List.forall_mem_nil _⟩
  | cons a l ih =>
      obtain ⟨⟨d1, h1⟩, hl⟩ := List.forall_mem_cons.mp h
      obtain ⟨d2, h2⟩ := ih hl
      refine ⟨max d1 d2, fun depth hdepth => List.forall_mem_cons.mpr ⟨?_, ?_⟩⟩
      · exact h1 depth (le_of_max_le_left hdepth)
      · exact h2 depth (le_of_max_le_right hdepth)

/-- A stack that is deep enough for each line of a choice is deep enough for all. -/
theorem exists_depth_lines {P : Nat → Line → Nat → Prop} {lines : List Line}
    (h : ∀ i line, lines[i]? = some line → ∃ depth₀, ∀ depth ≥ depth₀, P i line depth) :
    ∃ depth₀, ∀ depth ≥ depth₀, ∀ i line, lines[i]? = some line → P i line depth := by
  obtain ⟨depth₀, hdepth₀⟩ := exists_depth (l := lines.zipIdx)
    (P := fun p depth => P p.2 p.1 depth)
    fun p hp => h p.2 p.1 (List.mk_mem_zipIdx_iff_getElem?.mp hp)
  exact ⟨depth₀, fun depth hdepth i line hline =>
    hdepth₀ depth hdepth (line, i) (List.mk_mem_zipIdx_iff_getElem?.mpr hline)⟩

/-- One call more on the stack. -/
theorem exists_depth_succ {P : Nat → Prop}
    (h : ∃ depth₀, ∀ depth ≥ depth₀, P (depth + 1)) : ∃ depth₀, ∀ depth ≥ depth₀, P depth := by
  obtain ⟨depth₀, hdepth₀⟩ := h
  refine ⟨depth₀ + 1, fun depth hdepth => ?_⟩
  obtain ⟨depth, rfl⟩ := Nat.exists_eq_add_of_le' (Nat.le_of_add_left_le hdepth)
  exact hdepth₀ depth (by omega)

/-- The branches of a concurrent node. -/
theorem flatten_resolves {v : Valuation} {H : Prop} {targets : Cell → String → Prop}
    {succs : List Cell} {parts : List CaseLists}
    (h : List.Forall₂ (fun succ part => Resolves v H (targets succ) part) succs parts) :
    Resolves v H (fun t => ∃ succ ∈ succs, targets succ t) parts.flatten := by
  constructor
  · intro hH
    rw [idle_flatten]
    induction h with
    | nil => exact List.forall_mem_nil _
    | cons hpart _ ih => exact List.forall_mem_cons.mpr ⟨hpart.idle hH, ih⟩
  · intro hH t
    induction h with
    | nil => simp [not_taken_nil]
    | cons hpart _ ih =>
        simp only [List.mem_cons, exists_eq_or_imp]
        simp only [List.flatten_cons, taken_append, or_and_right, exists_or, hpart.taken hH, ih]

variable (number) in
/-- What the conditions of each choice say. -/
def outcomes (v : Valuation) (unionhash : String) : String → Outcome :=
  fun name => outcome v unionhash (number name)

variable (digest br nOutDfl) in
/-- What is generated for a cell on a stack of some depth. -/
abbrev genCell (depth : Nat) (ccond : CanonCondition) (cell : Cell) :
    Except XMLConversion CaseLists :=
  genSucc' false false digest br nOutDfl depth ccond (deref br.fmap cell)

variable (digest br nOutDfl number) in
/-- The cases that are generated for a cell select what the source says, if the tests on the way to
it are met. -/
def Selecting (depth : Nat) (tests : List Test) (width : Nat) (cell : Cell) : Prop :=
  ∀ ccond, Stands tests width ccond → ∃ ss,
    genCell digest br nOutDfl depth ccond cell = .ok ss ∧
      ∀ v, Resolves v (Met v (hashDeclFormalList digest nOutDfl) tests)
        (Selects br (outcomes number v (hashDeclFormalList digest nOutDfl)) cell) ss

/-- What is generated for a concrete node. -/
theorem genCell_concrete {cell : Cell} {n : String} {depth : Nat}
    (hcell : concreteName (deref br.fmap cell) = some n) :
    genCell digest br nOutDfl (depth + 1) ccond cell = sfun false digest br nOutDfl n ccond := by
  rw [genCell]
  cases hnode : deref br.fmap cell with
  | source _ _ _ _ | cNode _ _ _ _ =>
      rw [hnode] at hcell
      cases hcell
      rfl
  | _ =>
      rw [hnode] at hcell
      cases hcell

/-- The cases for a concrete node select it. -/
theorem selecting_concrete {cell : Cell} {n : String} {depth : Nat}
    (hcell : concreteName (deref br.fmap cell) = some n) (hdecl : Declared br n)
    (hleaf : Numbered digest br nOutDfl tests width n) :
    Selecting digest br nOutDfl number (depth + 1) tests width cell := by
  intro ccond hstands
  obtain ⟨ss, hss, hresolves⟩ := sfun_spec hdecl hleaf hstands
  refine ⟨ss, (genCell_concrete hcell).trans hss, fun v => ?_⟩
  refine ⟨(hresolves v).idle, fun hmet t => ?_⟩
  rw [(hresolves v).taken hmet, selects_concrete_iff hcell]

/-- The cases for a choice select as its first line that holds. -/
theorem selecting_choice {cell : Cell} {name : String} {lines : List Line} {depth : Nat}
    (hcell : deref br.fmap cell = .chExpr name lines) (hwritten : Written number name lines)
    (hlines : ∀ i line, lines[i]? = some line →
      ((∀ front ∈ lines.take i, HasTest front.1) ∨ Quiet (genCell digest br nOutDfl depth)
        (tests ++ lineTests (number name) (lines.take i) line) line.2) ∧
      Selecting digest br nOutDfl number depth
        (tests ++ lineTests (number name) (lines.take i) line)
        (max width (widthOf (lines.take (i + 1)))) line.2) :
    Selecting digest br nOutDfl number (depth + 1) tests width cell := by
  intro ccond hstands
  cases lines with
  | nil => exact absurd rfl hwritten.ne_nil
  | cons line lines =>
      have hunit := stands_condunitOf line.1
      obtain ⟨condneg, parts, hfold, hparts⟩ := onfold_spec name hunit hstands []
        (le_max_left _ _)
        (fun i l hl => ⟨hwritten.oneTest l (List.mem_of_getElem? hl), hlines i l hl⟩)
        (hunit.congr (fun _ => Iff.rfl) (Nat.max_zero _).symm) []
      refine ⟨combine false parts.reverse, ?_, fun v => ?_⟩
      · rw [genCell, hcell, genSucc']
        exact bind_eq_ok.mpr ⟨_, hfold, by rw [List.append_nil]; rfl⟩
      · have hresolves := (hparts v).resolves
        refine ⟨fun hmet => hresolves.idle fun hboth => hmet hboth.1, fun hmet t => ?_⟩
        rw [hresolves.taken ⟨hmet, met_nil⟩, selects_choice_iff hcell]
        rfl

/-- The cases for a concurrent node select as its branches. -/
theorem selecting_concurrent {cell : Cell} {name : String} {succs : List Cell} {depth : Nat}
    (hcell : deref br.fmap cell = .conExpr name succs)
    (hsuccs : ∀ succ ∈ succs, Selecting digest br nOutDfl number depth tests width succ) :
    Selecting digest br nOutDfl number (depth + 1) tests width cell := by
  intro ccond hstands
  obtain ⟨parts, hparts⟩ := exists_forall₂ fun succ hsucc => hsuccs succ hsucc ccond hstands
  refine ⟨parts.flatten, ?_, fun v => ?_⟩
  · rw [genCell, hcell]
    exact bind_eq_ok.mpr ⟨parts, mapM_eq_ok_iff.mpr (hparts.imp fun _ _ h => h.1), rfl⟩
  · have hresolves := flatten_resolves (hparts.imp fun _ _ h => h.2 v)
    refine ⟨hresolves.idle, fun hmet t => ?_⟩
    rw [hresolves.taken hmet, selects_concurrent_iff hcell]

/-! ## Cells below which nothing is written -/

/-- Nothing is taken where nothing is selected. -/
theorem Resolves.idle_of_targets {H : Prop} {targets : String → Prop} {ss : CaseLists}
    (h : Resolves v H targets ss) (hnone : H → ∀ t, ¬ targets t) : Idle (satisfied v) ss := by
  by_cases hH : H
  · refine idle_of_not_taken fun c hc => ?_
    exact hnone hH _ ((h.taken hH _).mp ⟨c, hc, rfl⟩)
  · exact h.idle hH

/-- The cases for a node that is not written. -/
theorem quiet_concrete {cell : Cell} {n : String} {depth : Nat}
    (hcell : concreteName (deref br.fmap cell) = some n) (hdecl : Declared br n)
    (hleaf : n ∈ br.terminates ∨ Contradictory tests) :
    Quiet (genCell digest br nOutDfl (depth + 1)) tests cell := by
  intro width ccond hstands
  obtain ⟨ss, hss, hresolves⟩ := sfun_spec hdecl (hleaf.imp_right Or.inl) hstands
  refine ⟨ss, (genCell_concrete hcell).trans hss, fun v => ?_⟩
  refine (hresolves v).idle_of_targets fun hmet _ htarget => ?_
  exact hleaf.elim htarget.1 fun hcontradictory => hcontradictory.not_met hmet

/-- The cases for a choice whose lines are not written. -/
theorem quiet_choice {cell : Cell} {name : String} {lines : List Line} {depth : Nat}
    (hcell : deref br.fmap cell = .chExpr name lines) (hwritten : Written number name lines)
    (hlines : ∀ i line, lines[i]? = some line → Quiet (genCell digest br nOutDfl depth)
      (tests ++ lineTests (number name) (lines.take i) line) line.2) :
    Quiet (genCell digest br nOutDfl (depth + 1)) tests cell := by
  intro width ccond hstands
  cases lines with
  | nil => exact absurd rfl hwritten.ne_nil
  | cons line lines =>
      have hunit := stands_condunitOf line.1
      obtain ⟨condneg, parts, hfold, hparts⟩ := onfold_quiet name hunit hstands []
        (fun i l hl => ⟨hwritten.oneTest l (List.mem_of_getElem? hl), hlines i l hl⟩) hunit []
      refine ⟨combine false parts.reverse, ?_, fun v => ?_⟩
      · rw [genCell, hcell, genSucc']
        exact bind_eq_ok.mpr ⟨_, hfold, by rw [List.append_nil]; rfl⟩
      · exact idle_foldl_mergeBefore (idle_cons.mpr ⟨rfl, idle_nil⟩) fun part hpart =>
          hparts v part (List.mem_reverse.mp hpart)

/-- The cases for a concurrent node whose branches are not written. -/
theorem quiet_concurrent {cell : Cell} {name : String} {succs : List Cell} {depth : Nat}
    (hcell : deref br.fmap cell = .conExpr name succs)
    (hsuccs : ∀ succ ∈ succs, Quiet (genCell digest br nOutDfl depth) tests succ) :
    Quiet (genCell digest br nOutDfl (depth + 1)) tests cell := by
  intro width ccond hstands
  obtain ⟨parts, hparts⟩ := exists_forall₂ fun succ hsucc => hsuccs succ hsucc width ccond hstands
  refine ⟨parts.flatten, ?_, fun v => idle_flatten.mpr ?_⟩
  · rw [genCell, hcell]
    exact bind_eq_ok.mpr ⟨parts, mapM_eq_ok_iff.mpr (hparts.imp fun _ _ h => h.1), rfl⟩
  · clear hsuccs hcell
    induction hparts with
    | nil => exact List.forall_mem_nil _
    | cons hpart _ ih => exact List.forall_mem_cons.mpr ⟨hpart.2 v, ih⟩

/-- On a stack that is deep enough, no case is written below a silent cell. -/
theorem Silent.quiet {cell : Cell} (hsilent : Silent br number tests cell)
    (htree : Tree br.fmap (Declared br) (Written number) cell) :
    ∃ depth₀, ∀ depth ≥ depth₀, Quiet (genCell digest br nOutDfl depth) tests cell := by
  induction hsilent with
  | concrete hcell hleaf =>
      exact exists_depth_succ ⟨0, fun depth _ =>
        quiet_concrete hcell (htree.leaf hcell) hleaf⟩
  | choice hcell _ ih =>
      obtain ⟨hwritten, htrees⟩ := htree.lines hcell
      obtain ⟨depth₀, hdepth₀⟩ := exists_depth_lines fun i line hline =>
        ih i line hline (htrees line (List.mem_of_getElem? hline))
      exact exists_depth_succ ⟨depth₀, fun depth hdepth =>
        quiet_choice hcell hwritten (hdepth₀ depth hdepth)⟩
  | concurrent hcell _ ih =>
      obtain ⟨depth₀, hdepth₀⟩ := exists_depth fun succ hsucc =>
        ih succ hsucc (htree.branches hcell succ hsucc)
      exact exists_depth_succ ⟨depth₀, fun depth hdepth =>
        quiet_concurrent hcell (hdepth₀ depth hdepth)⟩

/-- In front of the first line that holds, the tests fail. -/
theorem met_lineTests_of_find? {fields : List Nat} {lines : List Line} {line : Line}
    (hone : ∀ l ∈ lines, AtMostOneTest l.1)
    (hline : (lines.find? fun l => holds (outcome v unionhash fields) l.1) = some line) :
    ∃ i, lines[i]? = some line ∧ Met v unionhash (lineTests fields (lines.take i) line) := by
  obtain ⟨hholds, i, hi, rfl, hfront⟩ := List.find?_eq_some_iff_getElem.mp hline
  refine ⟨i, List.getElem?_eq_getElem hi, met_append.mpr ⟨met_testsOf_false.mpr hholds, ?_⟩⟩
  intro t ht
  obtain ⟨l, hl, ht⟩ := List.mem_flatMap.mp ht
  obtain ⟨j, hj, rfl⟩ := List.mem_take_iff_getElem.mp hl
  have hfails := hfront j (by omega)
  have hhas : HasTest lines[j].1 := by
    by_contra hnone
    exact absurd ht (not_mem_testsOf hnone)
  exact (met_testsOf_true (hone _ (List.getElem_mem _)) hhas).mpr (by simpa using hfails) t ht

/-- A silent cell selects nothing. -/
theorem Silent.not_selects {cell : Cell} {t : String} (hsilent : Silent br number tests cell)
    (htree : Tree br.fmap (Declared br) (Written number) cell) (hmet : Met v unionhash tests) :
    ¬ Selects br (outcomes number v unionhash) cell t := by
  induction hsilent with
  | concrete hcell hleaf =>
      rw [selects_concrete_iff hcell]
      intro hselects
      exact hleaf.elim hselects.1 fun hcontradictory => hcontradictory.not_met hmet
  | choice hcell _ ih =>
      obtain ⟨hwritten, htrees⟩ := htree.lines hcell
      rw [selects_choice_iff hcell]
      rintro ⟨line, hline, hselects⟩
      obtain ⟨i, hi, htests⟩ := met_lineTests_of_find? hwritten.oneTest hline
      exact ih i line hi (htrees line (List.mem_of_getElem? hi)) (met_append.mpr ⟨hmet, htests⟩)
        hselects
  | concurrent hcell _ ih =>
      rw [selects_concurrent_iff hcell]
      rintro ⟨succ, hsucc, hselects⟩
      exact ih succ hsucc (htree.branches hcell succ hsucc) hmet hselects

/-- Below a silent cell nothing is written, and nothing is to be selected. -/
theorem Silent.selecting {cell : Cell} {depth : Nat} (hsilent : Silent br number tests cell)
    (htree : Tree br.fmap (Declared br) (Written number) cell)
    (hquiet : Quiet (genCell digest br nOutDfl depth) tests cell) :
    Selecting digest br nOutDfl number depth tests width cell := by
  intro ccond hstands
  obtain ⟨ss, hss, hidle⟩ := hquiet width ccond hstands
  refine ⟨ss, hss, fun v => ⟨fun _ => hidle v, fun hmet t => ?_⟩⟩
  refine iff_of_false ?_ (hsilent.not_selects htree hmet)
  rintro ⟨c, hc, -⟩
  exact (hidle v).not_taken hc

/-! ## Whole trees -/

/-- On a stack that is deep enough, the cases select what the source says. -/
theorem genSucc'_spec {cell : Cell}
    (hseparated : Separated digest br nOutDfl number tests width cell)
    (htree : Tree br.fmap (Declared br) (Written number) cell) :
    ∃ depth₀, ∀ depth ≥ depth₀, Selecting digest br nOutDfl number depth tests width cell := by
  induction hseparated with
  | silent hsilent =>
      obtain ⟨depth₀, hdepth₀⟩ := hsilent.quiet htree
      exact ⟨depth₀, fun depth hdepth => hsilent.selecting htree (hdepth₀ depth hdepth)⟩
  | concrete hcell hleaf =>
      exact exists_depth_succ ⟨0, fun depth _ => selecting_concrete hcell (htree.leaf hcell) hleaf⟩
  | @choice tests width cell name lines hcell htests _ ih =>
      obtain ⟨hwritten, htrees⟩ := htree.lines hcell
      obtain ⟨depth₁, hquiet⟩ : ∃ depth₁, ∀ depth ≥ depth₁, ∀ i line, lines[i]? = some line →
          ((∀ front ∈ lines.take i, HasTest front.1) ∨ Quiet (genCell digest br nOutDfl depth)
            (tests ++ lineTests (number name) (lines.take i) line) line.2) := by
        refine exists_depth_lines fun i line hline => ?_
        rcases htests i line hline with hfront | hsilent
        · exact ⟨0, fun _ _ => Or.inl hfront⟩
        · obtain ⟨depth₀, hdepth₀⟩ := hsilent.quiet (htrees line (List.mem_of_getElem? hline))
          exact ⟨depth₀, fun depth hdepth => Or.inr (hdepth₀ depth hdepth)⟩
      obtain ⟨depth₂, hselecting⟩ := exists_depth_lines fun i line hline =>
        ih i line hline (htrees line (List.mem_of_getElem? hline))
      refine exists_depth_succ ⟨max depth₁ depth₂, fun depth hdepth => ?_⟩
      refine selecting_choice hcell hwritten fun i line hline => ?_
      exact ⟨hquiet depth (le_of_max_le_left hdepth) i line hline,
        hselecting depth (le_of_max_le_right hdepth) i line hline⟩
  | concurrent hcell _ ih =>
      obtain ⟨depth₀, hdepth₀⟩ := exists_depth fun succ hsucc =>
        ih succ hsucc (htree.branches hcell succ hsucc)
      exact exists_depth_succ ⟨depth₀, fun depth hdepth =>
        selecting_concurrent hcell (hdepth₀ depth hdepth)⟩

end

/-! ## Deeper stacks -/

theorem onfold_mono {gen gen' : CanonCondition → Cell → Except XMLConversion CaseLists}
    (hgen : ∀ ccond cell ss, gen ccond cell = .ok ss → gen' ccond cell = .ok ss)
    {choiceName : String} {condunit ccond : CanonCondition}
    {st st' : CanonCondition × List CaseLists} {line : Line}
    (h : onfold gen choiceName condunit ccond st line = .ok st') :
    onfold gen' choiceName condunit ccond st line = .ok st' := by
  obtain ⟨negated, hnegated, h⟩ := bind_eq_ok.mp h
  obtain ⟨part, hpart, h⟩ := bind_eq_ok.mp h
  exact bind_eq_ok.mpr ⟨negated, hnegated, bind_eq_ok.mpr ⟨part, hgen _ _ _ hpart, h⟩⟩

/-- On a deeper stack the cases are the same. -/
theorem genSucc'_mono {abstractTermination exclusiveTests : Bool}
    {digest : List StrippedDf → String} {br : BuiltFlow} {nOutDfl : List DeclFormal}
    {depth : Nat} {ccond : CanonCondition} {fl : Node} {ss : CaseLists}
    (h : genSucc' abstractTermination exclusiveTests digest br nOutDfl depth ccond fl = .ok ss) :
    genSucc' abstractTermination exclusiveTests digest br nOutDfl (depth + 1) ccond fl = .ok ss := by
  induction depth generalizing ccond fl ss with
  | zero => cases h
  | succ depth ih =>
      cases fl with
      | source => exact h
      | cNode => exact h
      | nullNode => exact h
      | chExpr choiceName lines =>
          cases lines with
          | nil => cases h
          | cons line lines =>
              obtain ⟨st, hst, h⟩ := bind_eq_ok.mp h
              refine bind_eq_ok.mpr ⟨st, ?_, h⟩
              exact foldlM_mono (fun _ _ _ => onfold_mono fun _ _ _ => ih) hst
      | conExpr name succs =>
          obtain ⟨parts, hparts, h⟩ := bind_eq_ok.mp h
          refine bind_eq_ok.mpr ⟨parts, mapM_eq_ok_iff.mpr ?_, h⟩
          exact (mapM_eq_ok_iff.mp hparts).imp fun _ _ => ih

theorem emitSuccessorList_mono {abstractTermination exclusiveTests : Bool}
    {digest : List StrippedDf → String} {usesmodel : List (String × String)} {br : BuiltFlow}
    {nOutDfl : List DeclFormal} {depth depth' : Nat} {n : String}
    {successors : List SuccessorElement} (hle : depth ≤ depth')
    (h : emitSuccessorList abstractTermination exclusiveTests digest usesmodel br depth n nOutDfl =
      .ok successors) :
    emitSuccessorList abstractTermination exclusiveTests digest usesmodel br depth' n nOutDfl =
      .ok successors := by
  induction hle with
  | refl => exact h
  | step _ ih =>
      obtain ⟨l, hl, h⟩ := bind_eq_ok.mp ih
      obtain ⟨ss, hss, hl⟩ := bind_eq_ok.mp hl
      exact bind_eq_ok.mpr ⟨l, bind_eq_ok.mpr ⟨ss, genSucc'_mono hss, hl⟩, h⟩

/-! ## Names of successors -/

/-- The number at the end of a successor name. -/
theorem takeWhile_isDigit_succName (ns : String) (i : Nat) :
    (succName ns i).toList.reverse.takeWhile Char.isDigit = (Nat.repr i).toList.reverse := by
  have hdigits : ∀ d ∈ (Nat.repr i).toList.reverse, d.isDigit = true := by
    intro d hd
    rw [List.mem_reverse, Nat.toList_repr] at hd
    exact Nat.isDigit_of_mem_toDigits (by decide) (by decide) hd
  rw [succName, String.toList_append, List.reverse_append, List.takeWhile_append_of_pos hdigits]
  refine (List.append_right_eq_self).mpr ?_
  split
  next =>
    rw [String.toList_append, List.reverse_append]
    rfl
  next => rfl

/-- A successor name gives its namespace and number. -/
theorem succName_inj {ns ns' : String} {i i' : Nat} (h : succName ns i = succName ns' i') :
    ns = ns' ∧ i = i' := by
  have hdigits := congrArg (fun s => s.toList.reverse.takeWhile Char.isDigit) h
  simp only [takeWhile_isDigit_succName, List.reverse_inj] at hdigits
  obtain rfl : i = i' := ConditionArguments.eq_of_repr_eq (String.toList_inj.mp hdigits)
  refine ⟨?_, rfl⟩
  have hprefix := congrArg String.toList h
  simp only [succName, String.toList_append, List.append_left_inj] at hprefix
  split at hprefix
  next hpos =>
    split at hprefix
    next =>
      simp only [String.toList_append, List.append_left_inj] at hprefix
      exact String.toList_inj.mp hprefix
    next =>
      rw [String.toList_append] at hprefix
      simp at hprefix
  next hzero =>
    split at hprefix
    next =>
      rw [String.toList_append] at hprefix
      simp at hprefix
    next hzero' =>
      rw [Nat.not_lt, Nat.le_zero] at hzero hzero'
      rw [String.length_eq_zero_iff.mp hzero, String.length_eq_zero_iff.mp hzero']

/-- No numbered name is that of the first successor. -/
theorem succName_ne_erste (ns : String) (i : Nat) : succName ns i ≠ "erste" := by
  intro h
  have hdigits := takeWhile_isDigit_succName ns i
  rw [h, eq_comm, List.reverse_eq_iff, Nat.toList_repr] at hdigits
  exact Nat.toDigits_ne_nil hdigits

/-- The last number that was given in a name space. -/
def lastIv (imap : IMap) (ns : String) : Option Nat :=
  (imap.find? fun e => e.1 = ns).map Prod.snd

/-- The last number given in each namespace. -/
theorem lastIv_getIv (imap : IMap) (ns ns' : String) :
    lastIv (getIv imap ns).1 ns' =
      if ns = ns' then some (getIv imap ns).2 else lastIv imap ns' := by
  unfold getIv
  cases hfind : imap.find? fun e => e.1 = ns with
  | none =>
      by_cases hns : ns = ns'
      · simp [lastIv, hns]
      · simp [lastIv, hns]
  | some e =>
      have hname : ∀ e : String × Nat, (if e.1 = ns then (ns, e.2 + 1) else e).1 = e.1 := by
        intro e
        split
        next h => exact h.symm
        next => rfl
      have hns : e.1 = ns := by simpa using List.find?_some hfind
      simp only [lastIv, List.find?_map, Function.comp_def, hname]
      split
      next heq =>
        subst heq
        rw [hfind]
        simp [hns]
      next hne =>
        cases hfind' : imap.find? fun e => e.1 = ns' with
        | none => rfl
        | some e' =>
            have hns' : e'.1 = ns' := by simpa using List.find?_some hfind'
            simp [hns', Ne.symm hne]

/-- Numbers grow. -/
theorem lt_getIv {imap : IMap} {ns : String} {j : Nat} (h : lastIv imap ns = some j) :
    j < (getIv imap ns).2 := by
  obtain ⟨e, he, rfl⟩ := Option.map_eq_some_iff.mp h
  rw [getIv, he]
  exact Nat.lt_succ_self _

/-- Successors with different names, which have been counted in their name spaces. -/
structure Counted (st : List SuccessorElement × IMap) : Prop where
  nodup : (st.1.map SuccessorElement.name).Nodup
  counted : ∀ r ∈ st.1, ∃ ns i j, r.name = succName ns i ∧ lastIv st.2 ns = some j ∧ i ≤ j

/-- A non-empty case list becomes a successor with a new name. -/
theorem foldfun_spec {usesmodel : List (String × String)} {symtable : SymbolTable}
    {st : List SuccessorElement × IMap} (h : Counted st) (s : List CaseElement) :
    Counted (foldfun usesmodel symtable st s) ∧
      (foldfun usesmodel symtable st s).1.map SuccessorElement.cases =
        [s].filter (· ≠ []) ++ st.1.map SuccessorElement.cases := by
  by_cases hnil : s = []
  · rw [foldfun, if_pos hnil]
    exact ⟨h, by simp [hnil]⟩
  · rw [foldfun, if_neg hnil]
    refine ⟨?_, by simp [makeSuccessor, hnil]⟩
    generalize hns : findEarliestNs usesmodel symtable none s.reverse = ns
    simp only [makeSuccessor, hns]
    constructor
    · refine List.nodup_cons.mpr ⟨fun hmem => ?_, h.nodup⟩
      obtain ⟨r, hr, hname⟩ := List.mem_map.mp hmem
      obtain ⟨ns', i, j, hname', hj, hle⟩ := h.counted r hr
      obtain ⟨rfl, rfl⟩ := succName_inj (hname'.symm.trans hname)
      exact absurd (lt_getIv hj) (Nat.not_lt.mpr hle)
    · refine List.forall_mem_cons.mpr ⟨⟨ns, _, _, rfl, ?_, le_rfl⟩, fun r hr => ?_⟩
      · rw [lastIv_getIv, if_pos rfl]
      · obtain ⟨ns', i, j, hname, hj, hle⟩ := h.counted r hr
        by_cases heq : ns = ns'
        · subst heq
          refine ⟨ns, i, _, hname, ?_, hle.trans (lt_getIv hj).le⟩
          rw [lastIv_getIv, if_pos rfl]
        · refine ⟨ns', i, j, hname, ?_, hle⟩
          rw [lastIv_getIv, if_neg heq, hj]

/-- The successors are the lists with cases, under different names. -/
theorem nameSuccessors_spec (usesmodel : List (String × String)) (symtable : SymbolTable)
    (ss : CaseLists) :
    Counted ((ss.reverse.foldl (foldfun usesmodel symtable) ([], []))) ∧
      (nameSuccessors usesmodel symtable ss).map SuccessorElement.cases =
        ss.filter (· ≠ []) := by
  rw [nameSuccessors, List.foldl_reverse]
  induction ss with
  | nil => exact ⟨⟨List.nodup_nil, List.forall_mem_nil _⟩, rfl⟩
  | cons s ss ih =>
      obtain ⟨hcounted, hcases⟩ := foldfun_spec ih.1 s
      rw [List.foldr_cons]
      refine ⟨hcounted, hcases.trans ?_⟩
      rw [ih.2, ← List.filter_append, List.singleton_append]

/-- The successors of a node have different names. -/
theorem names_nameSuccessors (usesmodel : List (String × String)) (symtable : SymbolTable)
    (ss : CaseLists) (n : String) :
    ((nameSuccessors usesmodel symtable ss ++ [erste n]).map SuccessorElement.name).Nodup := by
  obtain ⟨hnodup, hcounted⟩ := (nameSuccessors_spec usesmodel symtable ss).1
  rw [List.map_append, List.nodup_append]
  refine ⟨hnodup, List.nodup_singleton _, ?_⟩
  intro a ha b hb heq
  obtain ⟨r, hr, rfl⟩ := List.mem_map.mp ha
  obtain ⟨ns, i, -, hname, -⟩ := hcounted r hr
  rw [List.map_singleton, List.mem_singleton] at hb
  exact succName_ne_erste ns i (hname.symm.trans (heq.trans hb))

/-! ## What the runtime selects -/

section

variable {digest : List StrippedDf → String} {br : BuiltFlow} {nOutDfl : List DeclFormal}
variable {number : String → List Nat}

/-- The runtime reads the successor list that the compiler writes for a node, and selects the
nodes that the source leads to, and a source again. -/
def RoutesAs (digest : List StrippedDf → String) (usesmodel : List (String × String))
    (br : BuiltFlow) (number : String → List Nat) (n : String) (nOutDfl : List DeclFormal) :
    Prop :=
  ∃ depth₀, ∀ depth ≥ depth₀, ∃ successors,
    emitSuccessorList false false digest usesmodel br depth n nOutDfl = .ok successors ∧
      ∀ (guards : List String) (node : Reader.Node), node.successorList = none →
        ∃ node', Reader.readChild (Reader.readNodeElement guards) true false node
            (Compiler.successorListXml successors) = .ok node' ∧
          ∀ v t, t ∈ node'.targets v ↔
            Selects br (outcomes number v (hashDeclFormalList digest nOutDfl))
                (succOf (deref br.fmap (some n))) t ∨
              returns br n = true ∧ t = n

/-- The reader takes the first case that holds. -/
theorem getSuccessor_successorObject (e : SuccessorElement) (v : Valuation) :
    ((Reader.successorObject false e).getSuccessor v).map Reader.Case.targetName =
      (e.cases.find? (satisfied v)).map CaseElement.nodetarget := by
  have hfind : (Reader.successorObject false e).getSuccessor v =
      (e.cases.find? (satisfied v)).map Reader.caseObject :=
    List.find?_map
  rw [hfind, Option.map_map]
  rfl

/-- What a node selects, from the cases of its successors. -/
theorem mem_targets_successors {node : Reader.Node} {successors : List SuccessorElement}
    {v : Valuation} {t : String} :
    t ∈ Reader.Node.targets { node with
        successorList := some (successors.map (Reader.successorObject false)) } v ↔
      ∃ c, Taken (satisfied v) (successors.map SuccessorElement.cases) c ∧ c.nodetarget = t := by
  rw [Reader.Node.mem_targets_iff rfl]
  simp only [Taken, List.mem_map, exists_exists_and_eq_and, getSuccessor_successorObject]
  simp only [Option.map_eq_some_iff]
  constructor
  · rintro ⟨e, he, c, hc, ht⟩
    exact ⟨c, ⟨e, he, hc⟩, ht⟩
  · rintro ⟨c, ⟨e, he, hc⟩, ht⟩
    exact ⟨e, he, c, hc, ht⟩

/-- Empty case lists are never taken. -/
theorem taken_filter {v : Valuation} {ss : CaseLists} {c : CaseElement} :
    Taken (satisfied v) (ss.filter (· ≠ [])) c ↔ Taken (satisfied v) ss c := by
  constructor
  · rintro ⟨l, hl, hc⟩
    exact ⟨l, List.mem_of_mem_filter hl, hc⟩
  · rintro ⟨l, hl, hc⟩
    refine ⟨l, List.mem_filter.mpr ⟨hl, ?_⟩, hc⟩
    have hne : l ≠ [] := List.ne_nil_of_mem (List.mem_of_find?_eq_some hc)
    exact decide_eq_true hne

/-- The successor that leads back to the node. -/
theorem taken_erste {v : Valuation} {n : String} {c : CaseElement} :
    Taken (satisfied v) [(erste n).cases] c ↔ c = { nodetarget := n, conditions := [] } := by
  have hsat : satisfied v { nodetarget := n, conditions := [] } = true := rfl
  simp [Taken, erste, List.find?_cons_of_pos hsat, eq_comm]

/-- For a tree of nodes behind a node, the runtime selects what the source says if no case is written
for a line of a choice behind one without a test, and each test on the way to a node is written with
the number of the output field that it is about. -/
theorem routesAs_of_separated (usesmodel : List (String × String)) {n : String}
    (htree : Tree br.fmap (Declared br) (Written number) (succOf (deref br.fmap (some n))))
    (hseparated : Separated digest br nOutDfl number [] 0 (succOf (deref br.fmap (some n)))) :
    RoutesAs digest usesmodel br number n nOutDfl := by
  obtain ⟨depth₀, hdepth₀⟩ := genSucc'_spec hseparated htree
  refine ⟨depth₀, fun depth hdepth => ?_⟩
  obtain ⟨ss, hss, hresolves⟩ := hdepth₀ depth hdepth [] stands_nil
  have hcases := (nameSuccessors_spec usesmodel br.symtable ss).2
  have hnodup := names_nameSuccessors usesmodel br.symtable ss n
  refine ⟨nameSuccessors usesmodel br.symtable ss ++ if returns br n then [erste n] else [],
    ?_, fun guards node hnode => ?_⟩
  · rw [emitSuccessorList, genSucc, ← genCell, hss]
    rfl
  · refine ⟨_, Reader.readSuccessorList guards false hnode ?_, fun v t => ?_⟩
    · cases returns br n with
      | false =>
          rw [List.map_append] at hnodup ⊢
          exact (List.nodup_append.mp hnodup).1.append List.nodup_nil (by simp)
      | true => exact hnodup
    · have htaken := (hresolves v).taken met_nil t
      rw [mem_targets_successors, ← htaken, List.map_append, hcases]
      simp only [taken_append, taken_filter, or_and_right, exists_or]
      refine or_congr_right ?_
      cases returns br n with
      | false => simp [not_taken_nil]
      | true =>
          rw [if_pos rfl, List.map_singleton]
          simp only [taken_erste, exists_eq_left, true_and]
          exact eq_comm

/-! ## A choice with a line behind one without a test -/

/-- A source leads to a choice, which leads to a node under a condition, and under another one to
two nodes. -/
def chooseProgram (first : CommaItem) : Program :=
  let x : DeclFormal := { ctypemod := "", ctype := "int", name := "x" }
  { mainfunList := [⟨"In", "In", some "Choose", 1⟩]
    nodeDeclList :=
      { nodename := "In", nodefunction := "In", inputs := [], outputs := some [x] } ::
        ["Choose", "Both"].map (fun n =>
          { nodename := n, nodefunction := "", inputs := [x], outputs := none }) ++
        ["A", "B", "C"].map fun n =>
          { nodename := n, nodefunction := n, inputs := [x], outputs := some [] }
    exprList := [⟨"Choose", [first], ["A"], .choice⟩, ⟨"Choose", [.ident "ready"], ["Both"], .choice⟩,
      ⟨"Both", [], ["B", "C"], .concurrent⟩] }

/-- The flow that is built from that program. -/
def chooseFlow (first : CommaItem) : Except Exn BuiltFlow :=
  Flow.buildFlowMap true 3 (SymbolTable.addProgram (SortedMap.empty, 0) (chooseProgram first)).1
    (chooseProgram first)

/-- The three nodes are concrete, and no flow terminates. -/
def chooseConcrete (built : BuiltFlow) : Bool :=
  (["A", "B", "C"].all fun n =>
    (built.symtable.lookupNodeSymbol n).toOption.any fun nd => !nd.nodeabstract) &&
    built.terminates.isEmpty && !returns built "In"

theorem chooseFlow_eq (first : CommaItem) (h : first = .star ∨ first = .ident "other") :
    (chooseFlow first).map (fun built => (["In", "Choose", "Both", "A", "B", "C"].map fun n =>
        deref built.fmap (some n), chooseConcrete built)) =
      .ok ([.source "In" "In" (some "Choose") none,
        .chExpr "Choose" [([Flow.convertCondPart first], some "A"), ([some "ready"], some "Both")],
        .conExpr "Both" [some "B", some "C"], .cNode "A" "A" none none, .cNode "B" "B" none none,
        .cNode "C" "C" none none], true) := by
  rcases h with rfl | rfl
  · decide +kernel
  · decide +kernel

/-- The flow that is built. -/
structure Chosen (first : CommaItem) (built : BuiltFlow) : Prop where
  source : deref built.fmap (some "In") = .source "In" "In" (some "Choose") none
  choice : deref built.fmap (some "Choose") = .chExpr "Choose"
    [([Flow.convertCondPart first], some "A"), ([some "ready"], some "Both")]
  concurrent : deref built.fmap (some "Both") = .conExpr "Both" [some "B", some "C"]
  concrete : ∀ n ∈ ["A", "B", "C"], deref built.fmap (some n) = .cNode n n none none ∧
    ∃ nd, built.symtable.lookupNodeSymbol n = .ok nd ∧ nd.nodeabstract = false
  terminates : built.terminates = []
  returns : returns built "In" = false

theorem exists_chosen {first : CommaItem} (h : first = .star ∨ first = .ident "other") :
    ∃ built, chooseFlow first = .ok built ∧ Chosen first built := by
  obtain ⟨built, hbuilt, hsummary⟩ : ∃ built, chooseFlow first = .ok built ∧ _ := by
    have heq := chooseFlow_eq first h
    cases hflow : chooseFlow first with
    | error e =>
        rw [hflow] at heq
        cases heq
    | ok built =>
        rw [hflow] at heq
        exact ⟨built, rfl, Prod.mk.inj (Except.ok.inj heq)⟩
  obtain ⟨hcells, hconcrete⟩ := hsummary
  simp only [List.map_cons, List.map_nil, List.cons.injEq, and_true] at hcells
  obtain ⟨hsource, hchoice, hboth, ha, hb, hc⟩ := hcells
  simp only [chooseConcrete, Bool.and_eq_true, List.all_eq_true, Bool.not_eq_true',
    List.isEmpty_iff] at hconcrete
  refine ⟨built, hbuilt, hsource, hchoice, hboth, fun n hn => ⟨?_, ?_⟩, hconcrete.1.2, hconcrete.2⟩
  · simp only [List.mem_cons, List.not_mem_nil, or_false] at hn
    rcases hn with rfl | rfl | rfl
    · exact ha
    · exact hb
    · exact hc
  · have habstract := hconcrete.1.1 n hn
    cases hlookup : built.symtable.lookupNodeSymbol n with
    | error e =>
        rw [hlookup] at habstract
        cases habstract
    | ok nd =>
        rw [hlookup] at habstract
        exact ⟨nd, rfl, by simpa [Except.toOption] using habstract⟩

section

variable {first : CommaItem} {built : BuiltFlow}

/-- The choice of the example as a tree. -/
theorem Chosen.tree (h : Chosen first built) {Leaf : String → Prop}
    {Choice : String → List Line → Prop} (hleaf : ∀ n ∈ ["A", "B", "C"], Leaf n)
    (hchoice : Choice "Choose"
      [([Flow.convertCondPart first], some "A"), ([some "ready"], some "Both")]) :
    Tree built.fmap Leaf Choice (some "Choose") := by
  have hconcrete : ∀ n ∈ ["A", "B", "C"], Tree built.fmap Leaf Choice (some n) := by
    intro n hn
    refine .concrete ?_ (hleaf n hn)
    rw [(h.concrete n hn).1]
    rfl
  refine .choice h.choice hchoice ?_
  simp only [List.forall_mem_cons, List.not_mem_nil, false_implies, implies_true, and_true]
  refine ⟨hconcrete "A" (by simp), .concurrent h.concurrent ?_⟩
  simp only [List.forall_mem_cons, List.not_mem_nil, false_implies, implies_true, and_true]
  exact ⟨hconcrete "B" (by simp), hconcrete "C" (by simp)⟩

/-- The choice of the example has declared leaves and written lines. -/
theorem Chosen.tree_written (h : Chosen first built) :
    Tree built.fmap (Declared built) (Written fun _ => [1]) (some "Choose") := by
  refine h.tree (fun n hn => ?_) ⟨by simp, by simp, ?_⟩
  · obtain ⟨nd, hnd, habstract⟩ := (h.concrete n hn).2
    exact ⟨nd, hnd, Or.inr habstract⟩
  · simp only [List.forall_mem_cons, List.not_mem_nil, false_implies, implies_true, and_true]
    refine ⟨?_, Nat.le_refl _⟩
    cases first with
    | star => exact Nat.zero_le _
    | ident s => exact Nat.le_refl _

/-- Behind tests on the only field. -/
theorem Chosen.separated_concrete (h : Chosen first built) {tests : List Test}
    (htests : ∀ t ∈ tests, t.column = 0 ∧ t.field = 1) (n : String) (hn : n ∈ ["A", "B", "C"]) :
    Separated (fun _ => "") built [{ ctypemod := "", ctype := "int", name := "x" }] (fun _ => [1])
      tests 1 (some n) := by
  have hname : concreteName (deref built.fmap (some n)) = some n := by
    rw [(h.concrete n hn).1]
    rfl
  refine .concrete hname (Or.inr (Or.inr fun nd _ t ht => ?_))
  rw [(htests t ht).1, (htests t ht).2]
  rfl

end

/-- The cases of the choice whose first line has no test. -/
def starCases : CaseLists :=
  let ready : Compiler.ConditionElement :=
    { name := "ready", argno := "1", isnegated := "false", unionhash := "" }
  [[⟨"A", []⟩, ⟨"B", [ready]⟩], [⟨"C", [ready]⟩]]

/-- The successors written for the example. -/
theorem emitSuccessorList_star {built : BuiltFlow} (hbuilt : chooseFlow .star = .ok built) :
    emitSuccessorList false false (fun _ => "") [] built 3 "In"
      [{ ctypemod := "", ctype := "int", name := "x" }] =
        .ok [⟨"1", starCases[0]⟩, ⟨"0", starCases[1]⟩] := by
  have hemit : ((chooseFlow .star).toOption.bind fun built =>
      (emitSuccessorList false false (fun _ => "") [] built 3 "In"
        [{ ctypemod := "", ctype := "int", name := "x" }]).toOption) =
      some [⟨"1", starCases[0]⟩, ⟨"0", starCases[1]⟩] := by decide +kernel
  rw [hbuilt] at hemit
  change (emitSuccessorList _ _ _ _ _ _ _ _).toOption = _ at hemit
  cases hlist : emitSuccessorList false false (fun _ => "") [] built 3 "In"
      [{ ctypemod := "", ctype := "int", name := "x" }] with
  | error e =>
      rw [hlist] at hemit
      cases hemit
  | ok l =>
      rw [hlist] at hemit
      exact congrArg Except.ok (Option.some.inj hemit)

/-- The source as the reader creates it. -/
def sourceNode : Reader.Node where
  name := "In"
  functionName := "In"
  isErrorHandler := false
  isSource := true
  isDoor := false
  isDetached := false
  inputUnionHash := ""
  outputUnionHash := ""
  guardRefs := []
  errorHandler := none
  successorList := none

/-- Where the first line has no test, the second one still leads to the second of its nodes. -/
theorem not_routesAs_choose : ∃ built, chooseFlow .star = .ok built ∧
    Tree built.fmap (Declared built) (Written fun _ => [1])
      (succOf (deref built.fmap (some "In"))) ∧
    ¬ RoutesAs (fun _ => "") [] built (fun _ => [1]) "In"
      [{ ctypemod := "", ctype := "int", name := "x" }] := by
  obtain ⟨built, hbuilt, hchosen⟩ := exists_chosen (Or.inl rfl)
  have hsucc : succOf (deref built.fmap (some "In")) = some "Choose" := by
    rw [hchosen.source]
    rfl
  refine ⟨built, hbuilt, hsucc ▸ hchosen.tree_written, ?_⟩
  rintro ⟨depth₀, h⟩
  obtain ⟨successors, hsuccessors, hselects⟩ := h (max depth₀ 3) (le_max_left _ _)
  have hemit := emitSuccessorList_mono (le_max_right depth₀ 3) (emitSuccessorList_star hbuilt)
  obtain rfl := Except.ok.inj (hsuccessors.symm.trans hemit)
  obtain ⟨node', hnode', htargets⟩ := hselects [] sourceNode rfl
  have hread := Reader.readSuccessorList [] false (n := sourceNode) rfl
    (l := [⟨"1", starCases[0]⟩, ⟨"0", starCases[1]⟩]) (by decide)
  obtain rfl := Except.ok.inj (hread.symm.trans hnode')
  have htarget : "C" ∈ Reader.Node.targets { sourceNode with
      successorList := some ([⟨"1", starCases[0]⟩, ⟨"0", starCases[1]⟩].map
        (Reader.successorObject false)) } fun _ => true :=
    mem_targets_successors.mpr ⟨starCases[1][0], ⟨starCases[1], by simp, rfl⟩, rfl⟩
  rcases (htargets _ _).mp htarget with hselected | ⟨hreturns, -⟩
  · rw [hsucc, selects_choice_iff hchosen.choice] at hselected
    obtain ⟨line, hline, hselected⟩ := hselected
    cases hline
    have hconcrete := (hchosen.concrete "A" (by simp)).1
    rw [selects_concrete_iff (n := "A") (by rw [hconcrete]; rfl)] at hselected
    exact absurd hselected.2 (by decide)
  · rw [hchosen.returns] at hreturns
    cases hreturns

/-- Where it has one, the runtime selects what the source says. -/
theorem routesAs_choose : ∃ built, chooseFlow (.ident "other") = .ok built ∧
    RoutesAs (fun _ => "") [] built (fun _ => [1]) "In"
      [{ ctypemod := "", ctype := "int", name := "x" }] := by
  obtain ⟨built, hbuilt, hchosen⟩ := exists_chosen (Or.inr rfl)
  have hsucc : succOf (deref built.fmap (some "In")) = some "Choose" := by
    rw [hchosen.source]
    rfl
  have hseparated : Separated (fun _ => "") built [{ ctypemod := "", ctype := "int", name := "x" }]
      (fun _ => [1]) [] 0 (some "Choose") := by
    refine .choice hchosen.choice ?_ fun i line hline => ?_
    · intro i line hline
      refine Or.inl fun front hfront => ?_
      have hfront := List.mem_of_mem_take hfront
      simp only [List.mem_cons, List.not_mem_nil, or_false] at hfront
      rcases hfront with rfl | rfl
      · exact ⟨"other", by simp [Flow.convertCondPart]⟩
      · exact ⟨"ready", by simp⟩
    · match i, hline with
      | 0, hline =>
          cases hline
          exact hchosen.separated_concrete (by decide) "A" (by simp)
      | 1, hline =>
          cases hline
          refine .concurrent hchosen.concurrent fun succ hsucc => ?_
          simp only [List.mem_cons, List.not_mem_nil, or_false] at hsucc
          rcases hsucc with rfl | rfl
          · exact hchosen.separated_concrete (by decide) "B" (by simp)
          · exact hchosen.separated_concrete (by decide) "C" (by simp)
  exact ⟨built, hbuilt, routesAs_of_separated [] (hsucc ▸ hchosen.tree_written)
    (hsucc ▸ hseparated)⟩

end

end Successors
end Frontend
end OFlux
