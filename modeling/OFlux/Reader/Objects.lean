import OFlux.Library.KeyedList

/-!
# What the reader builds

Flows as the reader builds them from XML: guards, nodes with their guard references, error
handlers and successors, and cases with conditions.  A function that is looked up stands
for the names it is looked up by, so that a valuation gives every condition function a
result of its own.

Main results:

- Theorem {lit}`Successor.getSuccessor_append`: a successor tries its cases in order.
- Theorem {lit}`Node.mem_targets_iff`: what a node selects.
-/

namespace OFlux
namespace Reader

open Library

/-- A condition function, by what it is looked up by. -/
structure ConditionFn where
  name : String
  argno : String
  unionhash : String
deriving DecidableEq

/-- The results of the condition functions for the output of a node. -/
abbrev Valuation := ConditionFn → Bool

/-- A condition function, perhaps negated. -/
structure Condition where
  condfn : ConditionFn
  isNegated : Bool
deriving DecidableEq

/-- The condition on an output that the functions judge by `v`. -/
def Condition.satisfied (c : Condition) (v : Valuation) : Bool :=
  if v c.condfn then !c.isNegated else c.isNegated

/-- A target with the conditions that lead to it. -/
structure Case where
  targetName : String
  conditions : List Condition
deriving DecidableEq

/-- All conditions of the case hold. -/
def Case.satisfied (c : Case) (v : Valuation) : Bool :=
  c.conditions.all fun condition => condition.satisfied v

/-- Adds a condition at the end. -/
def Case.add (c : Case) (condition : Condition) : Case :=
  { c with conditions := c.conditions ++ [condition] }

/-! ## Successors -/

/-- The cases of which the first satisfied one is taken. -/
structure Successor where
  name : String
  cases : List Case
deriving DecidableEq

namespace Successor

/-- Adds a case, in front or at the end. -/
def add (s : Successor) (c : Case) (front : Bool) : Successor :=
  { s with cases := if front then c :: s.cases else s.cases ++ [c] }

/-- The first satisfied case. -/
def getSuccessor (s : Successor) (v : Valuation) : Option Case :=
  s.cases.find? fun flowcase => flowcase.satisfied v

@[simp]
theorem add_name (s : Successor) (c : Case) (front : Bool) : (s.add c front).name = s.name :=
  rfl

/-- A successor tries its cases in order. -/
theorem getSuccessor_append (name : String) (l m : List Case) (v : Valuation) :
    getSuccessor ⟨name, l ++ m⟩ v =
      (getSuccessor ⟨name, l⟩ v).or (getSuccessor ⟨name, m⟩ v) :=
  List.find?_append

end Successor

/-- The successors under their names; their order does not matter, all of them are tried. -/
abbrev SuccessorList := List Successor

namespace SuccessorList

/-- {lit}`std::map::insert`, which keeps what is stored. -/
def add (sl : SuccessorList) (s : Successor) : SuccessorList :=
  KeyedList.insert Successor.name sl s

/-- The successor of a name. -/
def getSuccessor (sl : SuccessorList) (name : String) : Option Successor :=
  KeyedList.find Successor.name name sl

/-- The case that each successor takes. -/
def getSuccessors (sl : SuccessorList) (v : Valuation) : List Case :=
  sl.filterMap fun s => s.getSuccessor v

end SuccessorList

/-! ## Nodes -/

/-- A guard reference, with what its translator function is looked up by.  The guard is null
if the flow does not have it. -/
structure GuardReference where
  guard : Option String
  name : String
  unionhash : String
  hash : String
  wtype : String
  isLate : Bool
deriving DecidableEq

/-- A node of the flow with its guards and successors. -/
structure Node where
  name : String
  functionName : String
  isErrorHandler : Bool
  isSource : Bool
  isDoor : Bool
  isDetached : Bool
  inputUnionHash : String
  outputUnionHash : String
  guardRefs : List GuardReference
  errorHandler : Option String
  successorList : Option SuccessorList
deriving DecidableEq

namespace Node

/-- The cases selected after an execution without an error. -/
def getSuccessors (n : Node) (v : Valuation) : List Case :=
  match n.successorList with
  | some sl => sl.getSuccessors v
  | none => []

/-- The names of the nodes that are selected. -/
def targets (n : Node) (v : Valuation) : List String :=
  (n.getSuccessors v).map Case.targetName

/-- The targets of a node are those of its successors. -/
theorem mem_targets_iff {n : Node} {sl : SuccessorList} (h : n.successorList = some sl)
    {v : Valuation} {t : String} :
    t ∈ n.targets v ↔ ∃ s ∈ sl, (s.getSuccessor v).map Case.targetName = some t := by
  simp only [targets, getSuccessors, h, SuccessorList.getSuccessors, List.mem_map,
    List.mem_filterMap, Option.map_eq_some_iff]
  constructor
  · rintro ⟨c, ⟨s, hs, hc⟩, ht⟩
    exact ⟨s, hs, c, hc, ht⟩
  · rintro ⟨s, hs, c, hc, ht⟩
    exact ⟨c, ⟨s, hs, hc⟩, ht⟩

end Node

/-! ## Flows -/

/-- The guards, their order and the nodes of a flow. -/
structure Flow where
  guards : List String
  precedences : List (String × String)
  nodes : List Node
deriving DecidableEq

namespace Flow

/-- The flow before anything is read. -/
def empty : Flow where
  guards := []
  precedences := []
  nodes := []

/-- Adds a guard by its name. -/
def addGuard (f : Flow) (name : String) : Flow :=
  { f with guards := KeyedList.insert id f.guards name }

/-- Notes that one guard comes before another. -/
def addGuardPrecedence (f : Flow) (before after : String) : Flow :=
  { f with precedences := f.precedences ++ [(before, after)] }

/-- {lit}`pc_add` for a node, which keeps the node stored under a name. -/
def addNode (f : Flow) (n : Node) : Flow :=
  { f with nodes := KeyedList.insert Node.name f.nodes n }

/-- The node of a name. -/
def getNode (f : Flow) (name : String) : Option Node :=
  KeyedList.find Node.name name f.nodes

/-- The node stored under the name of another one, changed in place. -/
def setNode (f : Flow) (n : Node) : Flow :=
  { f with nodes := KeyedList.replace Node.name f.nodes n }

/-- Every target is a node, and every error handler is a node with that property. -/
def Resolved (f : Flow) : Prop :=
  (∀ n ∈ f.nodes, ∀ s ∈ n.successorList.getD [], ∀ c ∈ s.cases,
      (f.getNode c.targetName).isSome) ∧
    ∀ n ∈ f.nodes, ∀ e ∈ n.errorHandler, (f.getNode e).any Node.isErrorHandler

instance (f : Flow) : Decidable f.Resolved :=
  inferInstanceAs (Decidable (_ ∧ _))

end Flow

end Reader
end OFlux
