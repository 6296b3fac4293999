import Mathlib.Data.Prod.Lex
import Mathlib.Data.List.Sort
import OFlux.Frontend.ConditionArguments
import OFlux.Frontend.Flow
import OFlux.Library.FirstMatch

/-!
# Successors of a node

What the compiler writes for the flow behind a node: a list of successors, each with its cases
in order.  Abstract nodes on the way are resolved: a choice leads to cases with the conditions of
their lines and the negated conditions of the lines in front of them, and the branches of a
concurrent node go to successors of their own.

Main definitions:

- {lit}`genSucc'`: the cases of the successors.
- {lit}`genSucc`: the successors with their names.
- {lit}`emitSuccessorList`: the successor list of a node.
-/

namespace OFlux
namespace Frontend
namespace Successors

open Compiler (CaseElement SuccessorElement XMLConversion)
open ConditionArguments (CanonCondition successorCase)
open OFlux.Frontend.Flow (Node Cell BuiltFlow deref)
open Library FirstMatch

/-- The lists of cases that become successors. -/
abbrev CaseLists := List (List CaseElement)

/-! ## Conditions -/

/-- Drop what repeats the element in front of it. -/
def uniqFrom (h1 : String × Bool) : List (String × Bool) → List (String × Bool)
  | [] => [h1]
  | h2 :: t => if h1 = h2 then uniqFrom h1 t else h1 :: uniqFrom h2 t

/-- {lit}`Uniquify.uniq_discard` -/
def uniqDiscard (l : List (String × Bool)) : List (String × Bool) :=
  match l.insertionSort fun a b => toLex a ≤ toLex b with
  | [] => []
  | h :: t => uniqFrom h t

/-- The conditions of a line. -/
def canonCase (sol : List (Option String)) : CanonCondition :=
  sol.map fun so =>
    match so with
    | none => []
    | some s => [(s, false)]

/-- Both conditions, column by column. -/
def andCanonCondition : CanonCondition → CanonCondition → CanonCondition :=
  zipLongest fun h1 h2 => uniqDiscard (h1 ++ h2)

/-- One of the conditions is negated. -/
def negateCanonCondition : CanonCondition → List CanonCondition
  | [] => []
  | h :: tl =>
      (h.map fun condition => [(condition.1, !condition.2)] :: tl) ++
        (negateCanonCondition tl).map fun c => [] :: c

/-- The column asks for a condition and for its negation. -/
def oneFalse : List (String × Bool) → Bool
  | (h, neg) :: t => t.contains (h, !neg) || oneFalse t
  | [] => false

/-- Some column contradicts itself. -/
def isConditionAlwaysFalse (c : CanonCondition) : Bool :=
  c.any oneFalse

/-! ## Cases -/

/-- The nominal condition of a choice with such lines. -/
def condunitOf (sol : List (Option String)) : CanonCondition :=
  sol.map fun _ => []

/-- The negation of a line; one without conditions has none. -/
def negatedLine (choiceName : String) (condunit ccond : CanonCondition) :
    Except XMLConversion CanonCondition :=
  match negateCanonCondition ccond with
  | [] => .ok condunit
  | [x] => .ok x
  | _ => .error ("not - implemented - talk to Mark " ++ choiceName)

/-- One line of a choice, under the negations of the lines in front of it. -/
def onfold (gen : CanonCondition → Cell → Except XMLConversion CaseLists) (choiceName : String)
    (condunit ccond : CanonCondition) (st : CanonCondition × List CaseLists)
    (line : List (Option String) × Cell) :
    Except XMLConversion (CanonCondition × List CaseLists) := do
  let negated ← negatedLine choiceName condunit (canonCase line.1)
  let ccondlocal := [ccond, canonCase line.1, st.1].foldl andCanonCondition condunit
  let part ← gen ccondlocal line.2
  return (andCanonCondition st.1 negated, part :: st.2)

section

variable (abstractTermination exclusiveTests : Bool)
-- the digest of a parameter list without its positions
variable (digest : List StrippedDf → String)
variable (br : BuiltFlow) (nOutDfl : List DeclFormal)

/-- {lit}`SymbolTable.lookup_node_symbol` -/
def lookupNode (n : String) : Except XMLConversion NodeData :=
  match br.symtable.lookupNodeSymbol n with
  | .ok nd => .ok nd
  | .error _ => .error "Not_found"

/-- The node has no function of its own. -/
def isAbstract (n : String) : Except XMLConversion Bool := do
  return (← lookupNode br n).nodeabstract

/-- The parameters that the arguments of a condition are looked up in. -/
def targetInputs (n : String) (nargs : Nat) : Except XMLConversion (List DeclFormal) :=
  if nargs = nOutDfl.length then .ok nOutDfl
  else do return (← lookupNode br n).nodeinputs

/-- Flows end at the node, so that it gets no case. -/
def isTerminal (n : String) : Except XMLConversion Bool :=
  if abstractTermination then do return (← isAbstract br n) || n ∈ br.terminates
  else .ok (n ∈ br.terminates)

/-- The case of a node, if its condition can hold. -/
def emitCase (n : String) (inputs : List DeclFormal) (ccond : CanonCondition) :
    Except XMLConversion CaseLists := do
  if ← isAbstract br n then throw ("the node " ++ n ++ " is abstract, but it is not defined")
  else if isConditionAlwaysFalse ccond then return []
  else return [[← successorCase digest n inputs nOutDfl ccond]]

/-- The case for a concrete node, unless it is a terminal one that is not written. -/
def sfun (n : String) (ccond : CanonCondition) : Except XMLConversion CaseLists := do
  let inputs ← targetInputs br nOutDfl n ccond.length
  let ist ← isTerminal abstractTermination br n
  if ist then return [] else emitCase digest br nOutDfl n inputs ccond

/-- Put the parts of a choice together, the last one first. -/
def combine (parts : List CaseLists) : CaseLists :=
  if exclusiveTests then parts.foldl (· ++ ·) [[]] else parts.foldl mergeBefore [[]]

/-- On a stack of a given depth. -/
def genSucc' : Nat → CanonCondition → Node → Except XMLConversion CaseLists
  | 0, _, _ => .error "Stack_overflow"
  | depth + 1, ccond, fl =>
      match fl with
      | .source n _ _ _ | .cNode n _ _ _ => sfun abstractTermination digest br nOutDfl n ccond
      | .chExpr _ [] => .error "hd"
      | .chExpr choiceName (line :: lines) => do
          let condunit := condunitOf line.1
          let gen := fun ccond cell => genSucc' depth ccond (deref br.fmap cell)
          let st ← (line :: lines).foldlM (onfold gen choiceName condunit ccond) (condunit, [])
          return combine exclusiveTests st.2
      | .conExpr _ succs => do
          return (← succs.mapM fun cell => genSucc' depth ccond (deref br.fmap cell)).flatten
      | .nullNode => .ok []

end

/-! ## Names -/

/-- The parts of a name between its dots. -/
def breakDottedName (nsn : String) : List String :=
  (nsn.toList.splitOn '.').map String.ofList

/-- The counters of the name spaces. -/
abbrev IMap := List (String × Nat)

/-- The next number in a namespace. -/
def getIv (imap : IMap) (ns : String) : IMap × Nat :=
  match imap.find? fun e => e.1 = ns with
  | some e => (imap.map fun e => if e.1 = ns then (ns, e.2 + 1) else e, e.2 + 1)
  | none => ((ns, 0) :: imap, 0)

/-- The name of a successor: its namespace and its number. -/
def succName (ns : String) (i : Nat) : String :=
  (if ns.length > 0 then ns ++ "." else "") ++ Nat.repr i

section

variable (usesmodel : List (String × String)) (symtable : SymbolTable)

/-- Of two namespaces the one that is used by the other. -/
def minNs (ns1 ns2 : String) : String :=
  if (ns1, ns2) ∈ usesmodel ∨ (ns1, "") ∈ usesmodel ∧ ("", ns2) ∈ usesmodel then ns2 else ns1

/-- The module that a node comes from. -/
def getNs (str : String) : String :=
  let ns :=
    match breakDottedName str with
    | h :: _ :: _ => h
    | _ => ""
  match symtable.lookupModuleInstance ns with
  | .ok mid => mid.modulesource
  | .error _ => ns

/-- The namespace that all targets of a successor can be used from. -/
def findEarliestNs : Option String → List CaseElement → String
  | none, c :: t => findEarliestNs (some (getNs symtable c.nodetarget)) t
  | some ns, c :: t => findEarliestNs (some (minNs usesmodel ns (getNs symtable c.nodetarget))) t
  | some ns, [] => ns
  | none, [] => ""

/-- A successor with its name. -/
def makeSuccessor (imap : IMap) (caselist : List CaseElement) : SuccessorElement × IMap :=
  let ns := findEarliestNs usesmodel symtable none caselist.reverse
  let (imap, i) := getIv imap ns
  ({ name := succName ns i, cases := caselist }, imap)

/-- An empty list of cases makes no successor. -/
def foldfun (st : List SuccessorElement × IMap) (s : List CaseElement) :
    List SuccessorElement × IMap :=
  if s = [] then st
  else
    let (r, imap) := makeSuccessor usesmodel symtable st.2 s
    (r :: st.1, imap)

/-- The successors from their cases, from the last one to the first one. -/
def nameSuccessors (caseLists : CaseLists) : List SuccessorElement :=
  (caseLists.reverse.foldl (foldfun usesmodel symtable) ([], [])).1

end

/-! ## Successor lists -/

section

variable (abstractTermination exclusiveTests : Bool)
variable (digest : List StrippedDf → String)
variable (usesmodel : List (String × String)) (br : BuiltFlow)

/-- The successors of a node under a condition, with their names. -/
def genSucc (depth : Nat) (nOutDfl : List DeclFormal) (ccond : CanonCondition) (fl : Node) :
    Except XMLConversion (List SuccessorElement) := do
  return nameSuccessors usesmodel br.symtable
    (← genSucc' abstractTermination exclusiveTests digest br nOutDfl depth ccond fl)

/-- A source that runs again and again leads to itself. -/
def returns (n : String) : Bool :=
  n ∉ br.doorsources ∧ n ∈ br.sources ∧ n ∉ br.runoncesources

/-- The one successor of a source. -/
def erste (n : String) : SuccessorElement where
  name := "erste"
  cases := [{ nodetarget := n, conditions := [] }]

/-- The successor of a node that is not abstract. -/
def succOf : Node → Cell
  | .source _ _ succ _ | .cNode _ _ succ _ => succ
  | _ => none

/-- The successor list of a node with an output. -/
def emitSuccessorList (depth : Nat) (n : String) (nOutDfl : List DeclFormal) :
    Except XMLConversion (List SuccessorElement) := do
  let succ := deref br.fmap (succOf (deref br.fmap (some n)))
  let successors ←
    genSucc abstractTermination exclusiveTests digest usesmodel br depth nOutDfl [] succ
  return successors ++ if returns br n then [erste n] else []

end

end Successors
end Frontend
end OFlux
