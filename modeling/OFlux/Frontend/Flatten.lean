import OFlux.Frontend.Unify
import OFlux.Library.Fallible

/-!
# Flattening

A program with modules and plugins becomes one without: every instance of a module
contributes the declarations of the module under prefixed names, guards that are identified
with guards of the surrounding program give way to those, and a plugin is appended to the
program under the prefix of its name.

Modules may hold instances of each other, so the recursion need not end; it runs on a stack of
a given depth.

Main definitions:

- {lit}`flatten`: the program without modules.
- {lit}`flattenModule`: what is compiled for a module.
-/

namespace OFlux
namespace Frontend
namespace Flatten

open TypeCheck (assoc partition onNotFound)
open Library.Fallible (bind_eq_ok foldlM_invariant)

/-! ## Reductions -/

/-- An expression that adds a successor to another one, by a leading ampersand. -/
def isReduction (exp : Expr) : Except Exn Bool :=
  match exp.exprname.toList with
  | [] => .error (.invalidArgument "index out of bounds")
  | c :: _ => .ok (c = '&')

/-- The name of the expression that a reduction adds to, without the ampersand. -/
def toExprname (e : Expr) : String :=
  String.ofList (e.exprname.toList.drop 1)

/-- Why a reduction cannot be put into an expression. -/
def reductionFailure : Exn :=
  .flattenFailure ("reduction statement here has no original expression or it is not unique " ++
    "\n\tor its not the right type of expression" ++
    "\n\t (ensure the hook point node is not choice point and has only a single successor)")

/-- The expression that a reduction is about, and the others. -/
def reducedExpr (ename : String) (ll : List Expr) : Except Exn (Expr × List Expr) :=
  match ll.partition fun e => e.exprname = ename with
  | ([x], y) => .ok (x, y)
  | ([], y) => .ok (⟨ename, [], [], .concurrent⟩, y)
  | _ => .error .notFound

/-- A reduction needs a concurrent expression, or one with at most one successor. -/
def checkReduced (expr : Expr) : Except Exn Unit :=
  match expr.etype, expr.successors with
  | .concurrent, _ => .ok ()
  | _, [] => .ok ()
  | _, [_] => .ok ()
  | _, _ => .error .notFound

/-- Put the successors of one reduction into the expression of its name. -/
def putIn (ll : List Expr) (ampexpr : Expr) : Except Exn (List Expr) :=
  onNotFound
    (do
      let (expr, remainder) ← reducedExpr (toExprname ampexpr) ll
      checkReduced expr
      return { expr with
        successors := ampexpr.successors ++ expr.successors
        etype := .concurrent } :: remainder)
    (.error reductionFailure)

/-- Put every reduction into its expression. -/
def removeReductions (prog : Program) : Except Exn Program := do
  let (ampers, otherwise) ← partition isReduction prog.exprList
  let exprs ← ampers.foldlM putIn otherwise
  return { prog with exprList := exprs }

/-! ## Modules -/

/-- The module with that name, and the prefix under which it was declared. -/
def findModDef (modl : List (String × ModDef)) (modn : String) :
    Except Exn (String × Bool × Program) :=
  match modl.find? fun (_, md) => md.modulename = modn with
  | some (pre, md) => .ok (pre, md.isstaticmodule, md.programdef)
  | none => .error (.flattenFailure ("cannot find module " ++ modn))

/-- A namespace that a name can be put behind. -/
def properNameSpace (mp : String) : Bool :=
  mp = "" || mp.toList.getLast? = some ':'

/-- The guard that an instance of a module protects its own data with. -/
def selfAtom (ip mp : String) : AtomDecl where
  atomname := ip ++ "self"
  outputtype := { dctypemod := "", dctype := mp ++ "ModuleConfig *" }
  atomtype := "readwrite"

/-- The guard that stands for the instance itself; a static module has none. -/
def addAtomDecl (ip mp : String) (issm : Bool) (pr : Program) : Except Exn Program :=
  if properNameSpace mp then
    .ok { pr with atomDeclList := if issm then pr.atomDeclList
                                  else selfAtom ip mp :: pr.atomDeclList }
  else .error (.flattenFailure ("internal - " ++ mp ++ " bad namespace"))

/-- A node that changes its instance writes, and any other node reads. -/
def selfGuardRef (nd : NodeDecl) : GuardRef where
  guardname := "self"
  modifiers := [if nd.ismutable then .write else .read]

/-- A concrete node of a module refers to the guard of its instance. -/
def addSelfGuardref (nd : NodeDecl) : NodeDecl :=
  { nd with
    ismutable := false
    guardrefs := nd.guardrefs ++ if nd.isAbstract then [] else [selfGuardRef nd] }

/-- All nodes of a module refer to the guard of their instance. -/
def addSelfGuardrefs (pr : Program) : Program :=
  { pr with nodeDeclList := pr.nodeDeclList.map addSelfGuardref }

/-! ## Two programs together -/

/-- What is declared external has to be there. -/
def checkExternal (what : String) (declared external : List String) : Except Exn Unit :=
  external.forM fun ename =>
    if ename ∈ declared then .ok ()
    else .error (.flattenFailure ("external " ++ what ++ " " ++ ename ++ " not found"))

/-- A guard, or what the other program declares about it. -/
def keepExt (extl : List AtomDecl) (h : AtomDecl) : AtomDecl :=
  (extl.find? fun n => n.atomname = h.atomname).getD h

/-- Join the declarations of two programs; external ones have to be met by the others. -/
def programAppend (keepextatoms : Bool) (pr1 pr2 : Program) : Except Exn Program := do
  let (extNodes1, nodes1) := pr1.nodeDeclList.partition (·.externalnode)
  let (extNodes2, nodes2) := pr2.nodeDeclList.partition (·.externalnode)
  let (extAtoms1, atoms1) := pr1.atomDeclList.partition (·.externalatom)
  let (extAtoms2, atoms2) := pr2.atomDeclList.partition (·.externalatom)
  let (extInst1, inst1) := pr1.modInstList.partition (·.externalinst)
  let (extInst2, inst2) := pr2.modInstList.partition (·.externalinst)
  checkExternal "module instance" (inst1.map (·.modinstname)) (extInst2.map (·.modinstname))
  checkExternal "module instance" (inst2.map (·.modinstname)) (extInst1.map (·.modinstname))
  checkExternal "node reference" (nodes1.map (·.nodename)) (extNodes2.map (·.nodename))
  checkExternal "node reference" (nodes2.map (·.nodename)) (extNodes1.map (·.nodename))
  checkExternal "guard reference" (atoms1.map (·.atomname)) (extAtoms2.map (·.atomname))
  checkExternal "guard reference" (atoms2.map (·.atomname)) (extAtoms1.map (·.atomname))
  return {
    condDeclList := pr1.condDeclList ++ pr2.condDeclList
    atomDeclList := if keepextatoms then atoms1.map (keepExt extAtoms2) ++
                      atoms2.map (keepExt extAtoms1)
                    else atoms1 ++ atoms2
    nodeDeclList := nodes1 ++ nodes2
    mainfunList := pr1.mainfunList ++ pr2.mainfunList
    exprList := pr1.exprList ++ pr2.exprList
    errList := pr1.errList ++ pr2.errList
    modDefList := pr1.modDefList ++ pr2.modDefList
    modInstList := inst1 ++ inst2
    pluginList := pr1.pluginList ++ pr2.pluginList
    pluginDependList := pr1.pluginDependList ++ pr2.pluginDependList
    terminateList := pr1.terminateList ++ pr2.terminateList
    orderDeclList := pr1.orderDeclList ++ pr2.orderDeclList }

/-- What the programs contribute to the one that they are appended to; external nodes give way
to those they stand for. -/
structure Appended (pr1 pr2 pr : Program) : Prop where
  condDeclList : pr.condDeclList = pr1.condDeclList ++ pr2.condDeclList
  nodeDeclList : pr.nodeDeclList = pr1.nodeDeclList.filter (! ·.externalnode) ++
    pr2.nodeDeclList.filter (! ·.externalnode)
  exprList : pr.exprList = pr1.exprList ++ pr2.exprList
  orderDeclList : pr.orderDeclList = pr1.orderDeclList ++ pr2.orderDeclList

/-- Appending two programs appends their parts. -/
theorem programAppend_eq_ok {keepextatoms : Bool} {pr1 pr2 pr : Program}
    (h : programAppend keepextatoms pr1 pr2 = .ok pr) : Appended pr1 pr2 pr := by
  unfold programAppend at h
  simp only [List.partition_eq_filter_filter] at h
  obtain ⟨_, _, h⟩ := bind_eq_ok.mp h
  obtain ⟨_, _, h⟩ := bind_eq_ok.mp h
  obtain ⟨_, _, h⟩ := bind_eq_ok.mp h
  obtain ⟨_, _, h⟩ := bind_eq_ok.mp h
  obtain ⟨_, _, h⟩ := bind_eq_ok.mp h
  obtain ⟨_, _, h⟩ := bind_eq_ok.mp h
  cases h
  exact ⟨rfl, rfl, rfl, rfl⟩

/-! ## Identified guards -/

/-- Another guard in the place of one, with the old name kept as a local one. -/
def substGuardref (gr : GuardRef) (sub : String × String) : GuardRef :=
  if gr.guardname = sub.1 then
    { gr with
      guardname := sub.2
      localgname := some (gr.localgname.getD gr.guardname) }
  else gr

/-- Substitute in every reference, one substitution after another. -/
def substGuardrefs (subst : List (String × String)) (grl : List GuardRef) : List GuardRef :=
  grl.map fun gr => subst.foldl substGuardref gr

/-- Substitute one guard name. -/
def substName (gn : String) (sub : String × String) : String :=
  if gn = sub.1 then sub.2 else gn

/-- Substitute in both guards of a precedence. -/
def substOrderDecl (subst : List (String × String)) (order : String × String) :
    String × String :=
  (subst.foldl substName order.1, subst.foldl substName order.2)

/-- Keep the guards that are not identified with others; this turns the list around. -/
def removeSubstDecl (gsubst : List (String × String)) (ll : List AtomDecl) (ad : AtomDecl) :
    List AtomDecl :=
  match gsubst.lookup ad.atomname with
  | some _ => ll
  | none => ad :: ll

/-- Substitute in a whole program; the guards that are replaced are not declared. -/
def applyGuardrefSubst (gsubst : List (String × String)) (pr : Program) : Program :=
  { pr with
    atomDeclList := pr.atomDeclList.foldl (removeSubstDecl gsubst) []
    nodeDeclList := pr.nodeDeclList.map fun nd =>
      { nd with guardrefs := substGuardrefs gsubst nd.guardrefs }
    orderDeclList := pr.orderDeclList.map (substOrderDecl gsubst) }

/-- The aliases of an instance, in front of those that are known. -/
def getNewSubst (ipn : String) (oldSubst guardaliases : List (String × String)) :
    List (String × String) :=
  guardaliases.map (fun (x, y) => (ipn ++ x, y)) ++ oldSubst

/-- {lit}`unify_atoms`: a guard can stand for another one of the same type. -/
def unifyAtoms (weakUnification : Bool) (a1 a2 : AtomDecl) : Except Exn Unit :=
  match Unify.unifyTypeInOut weakUnification a1.atominputs a2.atominputs with
  | .success .strong =>
      if a1.outputtype = a2.outputtype then .ok ()
      else .error (.flattenFailure "could not unify guard types (output type)")
  | .success .weak =>
      .error (.flattenFailure "could not unify guard types (they unify only weakly)")
  | .fail i reason => .error (.flattenFailure
      ("could not unify guard types (argument" ++ toString i ++ " " ++ reason ++ ")"))

/-- The declaration of a guard. -/
def findAtom (name : String) (ads : List AtomDecl) : Except Exn AtomDecl :=
  match ads.find? fun h => h.atomname = name with
  | some h => .ok h
  | none => .error (.flattenFailure ("can't find guard reference " ++ name))

/-- Each alias stands for a guard with the same parameters and the same value. -/
def checkAtomAssignment (weakUnification : Bool) (localAds externalAds : List AtomDecl)
    (guardaliases : List (String × String)) : Except Exn Unit :=
  guardaliases.forM fun (x, y) => do
    let adLocal ← findAtom x localAds
    let adExternal ← findAtom y externalAds
    unifyAtoms weakUnification adLocal adExternal

/-! ## Prefixes -/

/-- {lit}`prefix_sp`: a leading ampersand stays in front. -/
def prefixSp (pre s : String) : String :=
  match s.toList with
  | '&' :: rest => "&" ++ pre ++ String.ofList rest
  | _ => pre ++ s

/-- A condition of a module under its prefix. -/
def forCondDecl (preMd : String) (cd : CondDecl) : CondDecl :=
  { cd with
    condname := preMd ++ cd.condname
    condfunction := preMd ++ cd.condfunction }

/-- A precedence of an instance under its prefix. -/
def forOrderDecl (preMi : String) (order : String × String) : String × String :=
  (prefixSp preMi order.1, prefixSp preMi order.2)

/-- A guard of an instance under its prefix. -/
def forAtomDecl (preMi : String) (ad : AtomDecl) : AtomDecl :=
  { ad with atomname := prefixSp preMi ad.atomname }

/-- Only the mentions of other guards get the prefix. -/
def prefixGarg (p : String) : UninterpExpr → UninterpExpr
  | .gArg ga => .gArg (p ++ ga)
  | x => x

/-- A reference of an instance, with the guards that it mentions, under its prefix. -/
def forGuardRef (preMi : String) (gr : GuardRef) : GuardRef where
  guardname := prefixSp preMi gr.guardname
  arguments := gr.arguments.map fun uel => uel.map (prefixGarg preMi)
  modifiers := gr.modifiers
  localgname := gr.localgname.map (prefixSp preMi)
  guardcond := gr.guardcond.map (prefixGarg preMi)

/-- A node has the prefix of the instance, and its function that of the module. -/
def forNodeDecl (preMi preMd : String) (nd : NodeDecl) : NodeDecl :=
  { nd with
    nodename := prefixSp preMi nd.nodename
    nodefunction := preMd ++ nd.nodefunction
    guardrefs := nd.guardrefs.map (forGuardRef preMi) }

/-- A source has the prefix of the instance, and its function that of the module. -/
def forMainfun (preMi preMd : String) (mf : MainFun) : MainFun :=
  { mf with
    sourcename := prefixSp preMi mf.sourcename
    sourcefunction := preMd ++ mf.sourcefunction
    successor := mf.successor.map (prefixSp preMi) }

/-- A condition in an expression under the prefix of the module. -/
def forCommaItem (preMd : String) : CommaItem → CommaItem
  | .star => .star
  | .ident sp => .ident (prefixSp preMd sp)

/-- An expression of an instance under its prefix. -/
def forExpr (preMi preMd : String) (exp : Expr) : Expr :=
  { exp with
    exprname := prefixSp preMi exp.exprname
    condbinding := exp.condbinding.map (forCommaItem preMd)
    successors := exp.successors.map (prefixSp preMi) }

/-- An error handler of an instance under its prefix. -/
def forErr (preMi : String) (err : Err) : Err where
  onnodes := err.onnodes.map (prefixSp preMi)
  handler := prefixSp preMi err.handler

/-! ## Implicit orderings -/

/-- The name under which the keys of a node refer to a guard of it. -/
def GuardRef.localName (gr : GuardRef) : String :=
  gr.localgname.getD gr.guardname

/-- The guards that the key and the condition of a reference mention. -/
def GuardRef.gargs (gr : GuardRef) : List String :=
  (gr.guardcond :: gr.arguments).flatten.filterMap fun
    | .gArg ga => some ga
    | _ => none

/-- What a key mentions is acquired before. -/
def implicitOrderings (nd : NodeDecl) : Except Exn (List (String × String)) := do
  let lgnMap := nd.guardrefs.map fun gr => (GuardRef.localName gr, gr.guardname)
  let orders ← nd.guardrefs.mapM fun gr =>
    (GuardRef.gargs gr).mapM fun ga => do
      return (← assoc ga lgnMap, gr.guardname)
  return orders.flatten

/-- The orders of guards that the nodes ask for by mentioning one guard in another. -/
def getImplicitGrOrderings (ndl : List NodeDecl) : Except Exn (List (String × String)) := do
  return (← ndl.mapM implicitOrderings).flatten

/-- {lit}`uniq_discard` on sorted pairs. -/
def discardRepeated : List (String × String) → List (String × String)
  | h1 :: h2 :: t =>
      if h1 = h2 then discardRepeated (h1 :: t)
      else h1 :: discardRepeated (h2 :: t)
  | ll => ll
termination_by ll => ll.length

/-- The pairs in order, each of them once. -/
def uniqStrPosedPairs (ll : List (String × String)) : List (String × String) :=
  discardRepeated (ll.insertionSort fun x y => toLex x ≤ toLex y)

/-! ## The program without modules -/

/-- {lit}`for_program`: the declarations of one instance. -/
def forProgram (preMi preMd : String) (pr : Program) : Except Exn Program := do
  let implicitOdl ← getImplicitGrOrderings pr.nodeDeclList
  return {
    condDeclList := pr.condDeclList.map (forCondDecl preMd)
    atomDeclList := pr.atomDeclList.map (forAtomDecl preMi)
    nodeDeclList := pr.nodeDeclList.map (forNodeDecl preMi preMd)
    mainfunList := pr.mainfunList.map (forMainfun preMi preMd)
    exprList := pr.exprList.map (forExpr preMi preMd)
    errList := pr.errList.map (forErr preMi)
    terminateList := pr.terminateList.map (prefixSp preMi)
    orderDeclList := uniqStrPosedPairs
      ((pr.orderDeclList ++ implicitOdl).map (forOrderDecl preMi)) }

/-- What is left of an external instance: its declarations, as external ones. -/
def hollowOut (pr : Program) : Program where
  condDeclList := pr.condDeclList
  atomDeclList := pr.atomDeclList.map fun at' => { at' with externalatom := true }
  nodeDeclList := pr.nodeDeclList.map fun nd => { nd with externalnode := true }
  modDefList := pr.modDefList
  modInstList := pr.modInstList.map fun mi => { mi with externalinst := true }
  pluginDependList := pr.pluginDependList

/-- The namespace of a module inside of that of its instance. -/
def namespacePrefix (srcname mp : String) : String :=
  let mp := srcname ++ "::" ++ mp
  if properNameSpace mp then mp else mp ++ "::"

/-- The part of {lit}`oninst` after the recursive call. -/
def joinInst (ip mp : String) (isstaticmod : Bool) (gsubst : List (String × String))
    (externalinst : Bool) (prSofar moddefpr : Program) : Except Exn Program := do
  let moddefpr := applyGuardrefSubst gsubst moddefpr
  let moddefpr := if externalinst then hollowOut moddefpr else moddefpr
  addAtomDecl ip mp isstaticmod (← programAppend true prSofar moddefpr)

/-- An instance is prefixed, substituted and appended. -/
theorem joinInst_eq_ok {ip mp : String} {isstaticmod externalinst : Bool}
    {gsubst : List (String × String)} {prSofar moddefpr pr : Program}
    (h : joinInst ip mp isstaticmod gsubst externalinst prSofar moddefpr = .ok pr) :
    Appended prSofar
      (if externalinst then hollowOut (applyGuardrefSubst gsubst moddefpr)
        else applyGuardrefSubst gsubst moddefpr) pr := by
  unfold joinInst at h
  obtain ⟨both, happend, h⟩ := bind_eq_ok.mp h
  have happended := programAppend_eq_ok happend
  unfold addAtomDecl at h
  split at h
  · cases h
    exact ⟨happended.condDeclList, happended.nodeDeclList, happended.exprList,
      happended.orderDeclList⟩
  · cases h

section
variable (weakUnification : Bool)

/-- {lit}`oninst`: add an instance, whose own instances {lit}`flt` adds. -/
def oninst (flt : String → String → List (String × ModDef) → List (String × String) →
      Program → Except Exn Program)
    (modl : List (String × ModDef)) (gsubst : List (String × String)) (instPath : String)
    (prSofar : Program) (mi : ModInst) : Except Exn Program := do
  let (mp, isstaticmod, moddefpr) ← findModDef modl mi.modsourcename
  let guardaliases := mi.guardaliases.map fun (glocal, gglobal) => (glocal, instPath ++ gglobal)
  checkAtomAssignment weakUnification moddefpr.atomDeclList prSofar.atomDeclList guardaliases
  let moddefpr := if isstaticmod then moddefpr else addSelfGuardrefs moddefpr
  let ip := instPath ++ mi.modinstname ++ "."
  let gsubst := getNewSubst ip gsubst guardaliases
  let mp := namespacePrefix mi.modsourcename mp
  let moddefpr ← flt ip mp modl gsubst moddefpr
  joinInst ip mp isstaticmod gsubst mi.externalinst prSofar moddefpr

/-- Add all instances of a program, and those inside of them. -/
def flt : Nat → String → String → List (String × ModDef) → List (String × String) → Program →
    Except Exn Program
  | 0, _, _, _, _, _ => .error .stackOverflow
  | depth + 1, instPath, modPath, modl, gsubst, pr => do
      let modl := pr.modDefList.map (fun md => (modPath, md)) ++ modl
      let start ← forProgram instPath modPath pr
      pr.modInstList.foldlM (oninst weakUnification (flt depth) modl gsubst instPath) start

/-- The program without reductions, modules and instances. -/
def flatten (depth : Nat) (prog : Program) : Except Exn Program := do
  flt weakUnification depth "" "" [] [] (← removeReductions prog)

/-- What holds of the declarations of one instance and is kept by joining two programs holds of
the program without modules. -/
theorem flt_invariant {P : Program → Prop}
    (hstart : ∀ ip mp pr pr', forProgram ip mp pr = .ok pr' → P pr')
    (hjoin : ∀ ip mp issm gsubst ext prSofar moddefpr pr, P prSofar → P moddefpr →
      joinInst ip mp issm gsubst ext prSofar moddefpr = .ok pr → P pr) {depth : Nat}
    {ip mp : String} {modl : List (String × ModDef)} {gsubst : List (String × String)}
    {pr flat : Program} (h : flt weakUnification depth ip mp modl gsubst pr = .ok flat) :
    P flat := by
  induction depth generalizing ip mp modl gsubst pr flat with
  | zero => cases h
  | succ depth ih =>
      rw [flt] at h
      obtain ⟨start, hstarted, h⟩ := bind_eq_ok.mp h
      refine foldlM_invariant h (hstart _ _ _ _ hstarted) fun mi _ prSofar next hsofar hinst => ?_
      unfold oninst at hinst
      obtain ⟨⟨_, _, _⟩, _, hinst⟩ := bind_eq_ok.mp hinst
      obtain ⟨_, _, hinst⟩ := bind_eq_ok.mp hinst
      obtain ⟨inner, hinner, hinst⟩ := bind_eq_ok.mp hinst
      exact hjoin _ _ _ _ _ _ _ _ hsofar (ih hinner) hinst

/-! ## One module -/

/-- {lit}`break_namespaced_name`: the parts between double colons. -/
def breakNamespacedName (nsn : List Char) : Except Exn (List String) :=
  match _hdrop : nsn.dropWhile (· ≠ ':') with
  | [] => .ok [String.ofList nsn]
  | [_] => .error (.invalidArgument "String.sub / Bytes.sub")
  | _ :: _ :: tstr => do
      return String.ofList (nsn.takeWhile (· ≠ ':')) :: (← breakNamespacedName tstr)
termination_by nsn.length
decreasing_by
  have hle := (List.dropWhile_suffix (· ≠ ':') (l := nsn)).length_le
  rw [_hdrop, List.length_cons, List.length_cons] at hle
  omega

/-- The program of a module, with the modules that are visible from it. -/
def moduleProgram (moduleName : String) (issm : Bool) (modl : List ModDef) (pr : Program) :
    List String → Except Exn Program
  | [] => do
      let pr ← addAtomDecl "" (moduleName ++ "::") issm pr
      let pr := if issm then pr else addSelfGuardrefs pr
      return { pr with modDefList := pr.modDefList ++ modl }
  | h :: t =>
      match pr.modDefList.partition fun md => md.modulename = h with
      | ([amod], mneg) => moduleProgram moduleName amod.isstaticmodule (modl ++ mneg)
          amod.programdef t
      | _ => .error (.flattenFailure ("cannot find module " ++ h))

/-- The program that a module is compiled as, from the path of its name. -/
def flattenModule (depth : Nat) (moduleName : String) (pr : Program) : Except Exn Program := do
  let pr ← removeReductions pr
  let nsnbl ← breakNamespacedName moduleName.toList
  flatten weakUnification depth (← moduleProgram moduleName false [] pr nsnbl.reverse)

end

end Flatten
end Frontend
end OFlux
