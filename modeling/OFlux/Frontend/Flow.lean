import OFlux.Frontend.TypeCheck
import OFlux.Frontend.Unify

/-!
# Building the flow

The flow expressions of a flattened program are added one by one to a map that has a cell for
each node.  The flow in a cell refers to the cells of its successors, and an expression that runs
through several nodes sets the successors of those that have none.

Main definitions:

- {lit}`addChoiceExpr`, {lit}`addConcurrentExpr`: one expression.
- {lit}`buildFlowMap`: the flow of a program, with its symbols and the consequences of its types.
-/

namespace OFlux
namespace Frontend

open Library

namespace TypeCheck

/-- {lit}`Unify.unify'` -/
def unifyNodes (weakUnification : Bool) (io1 io2 : Bool) (symtable : SymbolTable)
    (node1 node2 : String) : Unify.UnifyResult :=
  let pick := fun (io : Bool) (x : NodeData) => if io then some x.nodeinputs else x.nodeoutputs
  match symtable.lookupNodeSymbol node1, symtable.lookupNodeSymbol node2 with
  | .ok nd1, .ok nd2 =>
      match pick io1 nd1, pick io2 nd2 with
      | some as1, some as2 => Unify.unifyTypeInOut weakUnification as1 as2
      | _, _ => .success .weak
  | _, _ => .fail (-1) "node not found in symbol table"

/-- For messages: true stands for the input of a node. -/
def iotToStr (iot : Bool) : String :=
  if iot then "input" else "output"

/-- Unify an end of one node with an end of another one; a failure is an exception with the names of
both. Pairs that unify weakly are left out of the list. -/
def typeCheckGeneral (weakUnification : Bool) (siot iot : Bool) (symtable : SymbolTable)
    (unified : UnificationResult) (sflN flN : String) : Except Exn UnificationResult :=
  match unifyNodes weakUnification siot iot symtable sflN flN with
  | .success .strong => .ok (((sflN, siot), (flN, iot)) :: unified)
  | .success .weak => .ok unified
  | .fail i reason =>
      .error (.failure
        (if i < 0 then reason
        else "Node " ++ iotToStr iot ++ " " ++ flN ++ " and " ++ iotToStr siot ++ " " ++ sflN ++
          " unify failed." ++ reason ++ " ( argument " ++ toString i ++ ")"))

section

variable (weakUnification : Bool) (symtable : SymbolTable) (unified : UnificationResult)

/-- The output of a node fits the input of the next one. -/
def typeCheck (sflN flN : String) : Except Exn UnificationResult :=
  typeCheckGeneral weakUnification true false symtable unified sflN flN

/-- Two nodes that run one beside the other have equal inputs and outputs. -/
def typeCheckConcur (n1 n2 : String) : Except Exn UnificationResult := do
  let unified ← typeCheckGeneral weakUnification true true symtable unified n2 n1
  typeCheckGeneral weakUnification false false symtable unified n2 n1

/-- The inputs of two nodes fit. -/
def typeCheckInputsOnly (n1 n2 : String) : Except Exn UnificationResult :=
  typeCheckGeneral weakUnification true true symtable unified n1 n2

/-- The outputs of two nodes fit. -/
def typeCheckOutputsOnly (n1 n2 : String) : Except Exn UnificationResult :=
  typeCheckGeneral weakUnification false false symtable unified n1 n2

end

end TypeCheck

namespace Flow

open TypeCheck (UnificationResult onNotFound)

/-! ## Cells -/

/-- A reference to the cell of a node, or to a fresh cell that stays empty. -/
abbrev Cell := Option String

/-- The flow in a cell. -/
inductive Node where
  | source (name function : String) (succ err : Cell)
  | chExpr (name : String) (lines : List (List (Option String) × Cell))
  | conExpr (name : String) (succs : List Cell)
  | cNode (name function : String) (succ err : Cell)
  | nullNode
deriving DecidableEq

/-- The nodes by their names; a cell of the source is a name here. -/
abbrev FlowMap := SortedMap String Node

/-- {lit}`get_name` -/
def getName : Node → String
  | .source n _ _ _ => n
  | .chExpr n _ => n
  | .conExpr n _ => n
  | .cNode n _ _ _ => n
  | .nullNode => "<-nullnode->"

/-- What stands in a cell now. -/
def deref (fmap : FlowMap) : Cell → Node
  | some n => (fmap.find n).getD .nullNode
  | none => .nullNode

/-- An empty cell for every declared node. -/
def buildMap (decls : List NodeDecl) : FlowMap :=
  decls.foldl (fun fmap nd => fmap.add nd.nodename .nullNode) SortedMap.empty

/-- The cell of a node that an expression refers to. -/
def getfl (fmap : FlowMap) (n : String) : Except Exn Cell :=
  match fmap.find n with
  | some _ => .ok (some n)
  | none => .error (.failure ("node " ++ n ++ " referenced in the flow not found"))

/-- {lit}`FlowMap.find` -/
def findCell (fmap : FlowMap) (n : String) : Except Exn Node :=
  match fmap.find n with
  | some fl => .ok fl
  | none => .error .notFound

/-! ## What a flow leads to -/

/-- What the conditions say about the outputs of a node, by their positions. -/
abbrev Outcome := Nat → String → Bool

/-- All conditions of a line hold. -/
def holds (σ : Outcome) (conds : List (Option String)) : Bool :=
  conds.zipIdx.all fun c => c.1.all (σ c.2)

/-- The nodes that run after a node: of a choice, those of the first line whose conditions hold. -/
def taken (σ : Outcome) : Node → List String
  | .source _ _ succ _ | .cNode _ _ succ _ => succ.toList
  | .chExpr _ lines => ((lines.find? fun line => holds σ line.1).bind Prod.snd).toList
  | .conExpr _ succs => succs.filterMap id
  | .nullNode => []

/-! ## Concurrent expressions -/

section

variable (weakUnification : Bool) (symtable : SymbolTable)

/-- A concurrent expression: every successor is checked against its name and linked. -/
def addConcurrentExpr (st : FlowMap × UnificationResult) (expr : Expr) :
    Except Exn (FlowMap × UnificationResult) := do
  let (fmap, unified) := st
  let unified ← expr.successors.foldlM (fun unified ename =>
    TypeCheck.typeCheckConcur weakUnification symtable unified expr.exprname ename) unified
  let efl ← getfl fmap expr.exprname
  if deref fmap efl = .nullNode then do
    let succs ← expr.successors.mapM (getfl fmap)
    return (fmap.add expr.exprname (.conExpr expr.exprname succs), unified)
  else throw (.failure ("Concurrent expression " ++ expr.exprname ++ " already defined"))

/-! ## Choice expressions -/

/-- The name of a flow that an expression can be put behind. -/
def extensible : Node → Option String
  | .cNode cn _ _ _ => some cn
  | .chExpr en _ => some en
  | .conExpr en _ => some en
  | _ => none

/-- The successors of such a flow. -/
def links : Node → List Cell
  | .cNode _ _ succ _ => [succ]
  | .chExpr _ lines => lines.map Prod.snd
  | .conExpr _ succs => succs
  | _ => []

/-- Set one of the successors. -/
def setLink (i : Nat) (c : Cell) : Node → Node
  | .cNode cn f _ err => .cNode cn f c err
  | .chExpr en lines => .chExpr en (lines.modify i fun line => (line.1, c))
  | .conExpr en succs => .conExpr en (succs.set i c)
  | fl => fl

/-- One successor of the flow in a cell: an empty one is replaced, behind another one the
recursion goes on. -/
def addtoendAt (rec : FlowMap → Cell → Except Exn FlowMap) (rn : Cell) (n : String)
    (fmap : FlowMap) (i : Nat) : Except Exn FlowMap :=
  let link := ((links (deref fmap (some n)))[i]?).getD none
  if deref fmap link = .nullNode then
    .ok (fmap.add n (setLink i rn (deref fmap (some n))))
  else rec fmap link

/-- Put a cell at all ends behind another one, on a stack of a given depth. -/
def addtoend (rn : Cell) : Nat → List String → FlowMap → Cell → Except Exn FlowMap
  | 0, _, _, _ => .error .stackOverflow
  | depth + 1, nll, fmap, cell =>
      if deref fmap rn = .nullNode then .ok fmap
      else
        match cell, extensible (deref fmap cell) with
        | some n, some name =>
            if name ∈ nll then .error (.failure ("cycle on node " ++ name))
            else
              (List.range (links (deref fmap cell)).length).foldlM
                (addtoendAt (addtoend rn depth (name :: nll)) rn n) fmap
        | _, _ => .error (.failure "add_expr...addtoend unexpected")

/-- The symbol of a node that has to be declared. -/
def lookupNode (n : String) : Except Exn NodeData :=
  onNotFound (symtable.lookupNodeSymbol n)
    (.error (.failure ("cannot find node definition " ++ n)))

/-- Link the nodes of an expression, from the last one back to the first one. -/
def commitConseq (depth : Nat) (n : String) : FlowMap → Cell → Bool → List String →
    Except Exn FlowMap
  | fmap, _, _, [] => .ok fmap
  | fmap, rn, isfirstconseq, h :: t => do
      let fl ← getfl fmap h
      let nd ← lookupNode symtable h
      let fmap ←
        match deref fmap fl with
        | .chExpr _ _ | .conExpr _ _ => addtoend rn depth [n] fmap fl
        | .nullNode =>
            if isfirstconseq then .ok fmap
            else .ok (fmap.add h (.cNode h nd.functionname rn none))
        | .cNode _ _ succ err =>
            if deref fmap succ = .nullNode then
              .ok (fmap.add h (.cNode h nd.functionname rn err))
            else .error (.failure ("node " ++ h ++ " already has a sucessor"))
        | .source _ _ _ _ =>
            .error (.failure "successor expression cannot use a source")
      commitConseq depth n fmap fl false t

/-- Each node of an expression is checked against the next one. -/
def typeCheckAll (unified : UnificationResult) : List String → Except Exn UnificationResult
  | h1 :: h2 :: t => do
      let unified ← TypeCheck.typeCheck weakUnification symtable unified h2 h1
      typeCheckAll unified (h2 :: t)
  | _ => .ok unified

/-- A star tests nothing. -/
def convertCondPart : CommaItem → Option String
  | .star => none
  | .ident s => some s

/-- The lines of a choice expression so far. -/
def choiceLines (fmap : FlowMap) (identN : String) :
    Except Exn (String × List (List (Option String) × Cell)) := do
  match ← findCell fmap identN with
  | .nullNode => return (identN, [])
  | .chExpr n ll => return (n, ll)
  | _ => throw (.failure ("the node " ++ identN ++ " is not an expression"))

/-- One line of a choice: the first successor is checked and linked to the cells behind it, and the
line is put behind those that are there. -/
def addChoiceExpr (depth : Nat) (st : FlowMap × UnificationResult) (expr : Expr) :
    Except Exn (FlowMap × UnificationResult) := do
  let (fmap, unified) := st
  let nd ← lookupNode symtable expr.exprname
  match expr.successors, expr.successors.getLast? with
  | firstN :: _, some lastN => do
      let _ ← lookupNode symtable firstN
      let lastnd ← lookupNode symtable lastN
      let unified ← typeCheckAll weakUnification symtable unified expr.successors
      let unified ←
        TypeCheck.typeCheckInputsOnly weakUnification symtable unified firstN expr.exprname
      let unified ←
        match nd.nodeoutputs, lastnd.nodeoutputs with
        | some _, some _ =>
            TypeCheck.typeCheckOutputsOnly weakUnification symtable unified expr.exprname lastN
        | _, _ => pure unified
      let (n, lines) ← choiceLines fmap expr.exprname
      let fmap ← commitConseq symtable depth n fmap none true expr.successors.reverse
      let head ← getfl fmap firstN
      return (fmap.add expr.exprname
        (.chExpr n ((expr.condbinding.map convertCondPart, head) :: lines)), unified)
  | _, _ => throw (.failure "expression must have consequences")

/-- Add an expression of either kind. -/
def addExpr (depth : Nat) (st : FlowMap × UnificationResult) (expr : Expr) :
    Except Exn (FlowMap × UnificationResult) :=
  match expr.etype with
  | .choice => addChoiceExpr weakUnification symtable depth st expr
  | .concurrent => addConcurrentExpr weakUnification symtable st expr

end

/-! ## Sources, conditions and error handlers -/

section

variable (weakUnification : Bool) (symtable : SymbolTable)

/-- A source with its successor. -/
def addMainFn (st : FlowMap × UnificationResult) (mainfun : MainFun) :
    Except Exn (FlowMap × UnificationResult) := do
  let (fmap, unified) := st
  let unified ←
    match mainfun.successor with
    | none => pure unified
    | some succ => TypeCheck.typeCheck weakUnification symtable unified succ mainfun.sourcename
  let undeclared := Exn.failure ("Node " ++ mainfun.sourcename ++
    (match mainfun.successor with | none => "" | some succ => " or " ++ succ) ++ " undeclared")
  onNotFound
    (do
      let sfl ←
        match mainfun.successor with
        | none => pure none
        | some succ => do
            let _ ← findCell fmap succ
            pure (some succ)
      let fl ← findCell fmap mainfun.sourcename
      if fl = .nullNode then
        return (fmap.add mainfun.sourcename
          (.source mainfun.sourcename mainfun.sourcefunction sfl none), unified)
      else throw (.failure ("Source " ++ mainfun.sourcename ++ " already defined")))
    (.error undeclared)

/-- The condition of one argument: a condition that is not declared is declared by its use. -/
def addConditional (symtable : SymbolTable) (item : DeclFormal × CommaItem) :
    Except Exn SymbolTable :=
  match item.2 with
  | .star => .ok symtable
  | .ident s =>
      onNotFound
        (do
          let conds ← symtable.lookupConditionalSymbol s
          match conds.arguments with
          | [decl] =>
              match Unify.unifySingle decl item.1 with
              | none => return symtable
              | some msg => throw (.failure ("type unify failure for conditional. " ++ msg))
          | _ => throw .notFound)
        (.ok (symtable.addConditional { condname := s, condfunction := s, condinputs := [item.1] }))

/-- The conditions of an expression enter the table with the outputs that they test. -/
def addConditionals (symtable : SymbolTable) (expr : Expr) : Except Exn SymbolTable :=
  if expr.condbinding = [] then .ok symtable
  else do
    let nd ← lookupNode symtable expr.exprname
    if nd.nodeinputs.length = expr.condbinding.length then
      (nd.nodeinputs.zip expr.condbinding).foldlM addConditional symtable
    else throw (.failure ("mismatch on expression " ++ expr.exprname ++ " argument count"))

/-- The nodes without an expression get their flows.  The result has the nodes without a
successor; the name {lit}`error` is compared as an object, so that it is like any other. -/
def addNamed (fmap : FlowMap) : Except Exn (FlowMap × List String) := do
  let res ← fmap.entries.foldlM (fun (st : FlowMap × List String) entry => do
    let nd ← symtable.lookupNodeSymbol entry.1
    if entry.2 = .nullNode then
      return (st.1.add entry.1 (.cNode entry.1 nd.functionname none none), entry.1 :: st.2)
    else return st) (fmap, [])
  return (res.1, res.1.entries.foldl (fun sinks entry =>
    match entry.2 with
    | .source _ _ succ _ | .cNode _ _ succ _ =>
        if deref res.1 succ = .nullNode then entry.1 :: sinks else sinks
    | _ => sinks) res.2)

/-- The cell of the node that handles an error. -/
def followConcrete (fmap : FlowMap) (hname : String) (h : Cell) : Except Exn Cell :=
  match deref fmap h with
  | .cNode _ _ _ _ | .nullNode => .ok h
  | .chExpr _ [(_, frr)] => .ok frr
  | .conExpr _ [frr] => .ok frr
  | _ => .error (.failure ("error handler is a conditional expression - not allowed - " ++ hname))

/-- Only nodes with a function have an error handler. -/
def setErr (hr : Cell) : Node → Node
  | .source n f succ _ => .source n f succ hr
  | .cNode n f succ _ => .cNode n f succ hr
  | fl => fl

/-- One node with an error handler. -/
def addErrorOn (hname : String) (h : Cell) (st : FlowMap × UnificationResult) (n : String) :
    Except Exn (FlowMap × UnificationResult) := do
  let (fmap, unified) := st
  let fl ← onNotFound (findCell fmap n)
    (.error (.failure ("error handler for unknown node" ++ n)))
  match fl with
  | .source a _ _ hr | .cNode a _ _ hr =>
      if deref fmap hr = .nullNode then do
        let unified ← TypeCheck.typeCheckGeneral weakUnification true true symtable unified hname n
        return (fmap.add n (setErr h fl), unified)
      else throw (.failure ("Source " ++ a ++ " already has an error handler"))
  | _ => throw (.failure ("trying to bind error handler to non-concrete node " ++ n))

/-- Set the error handler of the nodes of a statement. -/
def addError (st : FlowMap × UnificationResult) (err : Err) :
    Except Exn (FlowMap × UnificationResult) := do
  let _ ← onNotFound (findCell st.1 err.handler)
    (.error (.failure ("error handler " ++ err.handler ++ " not declared as a node")))
  let h ← followConcrete st.1 err.handler (some err.handler)
  err.onnodes.foldlM (addErrorOn weakUnification symtable err.handler h) st

/-- The handlers, and what their expressions lead to. -/
def findErrorHandlers (fmap : FlowMap) : Nat → List String → Except Exn (List String)
  | 0, _ => .error .stackOverflow
  | _ + 1, [] => .ok []
  | depth + 1, h :: tl => do
      match ← findCell fmap h with
      | .chExpr _ ll => do
          let eh ← findErrorHandlers fmap depth (ll.map fun line => getName (deref fmap line.2))
          return h :: (eh ++ (← findErrorHandlers fmap depth tl))
      | .conExpr _ ll => do
          let eh ← findErrorHandlers fmap depth (ll.map fun frr => getName (deref fmap frr))
          return h :: (eh ++ (← findErrorHandlers fmap depth tl))
      | _ => return h :: (← findErrorHandlers fmap depth tl)

/-! ## Guard references -/

/-- An argument of a guard reference that is a parameter of the node has its type. -/
def checkArgument (nd : NodeData) (item : List UninterpExpr × DeclFormal) : Except Exn Unit :=
  match item.1 with
  | [.arg nn] =>
      match nd.nodeinputs.find? fun x => x.name = nn with
      | none => .error .notFound
      | some df =>
          match Unify.unifySingle df item.2 with
          | none => .ok ()
          | some r => .error (.failure ("cannot unify guard argument - " ++ r))
  | _ => .ok ()

/-- A reference has as many arguments as its guard has parameters. -/
def checkGuardRef (nd : NodeData) (gr : GuardRef) : Except Exn Unit := do
  let gd ← onNotFound (symtable.lookupGuardSymbol gr.guardname)
    (.error (.failure ("guard symbol " ++ gr.guardname ++ " undefined")))
  if gr.arguments.length = gd.garguments.length then
    (gr.arguments.zip gd.garguments).forM (checkArgument nd)
  else throw (.failure ("# guard args wrong for " ++ gr.guardname))

/-- Check the references of all nodes. -/
def checkGuardRefs : Except Exn Unit :=
  symtable.entries.forM fun entry =>
    match entry.2 with
    | .node nd => nd.nodeguardrefs.forM (checkGuardRef symtable nd)
    | _ => .ok ()

/-! ## The flow of a program -/

/-- What {lit}`build_flow_map` returns. -/
structure BuiltFlow where
  sources : List String
  fmap : FlowMap
  ulist : UnificationResult
  symtable : SymbolTable
  errhandlers : List String
  modules : List String
  terminates : List String
  runoncesources : List String
  doorsources : List String
  consequences : TypeCheck.ConsequenceResult
  guardOrderPairs : List (String × String)

/-- A source has no input, and a sink no output. -/
def verifySs (ntype n : String) (params : List DeclFormal) : Except Exn Unit :=
  if params.length > 0 then .error (.failure (ntype ++ " " ++ n ++ " does not have i/o type ()"))
  else .ok ()

/-- A node that is the end of a flow has no outputs. -/
def verifySink (n : String) : Except Exn Unit := do
  let nd ← symtable.lookupNodeSymbol n
  match nd.nodeoutputs with
  | none => throw (.failure ("can't verify sink " ++ n))
  | some x => verifySs "sink" n x

/-- A node that starts a flow has no inputs. -/
def verifySource (n : String) : Except Exn Unit := do
  let nd ← symtable.lookupNodeSymbol n
  verifySs "source" n nd.nodeinputs

/-- A list of nodes without the abstract ones. -/
def concreteNodes (l : List String) : Except Exn (List String) :=
  TypeCheck.partition (fun n => do
    let nd ← symtable.lookupNodeSymbol n
    return nd.nodeoutputs.isSome) l >>= fun parts => pure parts.1

end

/-- Build the nodes of a program: its expressions from the last one to the first one, then its
sources and its error handlers, with all checks. -/
def buildFlowMap (weakUnification : Bool) (depth : Nat) (symboltable : SymbolTable)
    (pr : Program) : Except Exn BuiltFlow := do
  let flowmap := buildMap pr.nodeDeclList
  let st ← pr.exprList.reverse.foldlM (addExpr weakUnification symboltable depth) (flowmap, [])
  let st ← pr.mainfunList.foldlM (addMainFn weakUnification symboltable) st
  let symboltable ← pr.exprList.foldlM addConditionals symboltable
  let (flowmap, named) ← addNamed symboltable st.1
  let sinks := (← concreteNodes symboltable named).filter fun n => n ∉ pr.terminateList
  sinks.forM (verifySink symboltable)
  let (flowmap, unified) ←
    pr.errList.foldlM (addError weakUnification symboltable) (flowmap, st.2)
  let errhandlers ← findErrorHandlers flowmap depth (pr.errList.map Err.handler)
  let sources := pr.mainfunList.map MainFun.sourcename
  sources.forM (verifySource symboltable)
  checkGuardRefs symboltable
  let ulist := unified ++ TypeCheck.fromBasicNodes symboltable sinks sources
  return {
    sources := sources
    fmap := flowmap
    ulist := ulist
    symtable := symboltable
    errhandlers := errhandlers
    modules := pr.modDefList.map ModDef.modulename
    terminates := pr.terminateList
    runoncesources := (pr.mainfunList.filter fun x => x.runoncetype = 1).map MainFun.sourcename
    doorsources := (pr.mainfunList.filter fun x => x.runoncetype = 2).map MainFun.sourcename
    consequences := ← TypeCheck.consequences ulist symboltable
    guardOrderPairs := pr.orderDeclList }

end Flow
end Frontend
end OFlux
