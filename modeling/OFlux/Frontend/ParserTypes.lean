import Mathlib.Data.String.Basic

/-!
# Parsed programs

What the parser makes of a source file: declarations of nodes, conditions and guards, the
flow expressions, and the modules, instances and plugins that other declarations come from.
Of the positions in the file those of parameters are kept, since generated copies compare
parameters as they stand there; the others are only read for error messages.
-/

namespace OFlux
namespace Frontend

/-- The exceptions that the passes raise. -/
inductive Exn where
  | notFound
  | invalidArgument (message : String)
  | stackOverflow
  | failure (message : String)
  | declarationLookup (message : String)
  | flattenFailure (message : String)
  | cppGenFailure (message : String)
deriving DecidableEq, Repr

/-! ## Declarations -/

/-- A place in a source file. -/
structure Position where
  file : Option String
  lineno : Nat
  characterno : Nat
deriving DecidableEq, Repr

/-- The position of what stands in no file. -/
def noposition : Position where
  file := none
  lineno := 0
  characterno := 0

/-- A parameter; its parts have positions of their own, which stand here as one. -/
structure DeclFormal where
  ctypemod : String
  ctype : String
  name : String
  position : Position := noposition
deriving DecidableEq, Repr

/-- A type with its modifier. -/
structure DataType where
  dctypemod : String
  dctype : String
deriving DecidableEq, Repr

/-- The modifiers of a guard reference. -/
inductive GuardMod where
  | read
  | write
  | upgradeable
  | nullOk
deriving DecidableEq, Repr

/-- A piece of an argument: a parameter of the node, the data of a guard that the node
refers to, or text. -/
inductive UninterpExpr where
  | arg (name : String)
  | gArg (name : String)
  | context (text : String)
deriving DecidableEq, Repr

/-- A reference of a node to a guard, with its arguments and its condition. -/
structure GuardRef where
  guardname : String
  arguments : List (List UninterpExpr) := []
  modifiers : List GuardMod := []
  localgname : Option String := none
  guardcond : List UninterpExpr := []
deriving DecidableEq, Repr

/-- The declaration of a node. -/
structure NodeDecl where
  detached : Bool := false
  isAbstract : Bool := false
  ismutable : Bool := false
  externalnode : Bool := false
  nodename : String
  nodefunction : String
  inputs : List DeclFormal := []
  guardrefs : List GuardRef := []
  /-- Absent for a node that ends in an ellipsis. -/
  outputs : Option (List DeclFormal) := none
deriving DecidableEq, Repr

/-- The declaration of a condition. -/
structure CondDecl where
  externalcond : Bool := false
  condname : String
  condfunction : String
  condinputs : List DeclFormal := []
deriving DecidableEq, Repr

/-- The declaration of a guard. -/
structure AtomDecl where
  atomname : String
  atominputs : List DeclFormal := []
  outputtype : DataType
  atomtype : String
  externalatom : Bool := false
  atommodifiers : List String := []
deriving DecidableEq, Repr

/-! ## Flow -/

/-- A source, or an initial function, with the node that it starts. -/
structure MainFun where
  sourcename : String
  sourcefunction : String
  successor : Option String
  runoncetype : Nat
deriving DecidableEq, Repr

/-- One column of a choice. -/
inductive CommaItem where
  | star
  | ident (name : String)
deriving DecidableEq, Repr

/-- The kinds of expressions. -/
inductive ExprType where
  | choice
  | concurrent
deriving DecidableEq, Repr

/-- An expression: a name, the columns of a choice and the successors. -/
structure Expr where
  exprname : String
  condbinding : List CommaItem
  successors : List String
  etype : ExprType
deriving DecidableEq, Repr

/-- The nodes whose errors a node handles. -/
structure Err where
  onnodes : List String
  handler : String
deriving DecidableEq, Repr

/-! ## Programs -/

/-- An instance of a module; an alias identifies a guard of the module with one of the
program around it. -/
structure ModInst where
  modsourcename : String
  externalinst : Bool := false
  modinstname : String
  guardaliases : List (String × String) := []
deriving DecidableEq, Repr

mutual

/-- All declarations of a program or of a module. -/
structure Program where
  condDeclList : List CondDecl := []
  atomDeclList : List AtomDecl := []
  nodeDeclList : List NodeDecl := []
  mainfunList : List MainFun := []
  exprList : List Expr := []
  errList : List Err := []
  modDefList : List ModDef := []
  modInstList : List ModInst := []
  pluginList : List PluginDef := []
  pluginDependList : List String := []
  terminateList : List String := []
  /-- Pairs of guards, the first one to be acquired before the second one. -/
  orderDeclList : List (String × String) := []

/-- The definition of a module. -/
structure ModDef where
  modulename : String
  isstaticmodule : Bool
  programdef : Program

/-- A plugin with the file that it comes from. -/
structure PluginDef where
  pluginname : String
  /-- The file in which the name stands. -/
  pluginfile : Option String := none
  pluginprogramdef : Program

end

end Frontend
end OFlux
