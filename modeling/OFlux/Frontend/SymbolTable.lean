import OFlux.Frontend.ParserTypes
import OFlux.Library.SortedMap

/-!
# The symbol table

One map from names to symbols of all kinds, filled by successive insertions.  Guards get
their magic numbers from a counter that goes on over all insertions; the functions that
insert guards pass it along.

Main definitions:

- {lit}`addProgram`: the symbols of a program.
- {lit}`lookupNodeSymbol` and its siblings: a symbol of one kind.
-/

namespace OFlux
namespace Frontend

open Library

/-- What the table has about a node. -/
structure NodeData where
  functionname : String
  nodeinputs : List DeclFormal
  nodeoutputs : Option (List DeclFormal)
  nodeguardrefs : List GuardRef
  nodedetached : Bool
  nodeabstract : Bool
  nodeexternal : Bool
deriving DecidableEq, Repr

/-- What the table has about a condition. -/
structure ConditionalData where
  arguments : List DeclFormal
  cfunction : String
deriving DecidableEq, Repr

/-- What the table has about a guard. -/
structure GuardData where
  garguments : List DeclFormal
  gtype : String
  gexternal : Bool
  returnType : DataType
  magicnumber : Nat
  gunordered : Bool
  ggc : Bool
deriving DecidableEq, Repr

/-- What the table has about an instance of a module. -/
structure ModuleInstData where
  modulesource : String
deriving DecidableEq, Repr

/-- An entry of the table; a module has a table of its own. -/
inductive Symbol where
  | node (data : NodeData)
  | conditional (data : ConditionalData)
  | guard (data : GuardData)
  | moduleDef (modulesymbols : List (String × Symbol))
  | moduleInst (data : ModuleInstData)

/-- The symbols by their names. -/
abbrev SymbolTable := SortedMap String Symbol

namespace SymbolTable

/-! ## Conditions -/

/-- {lit}`add_conditional` -/
def addConditional (symtable : SymbolTable) (c : CondDecl) : SymbolTable :=
  symtable.add c.condname
    (.conditional { arguments := c.condinputs, cfunction := c.condfunction })

/-- The condition with that name. -/
def lookupConditionalSymbol (symtable : SymbolTable) (name : String) :
    Except Exn ConditionalData :=
  match symtable.find name with
  | some (.conditional x) => .ok x
  | _ => .error .notFound

/-! ## Guards -/

/-- The entry of a guard with that magic number. -/
def guardData (g : AtomDecl) (magicnumber : Nat) : GuardData where
  garguments := g.atominputs
  gtype := g.atomtype
  gexternal := g.externalatom
  returnType := g.outputtype
  magicnumber := magicnumber
  gunordered := "unordered" ∈ g.atommodifiers
  ggc := "gc" ∈ g.atommodifiers

/-- Insert a guard, with the next magic number. -/
def addGuard (symtable : SymbolTable × Nat) (g : AtomDecl) : SymbolTable × Nat :=
  (symtable.1.add g.atomname (.guard (guardData g symtable.2)), symtable.2 + 1)

/-- The guard with that name. -/
def lookupGuardSymbol (symtable : SymbolTable) (name : String) : Except Exn GuardData :=
  match symtable.find name with
  | some (.guard x) => .ok x
  | _ => .error .notFound

/-- A guard is found when the table has it. -/
theorem lookupGuardSymbol_eq_ok {symtable : SymbolTable} {name : String} {gd : GuardData} :
    symtable.lookupGuardSymbol name = .ok gd ↔ symtable.find name = some (.guard gd) := by
  unfold lookupGuardSymbol
  split
  next x hfind => rw [hfind, Except.ok.injEq, Option.some.injEq, Symbol.guard.injEq]
  next hother => exact ⟨fun h => (nomatch h), fun h => absurd h (hother gd)⟩

/-- A function on guards, as one on symbols. -/
def onGuard {σ : Type} (f : String → GuardData → σ → σ) (n : String) (sym : Symbol) (w : σ) : σ :=
  match sym with
  | .guard gd => f n gd w
  | _ => w

/-- A fold over the guards, in the order of the names. -/
def foldGuards {σ : Type} (f : String → GuardData → σ → σ) (symtable : SymbolTable) (w : σ) : σ :=
  symtable.fold (onGuard f) w

/-! ## Nodes -/

/-- The entry of a node. -/
def nodeData (n : NodeDecl) : NodeData where
  functionname := n.nodefunction
  nodeinputs := n.inputs
  nodeoutputs := n.outputs
  nodeguardrefs := n.guardrefs
  nodedetached := n.detached
  nodeabstract := n.isAbstract || n.outputs.isNone
  nodeexternal := n.externalnode

/-- {lit}`add_node_symbol` -/
def addNodeSymbol (symtable : SymbolTable) (n : NodeDecl) : SymbolTable :=
  symtable.add n.nodename (.node (nodeData n))

/-- The node with that name. -/
def lookupNodeSymbol (symtable : SymbolTable) (name : String) : Except Exn NodeData :=
  match symtable.find name with
  | some (.node x) => .ok x
  | _ => .error .notFound

/-- A node is found when the table has it. -/
theorem lookupNodeSymbol_eq_ok {symtable : SymbolTable} {name : String} {nd : NodeData} :
    symtable.lookupNodeSymbol name = .ok nd ↔ symtable.find name = some (.node nd) := by
  unfold lookupNodeSymbol
  split
  next x hfind => rw [hfind, Except.ok.injEq, Option.some.injEq, Symbol.node.injEq]
  next hother => exact ⟨fun h => (nomatch h), fun h => absurd h (hother nd)⟩

/-- A function on nodes, as one on symbols. -/
def onNode {σ : Type} (f : String → NodeData → σ → σ) (n : String) (sym : Symbol) (w : σ) : σ :=
  match sym with
  | .node nd => f n nd w
  | _ => w

/-- A fold over the nodes, in the order of the names. -/
def foldNodes {σ : Type} (f : String → NodeData → σ → σ) (symtable : SymbolTable) (w : σ) : σ :=
  symtable.fold (onNode f) w

/-- What a fold that adds to a list has in the end. -/
theorem mem_foldNodes {α : Type} {f : String → NodeData → List α → List α}
    {P : String → NodeData → α → Prop} (hf : ∀ n nd l x, x ∈ f n nd l ↔ x ∈ l ∨ P n nd x)
    {symtable : SymbolTable} {l : List α} {x : α} :
    x ∈ symtable.foldNodes f l ↔
      x ∈ l ∨ ∃ n nd, symtable.find n = some (.node nd) ∧ P n nd x := by
  have hfold := SortedMap.mem_fold (f := onNode f)
    (P := fun n sym x => ∃ nd, sym = .node nd ∧ P n nd x) (m := symtable) (l := l) (x := x)
    fun n sym l x => by
      cases sym with
      | node nd => simp [onNode, hf]
      | _ => simp [onNode]
  rw [foldNodes, hfold]
  refine or_congr_right ⟨?_, ?_⟩
  · rintro ⟨n, _, hfind, nd, rfl, hx⟩
    exact ⟨n, nd, hfind, hx⟩
  · rintro ⟨n, nd, hfind, hx⟩
    exact ⟨n, _, hfind, nd, rfl, hx⟩

/-- The first node with that function. -/
def lookupNodeSymbolFromFunction (symtable : SymbolTable) (name : String) :
    Except Exn NodeData :=
  match symtable.foldNodes (fun _ nd son =>
      match son with
      | none => if nd.functionname = name then some nd else none
      | some nd' => some nd') none with
  | none => .error .notFound
  | some x => .ok x

/-- The parameters at one end of a function, the input end when {lit}`isin` is set. -/
def getDecls (symtable : SymbolTable) (e : String × Bool) : Except Exn (List DeclFormal) :=
  match symtable.lookupNodeSymbolFromFunction e.1 with
  | .ok nd =>
      if e.2 then .ok nd.nodeinputs
      else
        match nd.nodeoutputs with
        | none => .error (.declarationLookup
            ("node " ++ e.1 ++ " is abstract and cannot be used for code generation"))
        | some x => .ok x
  | .error _ => .error (.declarationLookup ("could not resolve node " ++ e.1))

/-! ## Modules and programs -/

/-- {lit}`add_module_instance` -/
def addModuleInstance (symtable : SymbolTable) (mi : ModInst) : SymbolTable :=
  symtable.add mi.modinstname (.moduleInst { modulesource := mi.modsourcename })

/-- The instance with that name. -/
def lookupModuleInstance (symtable : SymbolTable) (name : String) : Except Exn ModuleInstData :=
  match symtable.find name with
  | some (.moduleInst x) => .ok x
  | _ => .error .notFound

mutual

/-- The modules with their own tables; the magic numbers go on from one to the next. -/
def addModuleDefinitions (symtable : SymbolTable × Nat) : List ModDef → SymbolTable × Nat
  | [] => symtable
  | ⟨modulename, _, programdef⟩ :: rest =>
      let msymtable := addProgram (SortedMap.empty, symtable.2) programdef
      addModuleDefinitions
        (symtable.1.add modulename (.moduleDef msymtable.1.entries), msymtable.2) rest

/-- All declarations of a program, with the next magic number. -/
def addProgram (symtable : SymbolTable × Nat) : Program → SymbolTable × Nat
  | ⟨condDecls, atomDecls, nodeDecls, _, _, _, moduleDecls, moduleInsts, _, _, _, _⟩ =>
      let symboltable := nodeDecls.foldl addNodeSymbol symtable.1
      let symboltable := condDecls.foldl addConditional symboltable
      let guarded := atomDecls.foldl addGuard (symboltable, symtable.2)
      let symboltable := moduleInsts.foldl addModuleInstance guarded.1
      addModuleDefinitions (symboltable, guarded.2) moduleDecls

end

end SymbolTable
end Frontend
end OFlux
