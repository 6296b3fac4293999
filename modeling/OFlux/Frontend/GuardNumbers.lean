import OFlux.Frontend.CycleFind
import OFlux.Frontend.Flow
import OFlux.Frontend.GuardOrder
import OFlux.Guards.DeadlockFreedom
import OFlux.Runtime.MagicSorter

/-!
# The numbers of guards that depend on each other

The compiler emits the guards of the symbol table and the pairs of the order declarations, unless
these have a cycle.  The flow looks up the guards of each pair by their names, and numbers them.
A name that is not that of a guard gives a null pointer, which the numbering follows.

Main results:

- Theorem {lit}`exists_assignMagicNumbers`: pairs of declared guards without a cycle get numbers.
- Theorem {lit}`exists_nodeDecl_of_buildFlowMap`: the nodes of the flow are those of the program.
- Theorem {lit}`respectsMentions_iff`: what a key mentions is acquired first.
-/

namespace OFlux
namespace Frontend
namespace GuardNumbers

open Library Flatten OFlux.Frontend.Flow
open Library.Fallible (bind_eq_ok)
open OFlux.Runtime (MagicSorter)

/-! ## Guards and precedences -/

/-- The guards that are emitted, in the order of their names. -/
def guardNames (symtable : SymbolTable) : List String :=
  (symtable.foldGuards (fun n _ l => n :: l) []).reverse

/-- The attribute {lit}`late` of a reference: whether its key or its condition mentions another. -/
def hasGargs (gr : GuardRef) : Bool :=
  (gr.guardcond :: gr.arguments).any fun xl => xl.any fun
    | .gArg _ => true
    | _ => false

/-- Why the guards get no numbers. -/
inductive NumberingFailure where
  | nullPointer
  | assertion (a : MagicSorter.Assertion)
deriving DecidableEq

/-- What the sorter is told: the precedences, and then the guards. -/
def sorterCalls (guards : List String) (pairs : List (String × String)) :
    List (MagicSorter.Call String) :=
  pairs.map (fun p => .addInequality p.1 p.2) ++ guards.map .addPoint

/-- {lit}`assignMagicNumbers`, for guards at some addresses.  The numbering follows the pointers of
all pairs. -/
def assignMagicNumbers (address : String → Nat) (guards : List String)
    (pairs : List (String × String)) (turns : Nat) :
    Option (Except NumberingFailure (Nat → Nat)) :=
  if pairs.all fun p => decide (p.1 ∈ guards) && decide (p.2 ∈ guards) then
    (MagicSorter.numberAll address (MagicSorter.performAll address (sorterCalls guards pairs))
      (fun _ => 0) turns).map fun r => r.mapError .assertion
  else some (.error .nullPointer)

/-- The pairs are between declared guards. -/
def Declared (guards : List String) (pairs : List (String × String)) : Prop :=
  ∀ p ∈ pairs, p.1 ∈ guards ∧ p.2 ∈ guards

/-- The test that both guards of every pair are declared. -/
theorem declared_iff {guards : List String} {pairs : List (String × String)} :
    (pairs.all fun p => decide (p.1 ∈ guards) && decide (p.2 ∈ guards)) = true ↔
      Declared guards pairs := by
  simp [Declared]

/-- The guards are those of the symbol table. -/
theorem mem_guardNames {symtable : SymbolTable} {g : String} :
    g ∈ guardNames symtable ↔ ∃ gd, symtable.lookupGuardSymbol g = .ok gd := by
  have hfold := SortedMap.mem_fold (f := SymbolTable.onGuard fun n _ l => n :: l)
    (P := fun n sym x => x = n ∧ ∃ gd, sym = Symbol.guard gd) (m := symtable) (l := []) (x := g)
    fun n sym l x => by
      cases sym <;> simp [SymbolTable.onGuard, or_comm]
  rw [guardNames, List.mem_reverse, SymbolTable.foldGuards, hfold]
  constructor
  · rintro (hnil | ⟨n, sym, hfind, rfl, gd, rfl⟩)
    · cases hnil
    · exact ⟨gd, SymbolTable.lookupGuardSymbol_eq_ok.mpr hfind⟩
  · rintro ⟨gd, h⟩
    exact Or.inr ⟨g, _, SymbolTable.lookupGuardSymbol_eq_ok.mp h, rfl, gd, rfl⟩

/-! ## Numbers -/

section Numbers

variable {address : String → Nat} {guards : List String} {pairs : List (String × String)}

/-- The sorter is told the pairs. -/
theorem before_sorterCalls_iff {b a : Nat} :
    MagicSorter.Before address (sorterCalls guards pairs) b a ↔
      ∃ p ∈ pairs, address p.1 = b ∧ address p.2 = a := by
  simp [MagicSorter.Before, sorterCalls]

/-- The sorter is told the guards. -/
theorem point_sorterCalls_iff {a : Nat} :
    MagicSorter.Point address (sorterCalls guards pairs) a ↔ ∃ g ∈ guards, address g = a := by
  simp [MagicSorter.Point, sorterCalls]

/-- Guards at different addresses have no cycle if their names have none. -/
theorem acyclic_before (hinj : ∀ g ∈ guards, ∀ h ∈ guards, address g = address h → g = h)
    (hdeclared : Declared guards pairs) (hacyclic : Acyclic (Saturation.Edge pairs)) :
    Acyclic (MagicSorter.Before address (sorterCalls guards pairs)) := by
  have hpath : ∀ b a, Relation.TransGen
      (MagicSorter.Before address (sorterCalls guards pairs)) b a →
      ∃ h ∈ guards, ∃ g ∈ guards, address h = b ∧ address g = a ∧
        Relation.TransGen (Saturation.Edge pairs) h g := by
    intro b a h
    induction h with
    | single hba =>
        obtain ⟨p, hp, rfl, rfl⟩ := before_sorterCalls_iff.mp hba
        exact ⟨p.1, (hdeclared p hp).1, p.2, (hdeclared p hp).2, rfl, rfl,
          Relation.TransGen.single hp⟩
    | tail _ hba ih =>
        obtain ⟨h, hh, g, hg, rfl, hmid, hpath⟩ := ih
        obtain ⟨p, hp, hfirst, rfl⟩ := before_sorterCalls_iff.mp hba
        obtain rfl := hinj g hg p.1 (hdeclared p hp).1 (hmid.trans hfirst.symm)
        exact ⟨h, hh, p.2, (hdeclared p hp).2, rfl, rfl, hpath.tail hp⟩
  intro a hcycle
  obtain ⟨h, hh, g, hg, hstart, hend, hcycle⟩ := hpath a a hcycle
  obtain rfl := hinj h hh g hg (hstart.trans hend.symm)
  exact hacyclic h hcycle

theorem exists_assignMagicNumbers
    (hinj : ∀ g ∈ guards, ∀ h ∈ guards, address g = address h → g = h)
    (hdeclared : Declared guards pairs) (hacyclic : Acyclic (Saturation.Edge pairs)) :
    ∃ turns number, assignMagicNumbers address guards pairs turns = some (.ok number) ∧
      ∀ p ∈ pairs, number (address p.1) < number (address p.2) := by
  let sorter := MagicSorter.performAll address (sorterCalls guards pairs)
  have hineq : ∀ b a, (b, a) ∈ sorter.inequalities ↔
      ∃ p ∈ pairs, address p.1 = b ∧ address p.2 = a :=
    fun b a => (MagicSorter.mem_inequalities_performAll address _ b a).trans before_sorterCalls_iff
  have hpoint : ∀ a, a ∈ sorter.points.map address ↔ ∃ g ∈ guards, address g = a :=
    fun a => (MagicSorter.mem_points_performAll address _ a).trans point_sorterCalls_iff
  have hover : ∀ ineq ∈ sorter.inequalities, ineq.1 ∈ sorter.points.map address ∧
      ineq.2 ∈ sorter.points.map address := by
    rintro ⟨b, a⟩ hmem
    obtain ⟨p, hp, rfl, rfl⟩ := (hineq b a).mp hmem
    rw [hpoint, hpoint]
    exact ⟨⟨p.1, (hdeclared p hp).1, rfl⟩, ⟨p.2, (hdeclared p hp).2, rfl⟩⟩
  have hsorter : Acyclic fun b a => (b, a) ∈ sorter.inequalities :=
    (acyclic_before hinj hdeclared hacyclic).mono fun b a hba =>
      before_sorterCalls_iff.mpr ((hineq b a).mp hba)
  obtain ⟨turns, number, hnumber, -, -, hordered⟩ :=
    MagicSorter.numberAll_of_acyclic address sorter hover (fun _ _ => rfl) hsorter
  refine ⟨turns, number, ?_, fun p hp => hordered _ ((hineq _ _).mpr ⟨p, hp, rfl, rfl⟩)⟩
  rw [assignMagicNumbers, if_pos (declared_iff.mpr hdeclared), hnumber]
  rfl

/-- A pair with a name that is not declared is followed as a null pointer. -/
theorem declared_of_assignMagicNumbers {turns : Nat} {number : Nat → Nat}
    (h : assignMagicNumbers address guards pairs turns = some (.ok number)) :
    Declared guards pairs := by
  unfold assignMagicNumbers at h
  split at h
  next hall => exact declared_iff.mp hall
  · cases h

end Numbers

/-! ## Nodes of the symbol table -/

/-- The nodes of a symbol table are declared. -/
def NodesFrom (ndl : List NodeDecl) (symtable : SymbolTable) : Prop :=
  ∀ n nd, symtable.find n = some (.node nd) → ∃ decl ∈ ndl, nd = SymbolTable.nodeData decl

section NodesFrom

variable {ndl : List NodeDecl} {symtable : SymbolTable}

/-- A symbol that is no node keeps where the nodes come from. -/
theorem NodesFrom.add {name : String} {sym : Symbol} (h : NodesFrom ndl symtable)
    (hsym : ∀ nd, sym ≠ .node nd) : NodesFrom ndl (symtable.add name sym) := by
  intro n nd hfind
  rw [SortedMap.find_add] at hfind
  split at hfind
  · exact absurd (Option.some.inj hfind) (hsym nd)
  · exact h n nd hfind

/-- Nodes of the program come from it. -/
theorem NodesFrom.addNodeSymbols {l : List NodeDecl} (h : NodesFrom ndl symtable)
    (hl : ∀ decl ∈ l, decl ∈ ndl) : NodesFrom ndl (l.foldl SymbolTable.addNodeSymbol symtable) := by
  induction l generalizing symtable with
  | nil => exact h
  | cons decl l ih =>
      rw [List.forall_mem_cons] at hl
      refine ih (fun n nd hfind => ?_) hl.2
      rw [SymbolTable.addNodeSymbol, SortedMap.find_add] at hfind
      split at hfind
      · exact ⟨decl, hl.1, (Symbol.node.inj (Option.some.inj hfind)).symm⟩
      · exact h n nd hfind

/-- A fold keeps where the nodes come from when its steps do. -/
theorem NodesFrom.foldl {β : Type} {f : SymbolTable → β → SymbolTable} {l : List β}
    (h : NodesFrom ndl symtable)
    (hf : ∀ symtable b, NodesFrom ndl symtable → NodesFrom ndl (f symtable b)) :
    NodesFrom ndl (l.foldl f symtable) := by
  induction l generalizing symtable with
  | nil => exact h
  | cons b l ih => exact ih (hf symtable b h)

/-- Guards keep where the nodes come from. -/
theorem NodesFrom.addGuards {magic : Nat} {l : List AtomDecl} (h : NodesFrom ndl symtable) :
    NodesFrom ndl (l.foldl SymbolTable.addGuard (symtable, magic)).1 := by
  induction l generalizing symtable magic with
  | nil => exact h
  | cons g l ih => exact ih (h.add fun _ heq => nomatch heq)

/-- Modules keep where the nodes come from. -/
theorem NodesFrom.addModuleDefinitions {magic : Nat} {l : List ModDef}
    (h : NodesFrom ndl symtable) :
    NodesFrom ndl (SymbolTable.addModuleDefinitions (symtable, magic) l).1 := by
  induction l generalizing symtable magic with
  | nil =>
      rw [SymbolTable.addModuleDefinitions]
      exact h
  | cons md l ih =>
      obtain ⟨modulename, isstaticmodule, programdef⟩ := md
      rw [SymbolTable.addModuleDefinitions]
      exact ih (h.add fun _ heq => nomatch heq)

/-- The nodes of the table come from the program. -/
theorem nodesFrom_addProgram (magic : Nat) (pr : Program) :
    NodesFrom pr.nodeDeclList (SymbolTable.addProgram (SortedMap.empty, magic) pr).1 := by
  obtain ⟨condDecls, atomDecls, nodeDecls, _, _, _, moduleDecls, moduleInsts, _, _, _, _⟩ := pr
  rw [SymbolTable.addProgram]
  refine NodesFrom.addModuleDefinitions (NodesFrom.foldl (NodesFrom.addGuards
    (NodesFrom.foldl (NodesFrom.addNodeSymbols ?_ fun _ hdecl => hdecl) ?_)) ?_)
  · intro n nd hfind
    rw [SortedMap.find_empty] at hfind
    cases hfind
  · exact fun _ _ h => h.add fun _ heq => nomatch heq
  · exact fun _ _ h => h.add fun _ heq => nomatch heq

/-- A conditional keeps where the nodes come from. -/
theorem NodesFrom.addConditional {symtable' : SymbolTable} {item : DeclFormal × CommaItem}
    (h : NodesFrom ndl symtable) (hadd : Flow.addConditional symtable item = .ok symtable') :
    NodesFrom ndl symtable' := by
  obtain ⟨decl, item⟩ := item
  cases item with
  | star =>
      cases hadd
      exact h
  | ident s =>
      simp only [Flow.addConditional, TypeCheck.onNotFound] at hadd
      split at hadd
      · cases hadd
        exact h.add fun _ heq => nomatch heq
      · obtain ⟨conds, -, hadd⟩ := bind_eq_ok.mp hadd
        split at hadd
        · split at hadd
          · cases hadd
            exact h
          · cases hadd
        · cases hadd

/-- Conditionals keep where the nodes come from. -/
theorem NodesFrom.addConditionals {symtable' : SymbolTable} {expr : Expr}
    (h : NodesFrom ndl symtable) (hadd : Flow.addConditionals symtable expr = .ok symtable') :
    NodesFrom ndl symtable' := by
  unfold Flow.addConditionals at hadd
  split at hadd
  · cases hadd
    exact h
  · obtain ⟨nd, -, hadd⟩ := bind_eq_ok.mp hadd
    split at hadd
    · exact Fallible.foldlM_invariant (P := NodesFrom ndl) hadd h
        fun _ _ _ _ hst hstep => hst.addConditional hstep
    · cases hadd

end NodesFrom

section Built

variable {weakUnification : Bool} {depth : Nat} {symtable : SymbolTable} {pr : Program}
  {built : BuiltFlow} (h : buildFlowMap weakUnification depth symtable pr = .ok built)
include h

/-- What a flow has from its program. -/
theorem buildFlowMap_spec :
    built.guardOrderPairs = pr.orderDeclList ∧
      pr.exprList.foldlM Flow.addConditionals symtable = .ok built.symtable ∧
      checkGuardRefs built.symtable = .ok () := by
  unfold buildFlowMap at h
  obtain ⟨_, _, h⟩ := bind_eq_ok.mp h
  obtain ⟨_, _, h⟩ := bind_eq_ok.mp h
  obtain ⟨symboltable, hsymtable, h⟩ := bind_eq_ok.mp h
  obtain ⟨_, _, h⟩ := bind_eq_ok.mp h
  obtain ⟨_, _, h⟩ := bind_eq_ok.mp h
  obtain ⟨_, _, h⟩ := bind_eq_ok.mp h
  obtain ⟨_, _, h⟩ := bind_eq_ok.mp h
  obtain ⟨_, _, h⟩ := bind_eq_ok.mp h
  obtain ⟨_, _, h⟩ := bind_eq_ok.mp h
  obtain ⟨_, hguards, h⟩ := bind_eq_ok.mp h
  obtain ⟨_, _, h⟩ := bind_eq_ok.mp h
  cases h
  exact ⟨rfl, hsymtable, hguards⟩

/-- A node of the flow has the guard references of a declaration. -/
theorem exists_nodeDecl_of_buildFlowMap (hfrom : NodesFrom pr.nodeDeclList symtable) {n : String}
    {nd : NodeData} (hnd : built.symtable.lookupNodeSymbol n = .ok nd) :
    ∃ decl ∈ pr.nodeDeclList, nd.nodeguardrefs = decl.guardrefs := by
  have hall := Fallible.foldlM_invariant (P := NodesFrom pr.nodeDeclList)
    (buildFlowMap_spec h).2.1 hfrom fun _ _ _ _ hst hstep => hst.addConditionals hstep
  obtain ⟨decl, hdecl, rfl⟩ := hall n nd (SymbolTable.lookupNodeSymbol_eq_ok.mp hnd)
  exact ⟨decl, hdecl, rfl⟩

/-- The references of a node are to declared guards. -/
theorem guardname_mem_guardNames {n : String} {nd : NodeData}
    (hnd : built.symtable.lookupNodeSymbol n = .ok nd) {gr : GuardRef}
    (hgr : gr ∈ nd.nodeguardrefs) : gr.guardname ∈ guardNames built.symtable := by
  have hmem := SortedMap.mem_entries_iff.mpr (SymbolTable.lookupNodeSymbol_eq_ok.mp hnd)
  have hnode := Fallible.forM_eq_ok (buildFlowMap_spec h).2.2 (n, .node nd) hmem
  have href := Fallible.forM_eq_ok hnode gr hgr
  unfold checkGuardRef at href
  obtain ⟨gd, hgd, -⟩ := bind_eq_ok.mp href
  refine mem_guardNames.mpr ⟨gd, ?_⟩
  cases hlookup : built.symtable.lookupGuardSymbol gr.guardname with
  | ok gd' =>
      rw [hlookup] at hgd
      exact hgd
  | error e =>
      -- an unknown guard becomes a failure, and nothing else is caught
      rw [hlookup] at hgd
      cases e <;> cases hgd

end Built

/-! ## What a key mentions -/

/-- A reference that mentions another has arguments. -/
theorem hasGargs_of_mentions {grl : List GuardRef} {gr gr' : GuardRef}
    (h : Mentions grl gr gr') : hasGargs gr = true := by
  obtain ⟨-, ga, hga, -⟩ := h
  unfold GuardRef.gargs at hga
  obtain ⟨une, hune, hga⟩ := List.mem_filterMap.mp hga
  obtain ⟨xl, hxl, hune⟩ := List.mem_flatten.mp hune
  refine List.any_eq_true.mpr ⟨xl, hxl, List.any_eq_true.mpr ⟨une, hune, ?_⟩⟩
  cases une with
  | gArg _ => rfl
  | arg _ => cases hga
  | context _ => cases hga

/-- Both references are in the list. -/
theorem mem_of_mentions {grl : List GuardRef} {gr gr' : GuardRef} (h : Mentions grl gr gr') :
    gr ∈ grl ∧ gr' ∈ grl := by
  obtain ⟨hgr, ga, -, href⟩ := h
  exact ⟨hgr, List.mem_of_find?_eq_some href⟩

/-- In every run of events, the key of the one reference is not built before its turn comes, and all
references to the guard of the other one have had their turn then. -/
def AcquiredFirst (magic : String → Nat) (names : List String) (gr gr' : GuardRef) : Prop :=
  ∀ (I K D : Type) [LinearOrder K] [Inhabited K] (guards : Guards.GuardId → Guards.Guard)
    (guardOf : String → Guards.GuardId),
    (∀ g ∈ names, (guards (guardOf g)).magicNumber = magic g) →
    ∀ s, (Guards.system I K D guards).Reachable s →
    ∀ e i ha, (s.store.events e).holders[i]? = some ha →
      ha.ref.guard = guardOf gr.guardname → ha.ref.isLate = hasGargs gr →
      (ha.atom = none → s.store.build guards e i false = .ok s.store) ∧
        (s.has e (.acquiring i) → ∀ ha' ∈ (s.store.events e).holders,
          ha'.ref.guard = guardOf gr'.guardname →
          ∃ j < i, (s.store.events e).holders[j]? = some ha' ∧ ha'.HeldOrSkipped)

/-- The guard of the smaller number is acquired first. -/
theorem acquiredFirst_of_lt {magic : String → Nat} {names : List String} {gr gr' : GuardRef}
    (hgr : gr.guardname ∈ names) (hgr' : gr'.guardname ∈ names) (hlate : hasGargs gr = true)
    (hlt : magic gr'.guardname < magic gr.guardname) : AcquiredFirst magic names gr gr' := by
  intro I K D _ _ guards guardOf hmagic s hreach e i ha hi hguard hisLate
  refine ⟨fun hatom => ?_, fun hcall ha' hmem hguard' => ?_⟩
  · have hrefLate : ha.ref.late guards = true := by
      rw [Guards.GuardReference.late, hisLate, hlate, Bool.true_or]
    simp [Guards.Store.build, hi, hatom, hrefLate]
  · refine Guards.heldOrSkipped_of_magicNumber_lt hreach hcall hi hmem ?_
    rw [hguard, hguard', hmagic _ hgr, hmagic _ hgr']
    exact hlt

/-- At whatever addresses the guards are: what a key or a condition mentions gets a lower number,
and is acquired first. -/
def RespectsMentions (built : BuiltFlow) : Prop :=
  ∀ address : String → Nat,
    (∀ g ∈ guardNames built.symtable, ∀ h ∈ guardNames built.symtable,
      address g = address h → g = h) →
    ∀ n nd, built.symtable.lookupNodeSymbol n = .ok nd →
    ∀ gr gr', Mentions nd.nodeguardrefs gr gr' →
      hasGargs gr = true ∧
        ∃ turns number, assignMagicNumbers address (guardNames built.symtable)
            built.guardOrderPairs turns = some (.ok number) ∧
          number (address gr'.guardname) < number (address gr.guardname) ∧
          AcquiredFirst (fun g => number (address g)) (guardNames built.symtable) gr gr'

/-- Guards whose mentions are respected are declared. -/
theorem declared_of_respectsMentions {built : BuiltFlow} (h : RespectsMentions built) {n : String}
    {nd : NodeData} (hnd : built.symtable.lookupNodeSymbol n = .ok nd) {gr gr' : GuardRef}
    (hmentions : Mentions nd.nodeguardrefs gr gr') :
    Declared (guardNames built.symtable) built.guardOrderPairs := by
  obtain ⟨-, turns, number, hnumber, -⟩ :=
    h (fun g => (guardNames built.symtable).idxOf g)
      (fun g hg _ _ heq => (List.idxOf_inj hg).mp heq) n nd hnd gr gr' hmentions
  exact declared_of_assignMagicNumbers hnumber

/-- The references of the node that opens the door. -/
def keyReference : GuardRef :=
  { guardname := "Key", arguments := [[.arg "x"]], localgname := some "key" }

/-- A reference whose argument mentions the local name of another guard. -/
def doorReference : GuardRef :=
  { guardname := "Door", arguments := [[.gArg "key"]] }

/-- A node that opens the door that its key is for, and precedences. -/
def doorProgram (precedences : List (String × String)) : Program :=
  let x : DeclFormal := { ctypemod := "", ctype := "int", name := "x" }
  let guard (n : String) : AtomDecl :=
    { atomname := n, atominputs := [x], outputtype := { dctypemod := "", dctype := "int" },
      atomtype := "exclusive" }
  { atomDeclList := [guard "Door", guard "Key"]
    nodeDeclList := [{
      nodename := "Enter", nodefunction := "Enter", inputs := [x], outputs := some []
      guardrefs := [keyReference, doorReference] }]
    orderDeclList := precedences }

/-- What the compiler makes of the door: the references of the node, the guards and the pairs. -/
def doorFlow (precedences : List (String × String)) :
    Except Exn (List GuardRef × List String × List (String × String)) := do
  let flat ← flatten false 1 (doorProgram precedences)
  let built ← buildFlowMap false 1 (SymbolTable.addProgram (SortedMap.empty, 0) flat).1 flat
  let nd ← built.symtable.lookupNodeSymbol "Enter"
  return (nd.nodeguardrefs, guardNames built.symtable, built.guardOrderPairs)

/-- The flow of the example. -/
theorem doorFlow_eq_ok {precedences pairs : List (String × String)} {grl : List GuardRef}
    {guards : List String} (h : doorFlow precedences = .ok (grl, guards, pairs)) :
    ∃ flat built nd, flatten false 1 (doorProgram precedences) = .ok flat ∧
      buildFlowMap false 1 (SymbolTable.addProgram (SortedMap.empty, 0) flat).1 flat = .ok built ∧
      built.symtable.lookupNodeSymbol "Enter" = .ok nd ∧ nd.nodeguardrefs = grl ∧
      guardNames built.symtable = guards ∧ built.guardOrderPairs = pairs := by
  obtain ⟨flat, hflat, h⟩ := bind_eq_ok.mp h
  obtain ⟨built, hbuilt, h⟩ := bind_eq_ok.mp h
  obtain ⟨nd, hnd, h⟩ := bind_eq_ok.mp h
  obtain ⟨hrefs, h⟩ := Prod.mk.inj (Except.ok.inj h)
  obtain ⟨hguards, hpairs⟩ := Prod.mk.inj h
  exact ⟨flat, built, nd, hflat, hbuilt, hnd, hrefs, hguards, hpairs⟩

/-- The door of the example mentions the key. -/
theorem mentions_door : Mentions [keyReference, doorReference] doorReference keyReference :=
  ⟨by decide, "key", by decide, by decide⟩

/-- The compiler accepts a precedence of a vault that nobody declares before the door. -/
theorem not_respectsMentions_vault :
    ∃ flat built, flatten false 1 (doorProgram [("Vault", "Door")]) = .ok flat ∧
      buildFlowMap false 1 (SymbolTable.addProgram (SortedMap.empty, 0) flat).1 flat = .ok built ∧
      CycleFind.detect 4 built.guardOrderPairs = .ok false ∧ ¬ RespectsMentions built := by
  have hflow : doorFlow [("Vault", "Door")] =
      .ok ([keyReference, doorReference], ["Door", "Key"],
        [("Key", "Door"), ("Vault", "Door")]) := by
    decide +kernel
  obtain ⟨flat, built, nd, hflat, hbuilt, hnd, hrefs, hguards, hpairs⟩ := doorFlow_eq_ok hflow
  refine ⟨flat, built, hflat, hbuilt, by rw [hpairs]; decide +kernel, fun h => ?_⟩
  have hdeclared := declared_of_respectsMentions h hnd (hrefs ▸ mentions_door)
  rw [hguards, hpairs] at hdeclared
  exact absurd (hdeclared ("Vault", "Door") (by decide)).1 (by decide)

/-- In an accepted program the guards that keys mention are acquired first if and only if no key
mentions any, or all precedences are between declared guards. -/
theorem respectsMentions_iff {weakUnification weakUnification' : Bool}
    {depth depth' depth'' magic : Nat} {prog flat : Program} {built : BuiltFlow}
    (hflat : flatten weakUnification depth prog = .ok flat)
    (hbuilt : buildFlowMap weakUnification' depth'
      (SymbolTable.addProgram (SortedMap.empty, magic) flat).1 flat = .ok built)
    (hcycle : CycleFind.detect depth'' built.guardOrderPairs = .ok false) :
    RespectsMentions built ↔
      ((∃ n nd gr gr', built.symtable.lookupNodeSymbol n = .ok nd ∧
        Mentions nd.nodeguardrefs gr gr') →
      Declared (guardNames built.symtable) built.guardOrderPairs) := by
  constructor
  · rintro h ⟨n, nd, gr, gr', hnd, hmentions⟩
    exact declared_of_respectsMentions h hnd hmentions
  · intro h address hinj n nd hnd gr gr' hmentions
    have hdeclared := h ⟨n, nd, gr, gr', hnd, hmentions⟩
    obtain ⟨decl, hdecl, hrefs⟩ :=
      exists_nodeDecl_of_buildFlowMap hbuilt (nodesFrom_addProgram _ _) hnd
    have hpair : (gr'.guardname, gr.guardname) ∈ built.guardOrderPairs := by
      rw [(buildFlowMap_spec hbuilt).1]
      exact ordersMentions_flatten hflat decl hdecl gr gr' (hrefs ▸ hmentions)
    obtain ⟨turns, number, hnumber, hordered⟩ :=
      exists_assignMagicNumbers hinj hdeclared (CycleFind.acyclic_of_detect hcycle)
    obtain ⟨hgr, hgr'⟩ := mem_of_mentions hmentions
    have hlate := hasGargs_of_mentions hmentions
    have hlt := hordered _ hpair
    exact ⟨hlate, turns, number, hnumber, hlt, acquiredFirst_of_lt
      (guardname_mem_guardNames hbuilt hnd hgr) (guardname_mem_guardNames hbuilt hnd hgr')
      hlate hlt⟩

theorem respectsMentions_door :
    ∃ flat built, flatten false 1 (doorProgram []) = .ok flat ∧
      buildFlowMap false 1 (SymbolTable.addProgram (SortedMap.empty, 0) flat).1 flat = .ok built ∧
      RespectsMentions built := by
  have hflow : doorFlow [] =
      .ok ([keyReference, doorReference], ["Door", "Key"], [("Key", "Door")]) := by
    decide +kernel
  obtain ⟨flat, built, nd, hflat, hbuilt, hnd, hrefs, hguards, hpairs⟩ := doorFlow_eq_ok hflow
  have hcycle : CycleFind.detect 4 built.guardOrderPairs = .ok false := by
    rw [hpairs]
    decide +kernel
  refine ⟨flat, built, hflat, hbuilt, (respectsMentions_iff hflat hbuilt hcycle).mpr fun _ => ?_⟩
  rw [hguards, hpairs]
  unfold Declared
  decide

end GuardNumbers
end Frontend
end OFlux
