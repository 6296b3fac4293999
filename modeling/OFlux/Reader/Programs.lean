import OFlux.Compiler.PluginProgram
import OFlux.Reader.Reading

/-!
# Reading a program

What the reader builds from the elements that the compiler writes.

Main results:

- Theorem {lit}`readDirect_successor`: a successor that is read with additions allowed has all
  of its cases, in reverse when they go to the front.
- Theorem {lit}`read_program`: the flow of a program.
-/

namespace OFlux
namespace Reader

open Library Compiler

/-! ## Objects of elements -/

/-- The condition that the reader builds from an element. -/
def conditionObject (e : ConditionElement) : Condition where
  condfn := { name := e.name, argno := e.argno, unionhash := e.unionhash }
  isNegated := boolVal e.isnegated

/-- The case that the reader builds from an element. -/
def caseObject (e : CaseElement) : Case where
  targetName := e.nodetarget
  conditions := e.conditions.map conditionObject

/-- The cases of a successor in the order in which they are tried. -/
def casesObject (front : Bool) (cases : List CaseElement) : List Case :=
  if front then (cases.map caseObject).reverse else cases.map caseObject

/-- The successor that the reader builds from an element. -/
def successorObject (front : Bool) (e : SuccessorElement) : Successor where
  name := e.name
  cases := casesObject front e.cases

/-- The reference to a guard that the flow has. -/
def guardRefObject (e : GuardRefElement) : GuardReference where
  guard := some e.name
  name := e.name
  unionhash := e.unionhash
  hash := e.hash
  wtype := e.wtype
  isLate := boolVal e.late

/-- The node that the reader builds from an element. -/
def nodeObject (front : Bool) (e : NodeElement) : Node where
  name := e.name
  functionName := e.function
  isErrorHandler := boolVal e.iserrhandler
  isSource := boolVal e.source
  isDoor := boolVal e.door
  isDetached := boolVal e.detached
  inputUnionHash := e.inputunionhash
  outputUnionHash := e.outputunionhash
  guardRefs := e.guardrefs.map guardRefObject
  errorHandler := e.errorhandler
  successorList := some (e.successors.map (successorObject front))

/-! ## Cases and successors -/

/-- A condition is read into its case. -/
theorem readChild_condition (allow front : Bool) (c : Case) (e : ConditionElement) :
    readChild readCaseElement allow front c e.toXml =
      .ok (if allow then c.add (conditionObject e) else c) :=
  rfl

/-- The conditions of a case are read in order. -/
theorem readConditions (front : Bool) (c : Case) (l : List ConditionElement) :
    (l.map ConditionElement.toXml).foldlM (readChild readCaseElement true front) c =
      .ok { c with conditions := c.conditions ++ l.map conditionObject } := by
  induction l generalizing c with
  | nil => simp [pure, Except.pure]
  | cons e l ih =>
      rw [List.map_cons, List.foldlM_cons, readChild_condition]
      refine (ih _).trans ?_
      simp [Case.add]

/-- Conditions that may not be added are passed over. -/
theorem skipConditions (front : Bool) (c : Case) (l : List ConditionElement) :
    (l.map ConditionElement.toXml).foldlM (readChild readCaseElement false front) c = .ok c := by
  refine Fallible.foldlM_eq_self fun x hx => ?_
  obtain ⟨e, _, rfl⟩ := List.mem_map.mp hx
  exact readChild_condition false front c e

/-- A case is read into its successor. -/
theorem readDirect_case (allow front : Bool) (s : Successor) (e : CaseElement) :
    readDirect readSuccessorElement allow front s e.toXml =
      .ok (if allow then s.add (caseObject e) front else s) := by
  have hread : readDirect readSuccessorElement allow front s e.toXml =
      ((e.conditions.map ConditionElement.toXml).foldlM (readChild readCaseElement allow front)
        ⟨e.nodetarget, []⟩).bind fun c => .ok (if allow then s.add c front else s) :=
    rfl
  cases allow with
  | true => rw [hread, readConditions]; rfl
  | false => rw [hread, skipConditions]; rfl

/-- A case that stands outside of an addition is passed over. -/
theorem skipCase (front : Bool) (s : Successor) (e : CaseElement) :
    readChild readSuccessorElement false front s e.toXml = .ok s := by
  rw [readChild_of_tag (by simp [CaseElement.toXml]) (by simp [CaseElement.toXml]),
    readDirect_case]
  rfl

/-- Cases that go to the front end up in reverse order. -/
theorem readCases (front : Bool) (s : Successor) (l : List CaseElement) :
    (l.map CaseElement.toXml).foldlM (readDirect readSuccessorElement true front) s =
      .ok { s with
        cases := if front then casesObject front l ++ s.cases else s.cases ++ casesObject front l } :=
      by
  induction l generalizing s with
  | nil => cases front <;> simp [casesObject, pure, Except.pure]
  | cons e l ih =>
      rw [List.map_cons, List.foldlM_cons, readDirect_case]
      refine (ih _).trans ?_
      cases front <;> simp [Successor.add, casesObject]

/-- The cases of a successor are read in order. -/
theorem readChildCases (front : Bool) (s : Successor) (l : List CaseElement) :
    (l.map CaseElement.toXml).foldlM (readChild readSuccessorElement true front) s =
      .ok { s with
        cases := if front then casesObject front l ++ s.cases else s.cases ++ casesObject front l } :=
      by
  rw [foldlM_readChild, readCases]
  intro x hx
  obtain ⟨e, _, rfl⟩ := List.mem_map.mp hx
  simp [CaseElement.toXml]

/-- Cases that may not be added are passed over. -/
theorem skipCases (front : Bool) (s : Successor) (l : List CaseElement) :
    (l.map CaseElement.toXml).foldlM (readChild readSuccessorElement false front) s = .ok s := by
  refine Fallible.foldlM_eq_self fun x hx => ?_
  obtain ⟨e, _, rfl⟩ := List.mem_map.mp hx
  exact skipCase front s e

/-- A successor is read into the list. -/
theorem readDirect_successor (front : Bool) (sl : SuccessorList) (e : SuccessorElement) :
    readDirect readSuccessorListElement true front sl e.toXml =
      .ok (sl.add (successorObject front e)) := by
  have hread : readDirect readSuccessorListElement true front sl e.toXml =
      ((e.cases.map CaseElement.toXml).foldlM (readChild readSuccessorElement true front)
        ⟨e.name, []⟩).bind fun s => .ok (sl.add s) :=
    rfl
  rw [hread, readChildCases]
  cases front <;> simp [Except.bind, successorObject]

/-- A successor of an external node is read into the one of its name. -/
theorem readChild_successor_of_external (front : Bool) (sl : SuccessorList)
    (e : SuccessorElement) :
    readChild readSuccessorListElement false front sl e.toXml =
      match sl.getSuccessor e.name with
      | some s => ((e.cases.map CaseElement.toXml).foldlM
          (readChild readSuccessorElement false front) s).bind fun s =>
            .ok (KeyedList.replace Successor.name sl s)
      | none => ((e.cases.map CaseElement.toXml).foldlM
          (readChild readSuccessorElement false front) ⟨e.name, []⟩).bind fun s =>
            if s.cases = [] then .ok sl else .error "null successor" :=
  rfl

/-- A successor that stands outside of an addition, with cases that do, is passed over. -/
theorem skipSuccessor (front : Bool) (sl : SuccessorList) (e : SuccessorElement) :
    readChild readSuccessorListElement false front sl e.toXml = .ok sl := by
  rw [readChild_successor_of_external]
  split
  next s hs =>
    rw [skipCases]
    have hfind : KeyedList.find Successor.name s.name sl = some s := by
      rw [(KeyedList.find_eq_some hs).2]
      exact hs
    exact congrArg Except.ok (KeyedList.replace_of_find hfind)
  next => rw [skipCases]; rfl

/-- Successors under new names are appended. -/
theorem readSuccessors (front : Bool) {sl : SuccessorList} {l : List SuccessorElement}
    (h : (sl.map Successor.name ++ l.map SuccessorElement.name).Nodup) :
    (l.map SuccessorElement.toXml).foldlM (readDirect readSuccessorListElement true front) sl =
      .ok (sl ++ l.map (successorObject front)) := by
  have hfold : ∀ sl : SuccessorList, (l.map SuccessorElement.toXml).foldlM
      (readDirect readSuccessorListElement true front) sl =
        .ok ((l.map (successorObject front)).foldl SuccessorList.add sl) := by
    intro sl
    rw [List.foldlM_map, List.foldl_map]
    exact Fallible.foldlM_eq_ok (fun e _ sl => readDirect_successor front sl e) sl
  rw [hfold]
  refine congrArg Except.ok (KeyedList.foldl_insert ?_)
  rw [List.map_append, List.map_map]
  exact h

/-! ## Nodes -/

/-- The guard references of a node are read in order. -/
theorem readGuardRefs {guards : List String} (front : Bool) (n : Node) {l : List GuardRefElement}
    (h : ∀ e ∈ l, e.name ∈ guards) :
    (l.map GuardRefElement.toXml).foldlM (readChild (readNodeElement guards) true front) n =
      .ok { n with guardRefs := n.guardRefs ++ l.map guardRefObject } := by
  induction l generalizing n with
  | nil => simp [pure, Except.pure]
  | cons e l ih =>
      rw [List.forall_mem_cons] at h
      have hread : readChild (readNodeElement guards) true front n e.toXml =
          .ok { n with
            guardRefs := n.guardRefs ++ [{ guardRefObject e with
              guard := if e.name ∈ guards then some e.name else none }] } :=
        rfl
      rw [List.map_cons, List.foldlM_cons, hread, if_pos h.1]
      refine (ih _ h.2).trans ?_
      simp [guardRefObject]

/-- The error handler of a node. -/
theorem readErrorHandler (guards : List String) (front : Bool) {n : Node}
    (hn : n.errorHandler = none) (e : Option String) :
    (e.map errorHandlerXml).toList.foldlM (readChild (readNodeElement guards) true front) n =
      .ok { n with errorHandler := e } := by
  cases e with
  | none =>
      obtain ⟨⟩ := n
      cases hn
      rfl
  | some name => rfl

/-- The successors of a node are read in order. -/
theorem readSuccessorList (guards : List String) (front : Bool) {n : Node}
    (hn : n.successorList = none) {l : List SuccessorElement}
    (h : (l.map SuccessorElement.name).Nodup) :
    readChild (readNodeElement guards) true front n (successorListXml l) =
      .ok { n with successorList := some (l.map (successorObject front)) } := by
  have hread : readChild (readNodeElement guards) true front n (successorListXml l) =
      ((l.map SuccessorElement.toXml).foldlM (readChild readSuccessorListElement true front)
        []).bind fun sl => .ok (if n.successorList = none then { n with successorList := some sl }
          else n) :=
    rfl
  have hchild : ∀ x ∈ l.map SuccessorElement.toXml, x.tag ≠ "add" ∧ x.tag ≠ "plugin" := by
    intro x hx
    obtain ⟨e, _, rfl⟩ := List.mem_map.mp hx
    simp [SuccessorElement.toXml]
  have hnames : (([] : SuccessorList).map Successor.name ++ l.map SuccessorElement.name).Nodup := h
  rw [hread, foldlM_readChild hchild, readSuccessors front hnames]
  simp [Except.bind, hn]

/-- The elements inside of a node give its references and successors. -/
theorem readNodeContents {guards : List String} (front : Bool) {n : Node} (e : NodeElement)
    (hsl : n.successorList = none) (hrefs : n.guardRefs = []) (hhandler : n.errorHandler = none)
    (h : ∀ g ∈ e.guardrefs, g.name ∈ guards) :
    e.toXml.contents.foldlM (readChild (readNodeElement guards) true front) n =
      .ok { n with
        guardRefs := e.guardrefs.map guardRefObject
        errorHandler := e.errorhandler
        successorList := some (e.successors.map (successorObject front)) } := by
  have hcontents : e.toXml.contents = e.guardrefs.map GuardRefElement.toXml ++
      ((e.errorhandler.map errorHandlerXml).toList ++ [successorListXml e.successors]) := by
    simp [NodeElement.toXml, NodeElement.references]
  rw [hcontents, Fallible.foldlM_append_of_ok (readGuardRefs front n h),
    Fallible.foldlM_append_of_ok (readErrorHandler guards front (by exact hhandler) _), List.foldlM_cons,
    readSuccessorList guards front (by exact hsl) e.names_nodup, hrefs]
  rfl

/-- A node is read into the flow, or into the node of its name. -/
theorem readDirect_node (front : Bool) (f : Flow) (e : NodeElement) :
    readDirect readFlowElement true front f e.toXml =
      if boolVal e.external then
        match f.getNode e.name with
        | some n => (e.toXml.contents.foldlM (readChild (readNodeElement f.guards) false front)
            n).bind fun n => .ok (f.setNode n)
        | none => .error "null node"
      else
        (e.toXml.contents.foldlM (readChild (readNodeElement f.guards) true front)
          { nodeObject front e with guardRefs := [], errorHandler := none,
                                    successorList := none }).bind fun n => .ok (f.addNode n) :=
  rfl

/-- A node of a program is read into the flow. -/
theorem readNode {f : Flow} (front : Bool) (e : NodeElement) (hexternal : e.external = "false")
    (h : ∀ g ∈ e.guardrefs, g.name ∈ f.guards) :
    readDirect readFlowElement true front f e.toXml = .ok (f.addNode (nodeObject front e)) := by
  have hnot : ¬(boolVal e.external = true) := by simp [hexternal, boolVal]
  rw [readDirect_node, if_neg hnot, readNodeContents front e rfl rfl rfl h]
  rfl

/-! ## Flows -/

/-- The guards after one was added. -/
theorem mem_guards_addGuard {f : Flow} {name g : String} :
    g ∈ (f.addGuard name).guards ↔ g ∈ f.guards ∨ g = name := by
  unfold Flow.addGuard KeyedList.insert
  split
  next hold =>
    rw [List.map_id] at hold
    exact ⟨Or.inl, fun hg => hg.elim id fun heq => heq ▸ hold⟩
  next => simp

/-- The guards of a program are read. -/
theorem readGuards (front : Bool) (f : Flow) (gs : List GuardElement) :
    ∃ guards, (gs.map GuardElement.toXml).foldlM (readDirect readFlowElement true front) f =
        .ok { f with guards := guards } ∧
      ∀ g, g ∈ guards ↔ g ∈ f.guards ∨ g ∈ gs.map GuardElement.name := by
  induction gs generalizing f with
  | nil => exact ⟨f.guards, rfl, by simp⟩
  | cons e gs ih =>
      have hread : readDirect readFlowElement true front f e.toXml = .ok (f.addGuard e.name) := rfl
      obtain ⟨guards, hguards, hmem⟩ := ih (f.addGuard e.name)
      refine ⟨guards, ?_, fun g => ?_⟩
      · rw [List.map_cons, List.foldlM_cons, hread]
        exact hguards
      · rw [hmem, mem_guards_addGuard, List.map_cons, List.mem_cons, or_assoc]

/-- The two guards of a precedence. -/
def precedenceObject (e : GuardPrecedenceElement) : String × String :=
  (e.before, e.after)

/-- The precedences of a program are read. -/
theorem readPrecedences (front : Bool) (f : Flow) (ps : List GuardPrecedenceElement) :
    (ps.map GuardPrecedenceElement.toXml).foldlM (readDirect readFlowElement true front) f =
      .ok { f with precedences := f.precedences ++ ps.map precedenceObject } := by
  induction ps generalizing f with
  | nil => simp [pure, Except.pure]
  | cons e ps ih =>
      have hread : readDirect readFlowElement true front f e.toXml =
          .ok (f.addGuardPrecedence e.before e.after) := rfl
      rw [List.map_cons, List.foldlM_cons, hread]
      refine (ih _).trans ?_
      simp [Flow.addGuardPrecedence, precedenceObject]

/-- The nodes of a program are read in order. -/
theorem readNodes (front : Bool) {f : Flow} {ns : List NodeElement}
    (hexternal : ∀ n ∈ ns, n.external = "false")
    (hguards : ∀ n ∈ ns, ∀ g ∈ n.guardrefs, g.name ∈ f.guards)
    (hnames : (f.nodes.map Node.name ++ ns.map NodeElement.name).Nodup) :
    (ns.map NodeElement.toXml).foldlM (readDirect readFlowElement true front) f =
      .ok { f with nodes := f.nodes ++ ns.map (nodeObject front) } := by
  have hfold : (ns.map NodeElement.toXml).foldlM (readDirect readFlowElement true front) f =
      .ok { f with
        nodes := (ns.map (nodeObject front)).foldl (KeyedList.insert Node.name) f.nodes } := by
    clear hnames
    induction ns generalizing f with
    | nil => rfl
    | cons n ns ih =>
        rw [List.forall_mem_cons] at hexternal hguards
        rw [List.map_cons, List.foldlM_cons, readNode front n hexternal.1 hguards.1]
        exact ih hexternal.2 hguards.2
  rw [hfold, KeyedList.foldl_insert]
  rw [List.map_append, List.map_map]
  exact hnames

/-- Guards, precedences and nodes under new names are added to a flow. -/
theorem readElements (front : Bool) {f : Flow} (gs : List GuardElement)
    (ps : List GuardPrecedenceElement) {ns : List NodeElement}
    (hexternal : ∀ n ∈ ns, n.external = "false")
    (hguards : ∀ n ∈ ns, ∀ g ∈ n.guardrefs, g.name ∈ f.guards ∨
      g.name ∈ gs.map GuardElement.name)
    (hnames : (f.nodes.map Node.name ++ ns.map NodeElement.name).Nodup) :
    ∃ f', (gs.map GuardElement.toXml ++ ps.map GuardPrecedenceElement.toXml ++
        ns.map NodeElement.toXml).foldlM (readDirect readFlowElement true front) f = .ok f' ∧
      f'.nodes = f.nodes ++ ns.map (nodeObject front) ∧
      (∀ g, g ∈ f'.guards ↔ g ∈ f.guards ∨ g ∈ gs.map GuardElement.name) ∧
      f'.precedences = f.precedences ++ ps.map precedenceObject := by
  obtain ⟨guards, hgs, hstored⟩ := readGuards front f gs
  have hps := readPrecedences front { f with guards := guards } ps
  have hns := readNodes front (f := { f with
      guards := guards
      precedences := f.precedences ++ ps.map precedenceObject })
    hexternal (fun n hn g hg => (hstored _).mpr (hguards n hn g hg)) hnames
  refine ⟨{ f with
    guards := guards
    precedences := f.precedences ++ ps.map precedenceObject
    nodes := f.nodes ++ ns.map (nodeObject front) }, ?_, rfl, hstored, rfl⟩
  rw [List.append_assoc, Fallible.foldlM_append_of_ok hgs, Fallible.foldlM_append_of_ok hps]
  exact hns

/-- The elements of a program are neither additions nor plugins. -/
theorem tag_of_mem_contents {p : Program} {x : Xml} (h : x ∈ p.contents) :
    x.tag ≠ "add" ∧ x.tag ≠ "plugin" := by
  rcases Program.mem_contents h with ⟨g, _, rfl⟩ | ⟨q, _, rfl⟩ | ⟨n, _, rfl⟩
  · simp [GuardElement.toXml]
  · simp [GuardPrecedenceElement.toXml]
  · simp [NodeElement.toXml]

/-- A program is read as the flow of its nodes. -/
theorem readFlow_program (programname ofluxversion : String) (p : Program) :
    ∃ f, readFlow (p.toXml programname ofluxversion) = .ok f ∧
      f.nodes = p.nodes.map (nodeObject false) ∧
      (∀ g, g ∈ f.guards ↔ g ∈ p.guards.map GuardElement.name) ∧
      f.precedences = p.precedences.map precedenceObject := by
  obtain ⟨f, hf, hnodes, hguards, hprecedences⟩ :=
    readElements false (f := Flow.empty) p.guards p.precedences
      p.external_eq (fun n hn g hg => Or.inr (p.guards_declared n hn g hg)) p.names_nodup
  refine ⟨f, ?_, hnodes, fun g => (hguards g).trans (or_iff_right List.not_mem_nil),
    hprecedences.trans (List.nil_append _)⟩
  have hread : readFlow (p.toXml programname ofluxversion) =
      p.contents.foldlM (readChild readFlowElement true false) Flow.empty := rfl
  rw [hread, foldlM_readChild fun x hx => tag_of_mem_contents hx]
  exact hf

/-- A flow with the nodes of a program has what they refer to. -/
theorem resolved_program {f : Flow} {p : Program} (h : f.nodes = p.nodes.map (nodeObject false)) :
    f.Resolved := by
  have hnames : f.nodes.map Node.name = p.nodes.map NodeElement.name := by
    rw [h, List.map_map]
    rfl
  have hnodup : (f.nodes.map Node.name).Nodup := hnames ▸ p.names_nodup
  have hget : ∀ n ∈ p.nodes, f.getNode n.name = some (nodeObject false n) := by
    intro n hn
    have hmem : nodeObject false n ∈ f.nodes := h ▸ List.mem_map_of_mem hn
    exact KeyedList.find_of_mem Node.name hnodup hmem
  constructor
  · intro n hn s hs c hc
    rw [h] at hn
    obtain ⟨e, he, rfl⟩ := List.mem_map.mp hn
    obtain ⟨se, hse, rfl⟩ := List.mem_map.mp hs
    obtain ⟨ce, hce, rfl⟩ := List.mem_map.mp hc
    obtain ⟨m, hm, hname⟩ := List.mem_map.mp (p.targets_declared e he se hse ce hce)
    have htarget : (caseObject ce).targetName = m.name := hname.symm
    rw [htarget, hget m hm]
    rfl
  · intro n hn e he
    rw [h] at hn
    obtain ⟨ne, hne, rfl⟩ := List.mem_map.mp hn
    obtain ⟨m, hm, rfl, hhandler⟩ := p.handlers_declared ne hne e he
    rw [hget m hm]
    simp [nodeObject, hhandler, boolVal]

/-- A program can be read. -/
theorem read_program (programname ofluxversion : String) (p : Program) :
    ∃ f, read (p.toXml programname ofluxversion) [] = .ok f ∧
      f.nodes = p.nodes.map (nodeObject false) ∧
      (∀ g, g ∈ f.guards ↔ g ∈ p.guards.map GuardElement.name) ∧
      f.precedences = p.precedences.map precedenceObject := by
  obtain ⟨f, hf, hnodes, hrest⟩ := readFlow_program programname ofluxversion p
  refine ⟨f, ?_, hnodes, hrest⟩
  have hread : read (p.toXml programname ofluxversion) [] =
      (readFlow (p.toXml programname ofluxversion)).bind fun f =>
        if f.Resolved then .ok f else .error "assertion failed: fsrc" := rfl
  rw [hread, hf]
  exact if_pos (resolved_program hnodes)

end Reader
end OFlux
