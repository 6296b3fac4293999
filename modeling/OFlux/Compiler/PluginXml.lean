import OFlux.Compiler.Xml
import OFlux.Library.OrderedMatching

/-!
# Elements of programs and plugins

The elements that the compiler generates for the nodes of a program, and
{lit}`emit_plugin_xml`, which writes what a plugin adds to a program: new nodes as they are,
and for a node that was there before its difference, with everything new inside of
{lit}`add` elements.

Main results:

- Theorem {lit}`added_addMerge`: what a list merge puts inside of {lit}`add` elements.
- Theorem {lit}`diffHandler_eq_ok`: which differences the handler accepts.
-/

namespace OFlux
namespace Compiler

open Library

/-! ## Generated elements -/

/-- A {lit}`condition` element: the test of one output argument. -/
@[ext]
structure ConditionElement where
  name : String
  argno : String
  isnegated : String
  unionhash : String
deriving DecidableEq

/-- As {lit}`condition` writes it. -/
def ConditionElement.toXml (c : ConditionElement) : Xml :=
  .element "condition" [("name", c.name), ("argno", c.argno), ("isnegated", c.isnegated),
    ("unionhash", c.unionhash)] []

/-- A {lit}`case` element: a target with the conditions of going there. -/
@[ext]
structure CaseElement where
  nodetarget : String
  conditions : List ConditionElement
deriving DecidableEq

/-- As {lit}`case` writes it. -/
def CaseElement.toXml (c : CaseElement) : Xml :=
  .element "case" [("nodetarget", c.nodetarget)] (c.conditions.map ConditionElement.toXml)

/-- A {lit}`successor` element: the cases in the order in which they are tried. -/
structure SuccessorElement where
  name : String
  cases : List CaseElement
deriving DecidableEq

/-- As {lit}`successor` writes it. -/
def SuccessorElement.toXml (s : SuccessorElement) : Xml :=
  .element "successor" [("name", s.name)] (s.cases.map CaseElement.toXml)

/-- A {lit}`guardref` element of a node. -/
@[ext]
structure GuardRefElement where
  name : String
  unionhash : String
  hash : String
  wtype : String
  late : String
deriving DecidableEq

/-- As {lit}`guardref` writes it. -/
def GuardRefElement.toXml (g : GuardRefElement) : Xml :=
  .element "guardref" [("name", g.name), ("unionhash", g.unionhash), ("hash", g.hash),
    ("wtype", g.wtype), ("late", g.late)] []

/-- The name of the node that handles errors. -/
def errorHandlerXml (name : String) : Xml :=
  .element "errorhandler" [("name", name)] []

/-- All successors of a node in one list. -/
def successorListXml (successors : List SuccessorElement) : Xml :=
  .element "successorlist" [] (successors.map SuccessorElement.toXml)

/-- A node; the compiler numbers its successors, so that their names differ. -/
structure NodeElement where
  name : String
  function : String
  source : String
  door : String
  iserrhandler : String
  detached : String
  external : String
  inputunionhash : String
  outputunionhash : String
  guardrefs : List GuardRefElement
  errorhandler : Option String
  successors : List SuccessorElement
  names_nodup : (successors.map SuccessorElement.name).Nodup

namespace NodeElement

/-- The attributes of a node, in the order in which they are written. -/
def attributes (n : NodeElement) : List (String × String) :=
  [("name", n.name), ("function", n.function), ("source", n.source), ("door", n.door),
    ("iserrhandler", n.iserrhandler), ("detached", n.detached), ("external", n.external),
    ("inputunionhash", n.inputunionhash), ("outputunionhash", n.outputunionhash)]

/-- The contents in front of the successor list. -/
def references (n : NodeElement) : List Xml :=
  n.guardrefs.map GuardRefElement.toXml ++ (n.errorhandler.map errorHandlerXml).toList

/-- A node with its references in front of its successors. -/
def toXml (n : NodeElement) : Xml :=
  .element "node" n.attributes (n.references ++ [successorListXml n.successors])

end NodeElement

/-! ## The difference of a plugin -/

/-- The tags whose contents are ordered. -/
def orderedTags : List String :=
  ["guardref", "successor", "case"]

/-- The key of a node or of a guard, also used for successors. -/
def getKey (x : Xml) : String :=
  x.tag ++
    match x.attributes.lookup "name" with
    | some name => name
    | none =>
        match x.attributes.lookup "before", x.attributes.lookup "after" with
        | some before, some after => before ++ "<" ++ after
        | _, _ => ""

/-- {lit}`List.sort xml_compare`. -/
def xmlSort (l : List Xml) : List Xml :=
  l.insertionSort fun x y => getKey x ≤ getKey y

/-- Something that the reader of a plugin is to add. -/
def add (somethings : List Xml) : Xml :=
  .element "add" [] somethings

/-- Something that the reader of a plugin is to remove. -/
def remove (somethings : List Xml) : Xml :=
  .element "remove" [] somethings

/-- What two elements of a list merge are compared by. -/
def matchKey (x : Xml) : String × List (String × String) :=
  (x.tag, x.attributes)

/-- Put what has been collected, in reverse, in front, if there is anything. -/
def condAdd (accumulated ll : List Xml) : List Xml :=
  match accumulated with
  | [] => ll
  | _ => add accumulated.reverse :: ll

/-- Merge two lists of children; what the shorter one lacks is put into {lit}`add`
elements.  Matched children are written as they are. -/
def addMerge (accumulated : List Xml) : List Xml → List Xml → List Xml
  | sh :: st, lh :: lt =>
      if matchKey lh = matchKey sh then condAdd accumulated (lh :: addMerge [] st lt)
      else addMerge (lh :: accumulated) (sh :: st) lt
  | [], longer => condAdd (longer.reverse ++ accumulated) []
  | shorter, [] => remove shorter :: condAdd accumulated []

/-- The first attribute that differs, with its two values. -/
def findAttribDiff : List (String × String) → List (String × String) →
    Option (String × String × String)
  | [], [] => none
  | (a1, v1) :: t1, (a2, v2) :: t2 =>
      if a1 ≠ a2 then some (a1, v1, "<unknown1>")
      else if v1 = v2 then findAttribDiff t1 t2
      else some (a1, v1, v2)
  | [], (a2, v2) :: _ => some (a2, "<unknown2>", v2)
  | (a1, v1) :: _, [] => some (a1, v1, "<unknown3>")

/-- The name attribute for a message. -/
def getNameIfThere (attributes : List (String × String)) : String :=
  match attributes.lookup "name" with
  | some name => "(name=" ++ name ++ ")"
  | none => ""

/-- What to write for two elements that differ: a merge for a successor list and for a
successor, and an exception otherwise. -/
def diffHandler (bef aft : Xml) : Except XMLConversion Xml :=
  if bef.tag ≠ aft.tag then
    throw ("plugin caused XML tag difference [" ++ bef.tag ++ "/" ++ aft.tag ++ "]" ++
      "(name attributes " ++ getNameIfThere bef.attributes ++ "/" ++
      getNameIfThere aft.attributes ++ ")")
  else if aft.attributes ≠ bef.attributes then
    match findAttribDiff bef.attributes aft.attributes with
    | some (name, befVal, aftVal) =>
        throw ("plugin caused XML attribute difference on a " ++ bef.tag ++ " tagged node " ++
          getNameIfThere bef.attributes ++ "\n   before/after attribute " ++ name ++ " [" ++
          befVal ++ "/" ++ aftVal ++ "]")
    | none => throw "Not_found"
  else if bef.tag = "successorlist" ∨ bef.tag = "successor" then
    pure (.element bef.tag bef.attributes
      (if bef.tag ∈ orderedTags then addMerge [] bef.contents aft.contents
      else addMerge [] (xmlSort bef.contents) (xmlSort aft.contents)))
  else throw ("plugin caused an unexpected tag to have a difference [" ++ bef.tag ++ "]")

/-- What stands for an element that did not change. -/
def sameVal : Xml :=
  .element "samehere" [] []

/-- Anything but the marker of no change. -/
def notSameVal (x : Xml) : Bool :=
  ¬ (x.tag = "samehere" ∧ x.attributes = [] ∧ x.contents.isEmpty)

/-- The difference of two nodes. -/
def simpleDiff (nbef naft : Xml) : Except XMLConversion Xml :=
  Xml.diff orderedTags diffHandler (fun _ => sameVal) nbef naft

/-- A changed node is external in the plugin: its function is in the program before. -/
def makeExternal (x : Xml) : Xml :=
  .element x.tag
    (x.attributes.map fun (k, v) => if k = "external" then (k, "true") else (k, v)) x.contents

/-- What {lit}`emit_plugin_xml` emits for a node that was there before, if anything. -/
def emitExisting (nbef naft : Xml) : Except XMLConversion (Option Xml) := do
  let changes ← simpleDiff nbef naft
  return (Xml.filter notSameVal changes).map makeExternal

/-! ## What a merge adds -/

/-- What stands directly inside of {lit}`add` elements. -/
def added (contents : List Xml) : List Xml :=
  (contents.filter fun x => x.tag = "add").flatMap Xml.contents

@[simp]
theorem added_nil : added [] = [] :=
  rfl

/-- What is added with an addition in front. -/
theorem added_cons_add (somethings : List Xml) (l : List Xml) :
    added (add somethings :: l) = somethings ++ added l := by
  simp [added, add]

theorem added_cons_of_ne {x : Xml} (h : x.tag ≠ "add") (l : List Xml) :
    added (x :: l) = added l := by
  simp [added, h]

theorem added_eq_nil {l : List Xml} (h : ∀ x ∈ l, x.tag ≠ "add") : added l = [] := by
  induction l with
  | nil => rfl
  | cons x l ih =>
      rw [List.forall_mem_cons] at h
      rw [added_cons_of_ne h.1, ih h.2]

/-- What an addition adds. -/
theorem added_condAdd (accumulated ll : List Xml) :
    added (condAdd accumulated ll) = accumulated.reverse ++ added ll := by
  unfold condAdd
  split
  · rfl
  · exact added_cons_add _ _

/-- A merge puts what stays unmatched into {lit}`add` elements, in order. -/
theorem added_addMerge {accumulated shorter longer : List Xml}
    (h : ∀ x ∈ longer, x.tag ≠ "add") :
    added (addMerge accumulated shorter longer) = accumulated.reverse ++
      OrderedMatching.unmatched matchKey (shorter.map matchKey) longer := by
  induction accumulated, shorter, longer using addMerge.induct with
  | case1 accumulated sh st lh lt heq ih =>
      rw [List.forall_mem_cons] at h
      rw [addMerge, if_pos heq, added_condAdd, added_cons_of_ne h.1, ih h.2]
      simp [OrderedMatching.unmatched, heq]
  | case2 accumulated sh st lh lt hne ih =>
      rw [List.forall_mem_cons] at h
      rw [addMerge, if_neg hne, ih h.2]
      simp [OrderedMatching.unmatched, hne]
  | case3 accumulated longer =>
      rw [addMerge, added_condAdd]
      simp
  | case4 accumulated shorter hshorter =>
      cases shorter with
      | nil => exact absurd rfl hshorter
      | cons sh st =>
          have hremove : (remove (sh :: st)).tag ≠ "add" := by simp [remove]
          rw [addMerge, added_cons_of_ne hremove, added_condAdd]
          · simp [OrderedMatching.unmatched]
          · exact hshorter

/-- An addition stands in front of the list. -/
theorem mem_condAdd {accumulated ll : List Xml} {x : Xml} (h : x ∈ condAdd accumulated ll) :
    x ∈ ll ∨ x = add accumulated.reverse := by
  unfold condAdd at h
  split at h
  · exact Or.inl h
  · exact (List.mem_cons.mp h).symm

/-- Everything in a merge is a child of the longer list, or adds or removes children. -/
theorem mem_addMerge {accumulated shorter longer : List Xml} {x : Xml}
    (h : x ∈ addMerge accumulated shorter longer) :
    x ∈ longer ∨ ∃ l, (x = add l ∨ x = remove l) ∧
      ∀ y ∈ l, y ∈ accumulated ∨ y ∈ shorter ∨ y ∈ longer := by
  induction accumulated, shorter, longer using addMerge.induct with
  | case1 accumulated sh st lh lt heq ih =>
      rw [addMerge, if_pos heq] at h
      rcases mem_condAdd h with hrest | rfl
      · rcases List.mem_cons.mp hrest with rfl | hrest
        · exact Or.inl List.mem_cons_self
        · rcases ih hrest with hlonger | ⟨l, hx, hl⟩
          · exact Or.inl (List.mem_cons_of_mem _ hlonger)
          · refine Or.inr ⟨l, hx, fun y hy => ?_⟩
            have := hl y hy
            simp only [List.not_mem_nil, false_or, List.mem_cons] at this ⊢
            tauto
      · exact Or.inr ⟨_, Or.inl rfl, fun y hy => Or.inl (List.mem_reverse.mp hy)⟩
  | case2 accumulated sh st lh lt hne ih =>
      rw [addMerge, if_neg hne] at h
      rcases ih h with hlonger | ⟨l, hx, hl⟩
      · exact Or.inl (List.mem_cons_of_mem _ hlonger)
      · refine Or.inr ⟨l, hx, fun y hy => ?_⟩
        have := hl y hy
        simp only [List.mem_cons] at this ⊢
        tauto
  | case3 accumulated longer =>
      rw [addMerge] at h
      rcases mem_condAdd h with hrest | rfl
      · cases hrest
      · refine Or.inr ⟨_, Or.inl rfl, fun y hy => ?_⟩
        simp only [List.reverse_append, List.reverse_reverse, List.mem_append,
          List.mem_reverse] at hy
        tauto
  | case4 accumulated shorter hshorter =>
      rw [addMerge] at h
      · rcases List.mem_cons.mp h with rfl | hrest
        · exact Or.inr ⟨_, Or.inr rfl, fun y hy => Or.inr (Or.inl hy)⟩
        · rcases mem_condAdd hrest with hnil | rfl
          · cases hnil
          · exact Or.inr ⟨_, Or.inl rfl, fun y hy => Or.inl (List.mem_reverse.mp hy)⟩
      · exact hshorter

/-! ## Differences that the handler accepts -/

/-- Only successor lists are merged. -/
theorem diffHandler_eq_ok {bef aft r : Xml} (h : diffHandler bef aft = .ok r) :
    bef.tag = aft.tag ∧ bef.attributes = aft.attributes ∧
      (bef.tag = "successorlist" ∧ r = .element bef.tag bef.attributes
          (addMerge [] (xmlSort bef.contents) (xmlSort aft.contents)) ∨
        bef.tag = "successor" ∧ r = .element bef.tag bef.attributes
          (addMerge [] bef.contents aft.contents)) := by
  unfold diffHandler at h
  split at h
  · cases h
  next htag =>
    split at h
    · split at h <;> cases h
    next hattributes =>
      rw [not_not] at htag hattributes
      split at h
      next hmerged =>
        cases h
        refine ⟨htag, hattributes.symm, ?_⟩
        rcases hmerged with hlist | hsuccessor
        · exact Or.inl ⟨hlist, by simp [hlist, orderedTags]⟩
        · exact Or.inr ⟨hsuccessor, by simp [hsuccessor, orderedTags]⟩
      · cases h

end Compiler
end OFlux
