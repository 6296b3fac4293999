import OFlux.Compiler.PluginXml
import OFlux.Reader.Objects

/-!
# Reading flows and plugins

The reader takes the elements of a file in order and builds objects from them.  Inside of an
external node nothing is added except for what stands inside of an {lit}`add` element; what
stands there, or anywhere in a plugin, is put to the front.

Main results:

- Theorem {lit}`foldlM_addMerge`: reading a merge in which nothing is lost is reading what it
  adds.
- Theorem {lit}`exists_error_of_remove_mem`: contents with a removal cannot be read.
-/

namespace OFlux
namespace Reader

open Library Compiler

/-- The message of an exception of the reader, or of a null pointer that it follows. -/
abbrev ReaderException := String

/-! ## Attributes -/

/-- The attribute names that the reader knows. -/
def vocabList : List String :=
  ["name", "argno", "nodetarget", "source", "door", "isnegated", "iserrhandler", "detached",
    "unionhash", "inputunionhash", "outputunionhash", "after", "before", "late", "gc", "hash",
    "wtype", "function", "external", "ofluxversion"]

/-- Refuses an attribute outside the vocabulary. -/
def fillAttributeMap (attr : List (String × String)) : Except ReaderException Unit :=
  match attr.find? fun a => a.1 ∉ vocabList with
  | some a => throw ("Unknown attribute " ++ a.1)
  | none => pure ()

/-- An attribute that has to be there. -/
def getOrThrow (amap : List (String × String)) (k : String) : Except ReaderException String :=
  match amap.lookup k with
  | some v => pure v
  | none => throw ("unfound attribute key " ++ k)

/-- An attribute with a default. -/
def getOrDefault (amap : List (String × String)) (k default : String) : String :=
  (amap.lookup k).getD default

/-- A flag is set by the text `true` alone. -/
def boolVal (v : String) : Bool :=
  "true" = v

/-! ## Additions and removals -/

/-- How the children of an object are read: whether additions are allowed, whether they go to
the front, the object, and the child. -/
abbrev ElementReader (σ : Type) := Bool → Bool → σ → Xml → Except ReaderException σ

section

variable {σ : Type} (read : ElementReader σ)

/-- Read a child that adds itself to the object. -/
def readDirect : ElementReader σ := fun allow front s x => do
  fillAttributeMap x.attributes
  if x.tag = "remove" then throw "ReaderStateRemoval not implemented : <remove> tag"
  else read allow front s x

/-- Read a child; an {lit}`add` element defers to the object around it. -/
def readChild : ElementReader σ := fun allow front s x => do
  fillAttributeMap x.attributes
  if x.tag = "add" ∨ x.tag = "plugin" then x.contents.foldlM (readDirect read true true) s
  else readDirect read allow front s x

end

/-! ## Objects -/

/-- The children of a `case` element. -/
def readCaseElement : ElementReader Case := fun allow _ c x =>
  if x.tag = "condition" then do
    let name ← getOrThrow x.attributes "name"
    let isNegated ← getOrThrow x.attributes "isnegated"
    let argno ← getOrThrow x.attributes "argno"
    let unionhash ← getOrThrow x.attributes "unionhash"
    let condfn : ConditionFn := { name := name, argno := argno, unionhash := unionhash }
    pure (if allow then c.add { condfn := condfn, isNegated := boolVal isNegated } else c)
  else throw ("Unknown element " ++ x.tag)

/-- The children of a `successor` element. -/
def readSuccessorElement : ElementReader Successor := fun allow front s x =>
  if x.tag = "case" then do
    let targetName ← getOrThrow x.attributes "nodetarget"
    let fresh : Case := { targetName := targetName, conditions := [] }
    let c ← x.contents.foldlM (readChild readCaseElement allow front) fresh
    pure (if allow then s.add c front else s)
  else throw ("Unknown element " ++ x.tag)

/-- The children of a `successorlist` element. -/
def readSuccessorListElement : ElementReader SuccessorList := fun allow front sl x =>
  if x.tag = "successor" then do
    let name ← getOrThrow x.attributes "name"
    let fresh : Successor := { name := name, cases := [] }
    let readContents := fun s => x.contents.foldlM (readChild readSuccessorElement allow front) s
    if allow then do
      let s ← readContents fresh
      pure (sl.add s)
    else
      match sl.getSuccessor name with
      | some s => do
          let s ← readContents s
          pure (KeyedList.replace Successor.name sl s)
      | none => do
          -- cases of a null successor are deleted before their targets are resolved
          let s ← readContents fresh
          if s.cases = [] then pure sl else throw "null successor"
  else throw ("Unknown element " ++ x.tag)

/-- The children of a `node` element. -/
def readNodeElement (guards : List String) : ElementReader Node := fun allow front n x =>
  if x.tag = "guardref" then do
    let isLate ← getOrThrow x.attributes "late"
    let wtype ← getOrThrow x.attributes "wtype"
    let unionhash ← getOrThrow x.attributes "unionhash"
    let hash ← getOrThrow x.attributes "hash"
    let name ← getOrThrow x.attributes "name"
    let ref : GuardReference :=
      { guard := if name ∈ guards then some name else none, name := name,
        unionhash := unionhash, hash := hash, wtype := wtype, isLate := boolVal isLate }
    pure (if allow then { n with guardRefs := n.guardRefs ++ [ref] } else n)
  else if x.tag = "errorhandler" then do
    let name ← getOrThrow x.attributes "name"
    pure (if allow then { n with errorHandler := some name } else n)
  else if x.tag = "successorlist" then
    if allow then do
      let sl ← x.contents.foldlM (readChild readSuccessorListElement allow front) []
      pure (if n.successorList = none then { n with successorList := some sl } else n)
    else
      match n.successorList with
      | some sl => do
          let sl ← x.contents.foldlM (readChild readSuccessorListElement allow front) sl
          pure { n with successorList := some sl }
      | none => throw "null successor list"
  else throw ("Unknown element " ++ x.tag)

/-- The children of a `flow` element. -/
def readFlowElement : ElementReader Flow := fun allow front f x =>
  if x.tag = "guard" then do
    let name ← getOrThrow x.attributes "name"
    pure (if allow then f.addGuard name else f)
  else if x.tag = "guardprecedence" then do
    let before ← getOrThrow x.attributes "before"
    let after ← getOrThrow x.attributes "after"
    pure (f.addGuardPrecedence before after)
  else if x.tag = "node" then do
    let functionName ← getOrThrow x.attributes "function"
    let isExternal ← getOrThrow x.attributes "external"
    let name ← getOrThrow x.attributes "name"
    if boolVal isExternal then
      match f.getNode name with
      | some n => do
          let n ← x.contents.foldlM (readChild (readNodeElement f.guards) false front) n
          pure (f.setNode n)
      | none => throw "null node"
    else if allow then do
      let isErrorHandler ← getOrThrow x.attributes "iserrhandler"
      let isSource ← getOrThrow x.attributes "source"
      let isDetached ← getOrThrow x.attributes "detached"
      let inputUnionHash ← getOrThrow x.attributes "inputunionhash"
      let outputUnionHash ← getOrThrow x.attributes "outputunionhash"
      let fresh : Node :=
        { name := name, functionName := functionName, isErrorHandler := boolVal isErrorHandler,
          isSource := boolVal isSource,
          isDoor := boolVal (getOrDefault x.attributes "door" "false"),
          isDetached := boolVal isDetached, inputUnionHash := inputUnionHash,
          outputUnionHash := outputUnionHash, guardRefs := [], errorHandler := none,
          successorList := none }
      let n ← x.contents.foldlM (readChild (readNodeElement f.guards) true front) fresh
      pure (f.addNode n)
    else pure f
  else throw ("Unknown element " ++ x.tag)

/-! ## Files -/

/-- Read the file of a program. -/
def readFlow (x : Xml) : Except ReaderException Flow := do
  fillAttributeMap x.attributes
  if x.tag = "flow" then do
    let _ ← getOrThrow x.attributes "name"
    x.contents.foldlM (readChild readFlowElement true false) Flow.empty
  else throw ("Unknown element " ++ x.tag)

/-- Read the file of a plugin into a flow; its functions are found as those of the program. -/
def readPlugin (f : Flow) (x : Xml) : Except ReaderException Flow :=
  readChild readFlowElement true false f x

/-- Read a program and its plugins and resolve the names of targets and error handlers. -/
def read (program : Xml) (plugins : List Xml) : Except ReaderException Flow := do
  let f ← readFlow program
  let f ← plugins.foldlM readPlugin f
  if f.Resolved then pure f else throw "assertion failed: fsrc"

/-! ## Reading a merge -/

section

variable {σ : Type} {read : ElementReader σ}

/-- What is added is read with permission to add. -/
theorem readChild_add (allow front : Bool) (s : σ) (l : List Xml) :
    readChild read allow front s (add l) = l.foldlM (readDirect read true true) s :=
  rfl

/-- Any other child is read directly. -/
theorem readChild_of_tag {x : Xml} (hadd : x.tag ≠ "add") (hplugin : x.tag ≠ "plugin")
    (allow front : Bool) (s : σ) :
    readChild read allow front s x = readDirect read allow front s x := by
  have htag : ¬(x.tag = "add" ∨ x.tag = "plugin") := not_or.mpr ⟨hadd, hplugin⟩
  unfold readChild
  rw [if_neg htag]
  unfold readDirect
  cases fillAttributeMap x.attributes <;> rfl

/-- Children without additions are read directly. -/
theorem foldlM_readChild {l : List Xml} (h : ∀ x ∈ l, x.tag ≠ "add" ∧ x.tag ≠ "plugin")
    (allow front : Bool) (s : σ) :
    l.foldlM (readChild read allow front) s = l.foldlM (readDirect read allow front) s := by
  induction l generalizing s with
  | nil => rfl
  | cons x l ih =>
      rw [List.forall_mem_cons] at h
      rw [List.foldlM_cons, List.foldlM_cons, readChild_of_tag h.1.1 h.1.2]
      simp only [ih h.2]

/-- Nothing can be removed. -/
theorem readChild_remove (allow front : Bool) (s : σ) (l : List Xml) :
    ∃ e, readChild read allow front s (remove l) = .error e :=
  ⟨_, rfl⟩

/-- Contents with a removal cannot be read. -/
theorem exists_error_of_remove_mem {contents l : List Xml} (h : remove l ∈ contents)
    (allow front : Bool) (s : σ) :
    ∃ e, contents.foldlM (readChild read allow front) s = .error e :=
  Fallible.exists_foldlM_eq_error_of_mem h (fun s => readChild_remove allow front s l) s

/-- An addition is read before the list. -/
theorem foldlM_condAdd (accumulated ll : List Xml) (allow front : Bool) (s : σ) :
    (condAdd accumulated ll).foldlM (readChild read allow front) s =
      (accumulated.reverse.foldlM (readDirect read true true) s).bind
        fun s => ll.foldlM (readChild read allow front) s := by
  unfold condAdd
  split
  · rfl
  · rw [List.foldlM_cons, readChild_add]
    rfl

/-- Reading a merge in which nothing is lost is reading what it adds. -/
theorem foldlM_addMerge {front : Bool} {accumulated shorter longer : List Xml}
    (hskip : ∀ y ∈ longer, ∀ s, readChild read false front s y = .ok s)
    (hfound : (shorter.map matchKey).Sublist (longer.map matchKey)) (s : σ) :
    (addMerge accumulated shorter longer).foldlM (readChild read false front) s =
      (accumulated.reverse ++
        OrderedMatching.unmatched matchKey (shorter.map matchKey) longer).foldlM
          (readDirect read true true) s := by
  induction accumulated, shorter, longer using addMerge.induct generalizing s with
  | case1 accumulated sh st lh lt heq ih =>
      rw [List.forall_mem_cons] at hskip
      rw [List.map_cons, List.map_cons, heq, List.cons_sublist_cons] at hfound
      have hrest : ∀ s, (lh :: addMerge [] st lt).foldlM (readChild read false front) s =
          (OrderedMatching.unmatched matchKey (st.map matchKey) lt).foldlM
            (readDirect read true true) s := by
        intro s
        rw [List.foldlM_cons, hskip.1 s]
        exact ih hskip.2 hfound s
      rw [addMerge, if_pos heq, foldlM_condAdd, List.foldlM_append, List.map_cons]
      simp only [hrest, OrderedMatching.unmatched, if_pos heq]
      rfl
  | case2 accumulated sh st lh lt hne ih =>
      rw [List.forall_mem_cons] at hskip
      have hfound' : ((sh :: st).map matchKey).Sublist (lt.map matchKey) := by
        rw [List.map_cons, List.map_cons] at hfound
        exact (List.cons_sublist_cons'.mp hfound).resolve_right fun h => hne h.1.symm
      rw [addMerge, if_neg hne, ih hskip.2 hfound' s]
      simp [OrderedMatching.unmatched, hne]
  | case3 accumulated longer =>
      rw [addMerge, foldlM_condAdd, List.map_nil, OrderedMatching.unmatched,
        List.reverse_append, List.reverse_reverse]
      cases (accumulated.reverse ++ longer).foldlM (readDirect read true true) s <;> rfl
  | case4 accumulated shorter hshorter =>
      cases shorter with
      | nil => exact absurd rfl hshorter
      | cons sh st => simp at hfound

/-- A merge in which something is lost has a removal. -/
theorem exists_remove_mem_addMerge (accumulated : List Xml) {shorter longer : List Xml}
    (hlost : ¬(shorter.map matchKey).Sublist (longer.map matchKey)) :
    ∃ l, remove l ∈ addMerge accumulated shorter longer := by
  have hcond : ∀ {accumulated ll : List Xml} {x : Xml}, x ∈ ll → x ∈ condAdd accumulated ll := by
    intro accumulated ll x hx
    unfold condAdd
    split
    · exact hx
    · exact List.mem_cons_of_mem _ hx
  induction accumulated, shorter, longer using addMerge.induct with
  | case1 accumulated sh st lh lt heq ih =>
      rw [List.map_cons, List.map_cons, heq, List.cons_sublist_cons] at hlost
      obtain ⟨l, hl⟩ := ih hlost
      rw [addMerge, if_pos heq]
      exact ⟨l, hcond (List.mem_cons_of_mem _ hl)⟩
  | case2 accumulated sh st lh lt hne ih =>
      have hlost' : ¬((sh :: st).map matchKey).Sublist (lt.map matchKey) :=
        fun h => hlost (h.cons _)
      rw [addMerge, if_neg hne]
      exact ih hlost'
  | case3 accumulated longer => exact absurd (List.nil_sublist _) hlost
  | case4 accumulated shorter hshorter =>
      rw [addMerge]
      · exact ⟨shorter, List.mem_cons_self⟩
      · exact hshorter

end

end Reader
end OFlux
