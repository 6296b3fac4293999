import Mathlib.Data.List.Nodup
import Mathlib.Data.String.Basic

/-!
# Flows, nodes, successors and cases

The resident structure that the runtime reads from a flow XML file.  A node
holds its successors in a name-ordered map, a successor holds an ordered list
of cases, and a case holds the conjunction of its conditions and a target.
Node pointers are the names under which the flow stores its nodes, and the
opaque outputs of nodes are a type variable.

Main results:

- Theorem {lit}`Flow.mem_sources_iff`: the source list of a flow holds exactly
  the nodes with the source property.
- Theorem {lit}`Node.exists_target_of_mem_getSuccessors`: every case that a node
  of a loaded flow selects has a target node in that flow.
-/

namespace OFlux
namespace Runtime

variable {α : Type}

/-! ## Conditions and cases -/

/-- A test on a node output, possibly negated. -/
structure Condition (α : Type) where
  condfn : α → Bool
  isNegated : Bool

/-- {lit}`satisfied`: the test, negated where the condition says so. -/
def Condition.satisfied (c : Condition α) (a : α) : Bool :=
  if c.condfn a then !c.isNegated else c.isNegated

/-- A converter from outputs to inputs; the null function converts to null. -/
structure IOConverter (α : Type) where
  ioConversion : Option (Option α → Option α)

/-- The converted output; without a conversion there is none. -/
def IOConverter.convert (c : IOConverter α) (out : Option α) : Option α :=
  match c.ioConversion with
  | some conversion => conversion out
  | none => none

/-- The trivial conversion, which passes the given structure on. -/
def IOConverter.standardConverter : IOConverter α where
  ioConversion := some id

/-- A target taken when all conditions hold; a null target is {lit}`none`. -/
structure Case (α : Type) where
  targetNode : Option String
  ioConverter : IOConverter α
  conditions : List (Condition α)

/-- All conditions of the case hold. -/
def Case.satisfied (c : Case α) (a : α) : Bool :=
  c.conditions.all fun condition => condition.satisfied a

/-- The case that the default constructor builds. -/
def Case.null : Case α where
  targetNode := none
  ioConverter := IOConverter.standardConverter
  conditions := []

/-- A case without conditions is always satisfied. -/
theorem Case.satisfied_of_conditions_eq_nil {c : Case α}
    (h : c.conditions = []) (a : α) : c.satisfied a = true := by
  simp [Case.satisfied, h]

/-! ## Successors -/

/-- Cases tried in order; the first satisfied one is used. -/
structure Successor (α : Type) where
  name : String
  cases : List (Case α)

/-- The first case that holds. -/
def Successor.getSuccessor (s : Successor α) (a : α) : Option (Case α) :=
  s.cases.find? fun flowcase => flowcase.satisfied a

/-- The first case that leads to the node. -/
def Successor.getByTargetNode (s : Successor α) (n : String) : Option (Case α) :=
  s.cases.find? fun flowcase => flowcase.targetNode = some n

/-- The case taken is one of the successor. -/
theorem Successor.mem_cases_of_getSuccessor {s : Successor α} {a : α}
    {c : Case α} (h : s.getSuccessor a = some c) : c ∈ s.cases :=
  List.mem_of_find?_eq_some h

/-- The map from names to successors, in the order of its keys. -/
structure SuccessorList (α : Type) where
  entries : List (Successor α)
  sorted : entries.Pairwise fun s t => s.name < t.name

namespace SuccessorList

/-- A node without successors. -/
def empty : SuccessorList α where
  entries := []
  sorted := List.Pairwise.nil

/-- Ordered insertion that keeps an entry already stored under the name. -/
def insertEntry (fs : Successor α) : List (Successor α) → List (Successor α)
  | [] => [fs]
  | s :: rest =>
      if fs.name < s.name then fs :: s :: rest
      else if fs.name = s.name then s :: rest
      else s :: insertEntry fs rest

/-- An insertion adds one entry. -/
theorem mem_insertEntry {fs x : Successor α} {l : List (Successor α)}
    (h : x ∈ insertEntry fs l) : x = fs ∨ x ∈ l := by
  induction l with
  | nil => simpa [insertEntry] using h
  | cons s rest ih =>
      unfold insertEntry at h
      split at h
      · simpa using h
      · split at h
        · exact Or.inr h
        · rcases List.mem_cons.mp h with rfl | h
          · simp
          · rcases ih h with rfl | h
            · exact Or.inl rfl
            · exact Or.inr (List.mem_cons_of_mem _ h)

/-- An insertion keeps the entries in order. -/
theorem insertEntry_sorted {fs : Successor α} {l : List (Successor α)}
    (h : l.Pairwise fun s t => s.name < t.name) :
    (insertEntry fs l).Pairwise fun s t => s.name < t.name := by
  induction l with
  | nil => simp [insertEntry]
  | cons s rest ih =>
      have hhead := (List.pairwise_cons.mp h).1
      have htail := (List.pairwise_cons.mp h).2
      unfold insertEntry
      split
      · rename_i hlt
        refine List.pairwise_cons.mpr ⟨?_, h⟩
        intro x hx
        rcases List.mem_cons.mp hx with rfl | hx
        · exact hlt
        · exact hlt.trans (hhead x hx)
      · split
        · exact h
        · rename_i hlt hne
          refine List.pairwise_cons.mpr ⟨?_, ih htail⟩
          intro x hx
          rcases mem_insertEntry hx with rfl | hx
          · exact lt_of_le_of_ne (not_lt.mp hlt) (Ne.symm hne)
          · exact hhead x hx

/-- {lit}`std::map::insert` of a successor under its own name. -/
def add (sl : SuccessorList α) (fs : Successor α) : SuccessorList α where
  entries := insertEntry fs sl.entries
  sorted := insertEntry_sorted sl.sorted

/-- The cases selected by all the successors, in the order of the map. -/
def getSuccessors (sl : SuccessorList α) (a : α) : List (Case α) :=
  sl.entries.filterMap fun s => s.getSuccessor a

/-- Some case of some successor leads to the node. -/
def hasSuccessorWithTarget (sl : SuccessorList α) (n : String) : Bool :=
  sl.entries.any fun s => (s.getByTargetNode n).isSome

/-- The cases taken belong to entries. -/
theorem exists_entry_of_mem_getSuccessors {sl : SuccessorList α} {a : α}
    {c : Case α} (h : c ∈ sl.getSuccessors a) :
    ∃ s ∈ sl.entries, c ∈ s.cases := by
  obtain ⟨s, hs, hget⟩ := List.mem_filterMap.mp h
  exact ⟨s, hs, Successor.mem_cases_of_getSuccessor hget⟩

end SuccessorList

/-! ## Nodes -/

/-- A flow node.  Its two event counters are kept by the flow, under its name. -/
structure Node (α : Type) where
  name : String
  isSource : Bool
  successorList : SuccessorList α
  errorHandlerCase : Case α

namespace Node

/-- The case of a node that leads back to the node itself. -/
def thisCase (n : Node α) : Case α where
  targetNode := some n.name
  ioConverter := IOConverter.standardConverter
  conditions := []

/-- A source without a successor to itself runs once.  The source remembers the
first answer; the successor list it is computed from does not change. -/
def getIsInitial (n : Node α) : Bool :=
  n.isSource && !n.successorList.hasSuccessorWithTarget n.name

/-- The cases that an execution selects: those of the outputs, or the error handler and the node
itself when the execution failed. -/
def getSuccessors (n : Node α) (a : α) (returnCode : Int) : List (Case α) :=
  if returnCode ≠ 0 then
    (if n.errorHandlerCase.targetNode ≠ none then [n.errorHandlerCase] else []) ++
      (if n.isSource && !n.getIsInitial then [n.thisCase] else [])
  else
    n.successorList.getSuccessors a

/-- The node no longer keeps itself going. -/
def turnOffSource (n : Node α) : Node α :=
  { n with isSource := false }

/-- Every target of the node is among the given names; only the error handler may be null. -/
def TargetsIn (names : List String) (n : Node α) : Prop :=
  (∀ t, n.errorHandlerCase.targetNode = some t → t ∈ names) ∧
    ∀ s ∈ n.successorList.entries, ∀ c ∈ s.cases, ∃ t ∈ names, c.targetNode = some t

@[simp]
theorem turnOffSource_name (n : Node α) : n.turnOffSource.name = n.name :=
  rfl

@[simp]
theorem turnOffSource_isSource (n : Node α) : n.turnOffSource.isSource = false :=
  rfl

/-- A selected case has a target among the names that resolve the node. -/
theorem exists_target_of_mem_getSuccessors {n : Node α} {names : List String}
    (hname : n.name ∈ names) (hn : n.TargetsIn names) {a : α} {rc : Int}
    {c : Case α} (h : c ∈ n.getSuccessors a rc) :
    ∃ t ∈ names, c.targetNode = some t := by
  unfold getSuccessors at h
  split at h
  · rcases List.mem_append.mp h with hhandler | hself
    · split at hhandler
      · rename_i hne
        rw [List.mem_singleton.mp hhandler]
        obtain ⟨t, ht⟩ := Option.ne_none_iff_exists'.mp hne
        exact ⟨t, hn.1 t ht, ht⟩
      · simp at hhandler
    · split at hself
      · rw [List.mem_singleton.mp hself]
        exact ⟨n.name, hname, rfl⟩
      · simp at hself
  · obtain ⟨s, hs, hc⟩ := SuccessorList.exists_entry_of_mem_getSuccessors h
    exact hn.2 s hs c hc

end Node

/-! ## Flows -/

/--
A loaded flow.  The reader resolves every target before it hands the flow out,
node names are the keys of the node map, and the list of sources holds the
nodes that have the source property.  The cumulative counters of created and of
executed events are indexed by node name.
-/
structure Flow (α : Type) where
  id : Nat
  nodes : List (Node α)
  sources : List String
  instances : String → Nat
  executions : String → Nat
  names_nodup : (nodes.map Node.name).Nodup
  sources_eq : sources = (nodes.filter Node.isSource).map Node.name
  targets_resolved : ∀ n ∈ nodes, n.TargetsIn (nodes.map Node.name)

namespace Flow

/-- The node of a given name. -/
def get (f : Flow α) (name : String) : Option (Node α) :=
  f.nodes.find? fun n => n.name = name

/-- Take the source property away from the nodes of the flow that have it. -/
def turnOffSources (f : Flow α) : Flow α where
  id := f.id
  nodes := f.nodes.map fun n => if n.name ∈ f.sources then n.turnOffSource else n
  sources := []
  instances := f.instances
  executions := f.executions
  names_nodup := by
    have hnames : Node.name ∘ (fun n => if n.name ∈ f.sources then n.turnOffSource else n) =
        (Node.name : Node α → String) := by
      funext n
      simp only [Function.comp_apply]
      split <;> rfl
    simpa [hnames] using f.names_nodup
  sources_eq := by
    symm
    simp only [List.map_eq_nil_iff, List.filter_eq_nil_iff, List.mem_map]
    rintro n ⟨m, hm, rfl⟩
    split
    · simp
    · rename_i hnot
      intro hsource
      apply hnot
      rw [f.sources_eq]
      exact List.mem_map.mpr ⟨m, List.mem_filter.mpr ⟨hm, hsource⟩, rfl⟩
  targets_resolved := by
    have hnames : Node.name ∘ (fun n => if n.name ∈ f.sources then n.turnOffSource else n) =
        (Node.name : Node α → String) := by
      funext n
      simp only [Function.comp_apply]
      split <;> rfl
    intro n hn
    obtain ⟨m, hm, rfl⟩ := List.mem_map.mp hn
    rw [List.map_map, hnames]
    have hresolved := f.targets_resolved m hm
    split <;> exact hresolved

/-- Count the creation of one event of the named node. -/
def countInstance (f : Flow α) (name : String) : Flow α :=
  { f with instances := Function.update f.instances name (f.instances name + 1) }

/-- Count one execution of the named node. -/
def countExecution (f : Flow α) (name : String) : Flow α :=
  { f with executions := Function.update f.executions name (f.executions name + 1) }

/-- Whether events of the flow were ever created; the counters are cumulative. -/
def hasInstances (f : Flow α) : Bool :=
  f.nodes.any fun n => 0 < f.instances n.name

/-- A flow as the reader returns it, before any event of it was created. -/
def Fresh (f : Flow α) : Prop :=
  ∀ n ∈ f.nodes, f.instances n.name = 0 ∧ f.executions n.name = 0

/-- A node found is one of the flow, with that name. -/
theorem get_eq_some {f : Flow α} {name : String} {n : Node α}
    (h : f.get name = some n) : n ∈ f.nodes ∧ n.name = name :=
  ⟨List.mem_of_find?_eq_some h, by simpa using List.find?_some h⟩

theorem exists_get {f : Flow α} {name : String}
    (h : name ∈ f.nodes.map Node.name) : ∃ n, f.get name = some n := by
  obtain ⟨n, hn, hname⟩ := List.mem_map.mp h
  refine Option.isSome_iff_exists.mp (List.find?_isSome.mpr ⟨n, hn, ?_⟩)
  simpa using hname

@[simp]
theorem turnOffSources_id (f : Flow α) : f.turnOffSources.id = f.id :=
  rfl

@[simp]
theorem turnOffSources_sources (f : Flow α) : f.turnOffSources.sources = [] :=
  rfl

@[simp]
theorem turnOffSources_names (f : Flow α) :
    f.turnOffSources.nodes.map Node.name = f.nodes.map Node.name := by
  simp only [turnOffSources, List.map_map]
  refine List.map_congr_left fun n _ => ?_
  simp only [Function.comp_apply]
  split <;> rfl

@[simp]
theorem countInstance_id (f : Flow α) (name : String) :
    (f.countInstance name).id = f.id :=
  rfl

@[simp]
theorem countInstance_nodes (f : Flow α) (name : String) :
    (f.countInstance name).nodes = f.nodes :=
  rfl

@[simp]
theorem countInstance_sources (f : Flow α) (name : String) :
    (f.countInstance name).sources = f.sources :=
  rfl

@[simp]
theorem countExecution_id (f : Flow α) (name : String) :
    (f.countExecution name).id = f.id :=
  rfl

@[simp]
theorem countExecution_nodes (f : Flow α) (name : String) :
    (f.countExecution name).nodes = f.nodes :=
  rfl

@[simp]
theorem countExecution_sources (f : Flow α) (name : String) :
    (f.countExecution name).sources = f.sources :=
  rfl

@[simp]
theorem countExecution_hasInstances (f : Flow α) (name : String) :
    (f.countExecution name).hasInstances = f.hasInstances :=
  rfl

/-- A node is in the list of sources exactly when it has the source property. -/
theorem mem_sources_iff {f : Flow α} {n : Node α} (hn : n ∈ f.nodes) :
    n.name ∈ f.sources ↔ n.isSource = true := by
  rw [f.sources_eq]
  constructor
  · intro h
    obtain ⟨m, hm, hname⟩ := List.mem_map.mp h
    obtain ⟨hm, hsource⟩ := List.mem_filter.mp hm
    have heq : m = n := List.inj_on_of_nodup_map f.names_nodup hm hn hname
    exact heq ▸ hsource
  · intro h
    exact List.mem_map.mpr ⟨n, List.mem_filter.mpr ⟨hn, h⟩, rfl⟩

/-- After {lit}`turn_off_sources` no node of the flow is a source. -/
theorem isSource_eq_false_of_sources_eq_nil {f : Flow α} (h : f.sources = [])
    {n : Node α} (hn : n ∈ f.nodes) : n.isSource = false := by
  have hiff := mem_sources_iff hn
  simpa [h] using hiff

@[simp]
theorem turnOffSources_hasInstances (f : Flow α) :
    f.turnOffSources.hasInstances = f.hasInstances := by
  unfold hasInstances turnOffSources
  rw [List.any_map]
  congr 1
  funext n
  simp only [Function.comp_apply]
  split <;> rfl

/-- A flow has instances when some node has. -/
theorem hasInstances_iff {f : Flow α} :
    f.hasInstances = true ↔ ∃ n ∈ f.nodes, 0 < f.instances n.name := by
  simp [hasInstances]

end Flow

end Runtime
end OFlux
