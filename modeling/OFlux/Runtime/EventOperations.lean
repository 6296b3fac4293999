import OFlux.Runtime.Flow
import Mathlib.Data.List.Perm.Basic

/-!
# Events and the creation of their successors

An event carries its node, its input, its error code and the chain of its
predecessors.  The three operations below create events: the successors of an
execution that returned without error, those of one that failed, and the first
events of a flow.  Whether a new event gets all its guards at once depends on
the atomics; it is an oracle indexed by the order of creation.

Main results:

- Theorem {lit}`acquireGuards_perm`: the acquired and the waiting events are
  together the created ones.
- Theorem {lit}`map_flowNode_successors_of_no_sources`: in a flow without sources
  every selected case leads to one new event.
- Theorem {lit}`filter_sources_successorsOnNoError`: an execution without error
  creates an event of one source only, the first that it selects.
- Theorem {lit}`map_flowNode_pushed_perm`: a flow starts with one event for each
  of its sources.
-/

namespace OFlux
namespace Runtime

variable {α : Type}

/-! ## Events -/

/-- What an event itself holds. -/
structure EventBase (α : Type) where
  flow : Nat
  flowNode : String
  input : Option α
  errorCode : Int

/-- An event with its chain of predecessors, nearest first; the empty chain is
{lit}`no_event`. -/
structure Event (α : Type) extends EventBase α where
  predecessors : List (EventBase α)

/-- The event and all the events that it keeps alive. -/
def Event.chain (ev : Event α) : List (EventBase α) :=
  ev.toEventBase :: ev.predecessors

/-- Drop the predecessor, as an execution without error does. -/
def Event.release (ev : Event α) : Event α :=
  { ev with predecessors := [] }

/-- The output structure of an event and those splayed after it. -/
structure Outputs (α : Type) where
  first : α
  splayed : List α

/-- The outputs in the order of the output walker. -/
def Outputs.walk (o : Outputs α) : List α :=
  o.first :: o.splayed

/-- The node's event factory. -/
def create (predecessors : List (EventBase α)) (input : Option α)
    (flow : Flow α) (fn : Node α) : Event α where
  flow := flow.id
  flowNode := fn.name
  input := input
  errorCode := 0
  predecessors := predecessors

/-- Separate the events that acquire all their guards from those that wait. -/
def acquireGuards (acquired : Nat → Bool) :
    Nat → List (Event α) → List (Event α) × List (Event α)
  | _, [] => ([], [])
  | i, ev :: rest =>
      if acquired i then
        (ev :: (acquireGuards acquired (i + 1) rest).1,
          (acquireGuards acquired (i + 1) rest).2)
      else
        ((acquireGuards acquired (i + 1) rest).1,
          ev :: (acquireGuards acquired (i + 1) rest).2)

/-- Every created event is runnable or waits. -/
theorem acquireGuards_perm (acquired : Nat → Bool) (i : Nat)
    (created : List (Event α)) :
    ((acquireGuards acquired i created).1 ++
      (acquireGuards acquired i created).2).Perm created := by
  induction created generalizing i with
  | nil => simp [acquireGuards]
  | cons ev rest ih =>
      unfold acquireGuards
      split
      · exact (ih (i + 1)).cons ev
      · exact List.perm_middle.trans ((ih (i + 1)).cons ev)

/-! ## Successors of an execution -/

/-- The event for a selected case; sources get no input and no predecessor. -/
def createSuccessor (flow : Flow α) (ev : Event α) (evOutput : α)
    (flowcase : Case α) (fn : Node α) : Event α :=
  if fn.isSource then create [] none flow fn
  else create ev.chain (flowcase.ioConverter.convert (some evOutput)) flow fn

/-- The inner loop, over the cases selected for one output.  The flag says
whether a source was created already, also for an earlier output. -/
def createSuccessors (flow : Flow α) (ev : Event α) (evOutput : α) :
    Bool → List (Case α) → List (Event α) × Bool
  | sawSource, [] => ([], sawSource)
  | sawSource, flowcase :: rest =>
      match flowcase.targetNode.bind flow.get with
      | none => createSuccessors flow ev evOutput sawSource rest
      | some fn =>
          if fn.isSource && sawSource then
            createSuccessors flow ev evOutput sawSource rest
          else
            (createSuccessor flow ev evOutput flowcase fn ::
              (createSuccessors flow ev evOutput (sawSource || fn.isSource) rest).1,
              (createSuccessors flow ev evOutput (sawSource || fn.isSource) rest).2)

/-- The outer loop, over the outputs. -/
def createForOutputs (flow : Flow α) (fn : Node α) (ev : Event α) :
    Bool → List α → List (Event α)
  | _, [] => []
  | sawSource, evOutput :: rest =>
      (createSuccessors flow ev evOutput sawSource (fn.getSuccessors evOutput 0)).1 ++
        createForOutputs flow fn ev
          (createSuccessors flow ev evOutput sawSource (fn.getSuccessors evOutput 0)).2 rest

/-- The events created after the execution of {lit}`ev` at node {lit}`fn` returned 0. -/
def successorsOnNoError (flow : Flow α) (fn : Node α) (ev : Event α)
    (outputs : Outputs α) : List (Event α) :=
  createForOutputs flow fn ev false outputs.walk

/-- The event for a case taken after an error. -/
def createOnError (flow : Flow α) (fn : Node α) (ev : Event α) (returnCode : Int)
    (flowcase : Case α) (target : Node α) : Event α :=
  { (if fn.isSource then create [] none flow target
     else create ev.predecessors (flowcase.ioConverter.convert ev.input) flow target) with
    errorCode := returnCode }

/-- The events created after the execution of {lit}`ev` at node {lit}`fn` failed. -/
def successorsOnError (flow : Flow α) (fn : Node α) (ev : Event α)
    (outputs : Outputs α) (returnCode : Int) : List (Event α) :=
  (fn.getSuccessors outputs.first returnCode).filterMap fun flowcase =>
    (flowcase.targetNode.bind flow.get).map
      (createOnError flow fn ev returnCode flowcase)

/-- The events that one execution creates; without error the event first drops
its predecessor. -/
def successors (flow : Flow α) (fn : Node α) (ev : Event α)
    (outputs : Outputs α) (returnCode : Int) : List (Event α) :=
  if returnCode ≠ 0 then successorsOnError flow fn ev outputs returnCode
  else successorsOnNoError flow fn ev.release outputs

/-! ## The first events of a flow -/

/-- The nodes in the list of sources. -/
def sourceNodes (flow : Flow α) : List (Node α) :=
  flow.sources.filterMap flow.get

/-- The events of the sources that run once. -/
def initialEvents (flow : Flow α) : List (Event α) :=
  ((sourceNodes flow).filter Node.getIsInitial).map (create [] none flow)

/-- The events of the other sources. -/
def sourceEvents (flow : Flow α) : List (Event α) :=
  ((sourceNodes flow).filter fun fn => !fn.getIsInitial).map (create [] none flow)

/-- Run-once nodes are created first; they are pushed first or last.  The result
holds the pushed events and the events that wait for a guard. -/
def pushInitialsAndSources (flow : Flow α) (lifo : Bool) (acquired : Nat → Bool) :
    List (Event α) × List (Event α) :=
  ((if lifo then
      (acquireGuards acquired 0 (initialEvents flow)).1 ++
        (acquireGuards acquired (initialEvents flow).length (sourceEvents flow)).1
    else
      (acquireGuards acquired (initialEvents flow).length (sourceEvents flow)).1 ++
        (acquireGuards acquired 0 (initialEvents flow)).1),
    (acquireGuards acquired 0 (initialEvents flow)).2 ++
      (acquireGuards acquired (initialEvents flow).length (sourceEvents flow)).2)

/-! ## What an execution can create -/

/-- The names of the nodes that a list of cases leads to. -/
def targetNames (flow : Flow α) (cases : List (Case α)) : List String :=
  cases.filterMap fun flowcase => (flowcase.targetNode.bind flow.get).map Node.name

/-- The names of the nodes that an execution selects, output after output. -/
def selectedNames (flow : Flow α) (fn : Node α) (outputs : Outputs α)
    (returnCode : Int) : List String :=
  if returnCode ≠ 0 then targetNames flow (fn.getSuccessors outputs.first returnCode)
  else outputs.walk.flatMap fun evOutput => targetNames flow (fn.getSuccessors evOutput 0)

/-- A case without a target creates nothing. -/
theorem targetNames_cons_none {flow : Flow α} {flowcase : Case α}
    (h : flowcase.targetNode.bind flow.get = none) (rest : List (Case α)) :
    targetNames flow (flowcase :: rest) = targetNames flow rest :=
  List.filterMap_cons_none (by rw [h]; rfl)

/-- A case creates an event of its target. -/
theorem targetNames_cons_some {flow : Flow α} {flowcase : Case α} {fn : Node α}
    (h : flowcase.targetNode.bind flow.get = some fn) (rest : List (Case α)) :
    targetNames flow (flowcase :: rest) = fn.name :: targetNames flow rest :=
  List.filterMap_cons_some (by rw [h]; rfl)

/-- What holds of an event created in a flow from the chain of another event. -/
structure CreatedFrom (flow : Flow α) (sources : List (EventBase α)) (e : Event α) :
    Prop where
  flow_eq : e.flow = flow.id
  node_mem : e.flowNode ∈ flow.nodes.map Node.name
  predecessors_subset : ∀ b ∈ e.predecessors, b ∈ sources

@[simp]
theorem createSuccessor_flowNode (flow : Flow α) (ev : Event α) (evOutput : α)
    (flowcase : Case α) (fn : Node α) :
    (createSuccessor flow ev evOutput flowcase fn).flowNode = fn.name := by
  unfold createSuccessor
  split <;> rfl

@[simp]
theorem createOnError_flowNode (flow : Flow α) (fn : Node α) (ev : Event α)
    (returnCode : Int) (flowcase : Case α) (target : Node α) :
    (createOnError flow fn ev returnCode flowcase target).flowNode = target.name := by
  unfold createOnError
  split <;> rfl

/-- Every resolved target is a node of the flow under its own name. -/
theorem resolved_mem {flow : Flow α} {flowcase : Case α} {fn : Node α}
    (h : flowcase.targetNode.bind flow.get = some fn) : fn ∈ flow.nodes := by
  obtain ⟨t, _, ht⟩ := Option.bind_eq_some_iff.mp h
  exact (Flow.get_eq_some ht).1

/-- A successor is created from its event. -/
theorem createdFrom_createSuccessor {flow : Flow α} {fn : Node α} (hfn : fn ∈ flow.nodes)
    (ev : Event α) (evOutput : α) (flowcase : Case α) :
    CreatedFrom flow ev.chain (createSuccessor flow ev evOutput flowcase fn) := by
  have hname : fn.name ∈ flow.nodes.map Node.name := List.mem_map_of_mem hfn
  unfold createSuccessor
  split
  · exact ⟨rfl, hname, by simp [create]⟩
  · exact ⟨rfl, hname, by simp [create]⟩

/-- Successors are created from their event. -/
theorem createdFrom_createSuccessors {flow : Flow α} {ev : Event α} {evOutput : α}
    {sawSource : Bool} {cases : List (Case α)} {e : Event α}
    (h : e ∈ (createSuccessors flow ev evOutput sawSource cases).1) :
    CreatedFrom flow ev.chain e := by
  induction cases generalizing sawSource with
  | nil => simp [createSuccessors] at h
  | cons flowcase rest ih =>
      unfold createSuccessors at h
      split at h
      · exact ih h
      · rename_i fn htarget
        split at h
        · exact ih h
        · rcases List.mem_cons.mp h with rfl | h
          · exact createdFrom_createSuccessor (resolved_mem htarget) ev evOutput flowcase
          · exact ih h

/-- The events for all outputs are created from their event. -/
theorem createdFrom_createForOutputs {flow : Flow α} {fn : Node α} {ev : Event α}
    {sawSource : Bool} {outs : List α} {e : Event α}
    (h : e ∈ createForOutputs flow fn ev sawSource outs) :
    CreatedFrom flow ev.chain e := by
  induction outs generalizing sawSource with
  | nil => simp [createForOutputs] at h
  | cons evOutput rest ih =>
      unfold createForOutputs at h
      rcases List.mem_append.mp h with h | h
      · exact createdFrom_createSuccessors h
      · exact ih h

/-- An error handler event is created from its event. -/
theorem createdFrom_successorsOnError {flow : Flow α} {fn : Node α} {ev : Event α}
    {outputs : Outputs α} {returnCode : Int} {e : Event α}
    (h : e ∈ successorsOnError flow fn ev outputs returnCode) :
    CreatedFrom flow ev.chain e := by
  obtain ⟨flowcase, _, hmap⟩ := List.mem_filterMap.mp h
  obtain ⟨target, htarget, rfl⟩ := Option.map_eq_some_iff.mp hmap
  have hname : target.name ∈ flow.nodes.map Node.name :=
    List.mem_map_of_mem (resolved_mem htarget)
  unfold createOnError
  split
  · exact ⟨rfl, hname, by simp [create]⟩
  · exact ⟨rfl, hname, by simp [create, Event.chain]; tauto⟩

/-- An execution creates events of its own flow, which keep alive only events
that the executed one keeps alive. -/
theorem createdFrom_successors {flow : Flow α} {fn : Node α} {ev : Event α}
    {outputs : Outputs α} {returnCode : Int} {e : Event α}
    (h : e ∈ successors flow fn ev outputs returnCode) :
    CreatedFrom flow ev.chain e := by
  unfold successors at h
  split at h
  · exact createdFrom_successorsOnError h
  · have hrel := createdFrom_createForOutputs h
    refine ⟨hrel.flow_eq, hrel.node_mem, fun b hb => ?_⟩
    have hb := hrel.predecessors_subset b hb
    simp only [Event.chain, Event.release, List.mem_singleton] at hb
    simp [hb, Event.chain]

/-! ## Sources among the successors -/

/-- The nodes of the events on an error. -/
theorem map_flowNode_successorsOnError (flow : Flow α) (fn : Node α) (ev : Event α)
    (outputs : Outputs α) (returnCode : Int) :
    (successorsOnError flow fn ev outputs returnCode).map (fun e => e.flowNode) =
      targetNames flow (fn.getSuccessors outputs.first returnCode) := by
  unfold successorsOnError targetNames
  rw [List.map_filterMap]
  congr 1
  funext flowcase
  cases flowcase.targetNode.bind flow.get <;> simp

/-- One output: only the first selected source is created, and only if no
earlier output selected one; the flag records that. -/
theorem filter_sources_createSuccessors (flow : Flow α) (ev : Event α) (evOutput : α)
    (sawSource : Bool) (cases : List (Case α)) :
    ((createSuccessors flow ev evOutput sawSource cases).1.map
        (fun e => e.flowNode)).filter (· ∈ flow.sources) =
      (if sawSource then []
        else ((targetNames flow cases).find? (· ∈ flow.sources)).toList) ∧
    (createSuccessors flow ev evOutput sawSource cases).2 =
      (sawSource || (targetNames flow cases).any (· ∈ flow.sources)) := by
  induction cases generalizing sawSource with
  | nil => cases sawSource <;> simp [createSuccessors, targetNames]
  | cons flowcase rest ih =>
      cases htarget : flowcase.targetNode.bind flow.get with
      | none =>
          simp only [createSuccessors, htarget, targetNames_cons_none htarget]
          exact ih sawSource
      | some fn =>
          have hsource := Flow.mem_sources_iff (resolved_mem htarget)
          simp only [createSuccessors, htarget, targetNames_cons_some htarget]
          cases hfn : fn.isSource with
          | false =>
              have hnot : fn.name ∉ flow.sources := by simp [hsource, hfn]
              have hrest := ih sawSource
              simp [hnot, hrest.1, hrest.2]
          | true =>
              have hmem : fn.name ∈ flow.sources := hsource.mpr hfn
              have hrest := ih true
              cases sawSource with
              | true => simp [hrest.1, hrest.2]
              | false => simp [hmem, hrest.1, hrest.2]

/-- The sources among the events for all outputs. -/
theorem filter_sources_createForOutputs (flow : Flow α) (fn : Node α) (ev : Event α)
    (sawSource : Bool) (outs : List α) :
    ((createForOutputs flow fn ev sawSource outs).map
        (fun e => e.flowNode)).filter (· ∈ flow.sources) =
      if sawSource then []
      else ((outs.flatMap fun evOutput =>
        targetNames flow (fn.getSuccessors evOutput 0)).find? (· ∈ flow.sources)).toList := by
  induction outs generalizing sawSource with
  | nil => cases sawSource <;> simp [createForOutputs]
  | cons evOutput rest ih =>
      have hinner := filter_sources_createSuccessors flow ev evOutput sawSource
        (fn.getSuccessors evOutput 0)
      simp only [createForOutputs, List.map_append, List.filter_append, hinner.1, hinner.2,
        ih, List.flatMap_cons, List.find?_append]
      cases sawSource with
      | true => simp
      | false =>
          cases hfind : (targetNames flow (fn.getSuccessors evOutput 0)).find?
              (· ∈ flow.sources) with
          | none =>
              have hany : (targetNames flow (fn.getSuccessors evOutput 0)).any
                  (· ∈ flow.sources) = false := by
                simpa using hfind
              simp [hany]
          | some name =>
              have hany : (targetNames flow (fn.getSuccessors evOutput 0)).any
                  (· ∈ flow.sources) = true := by
                have hmem := List.mem_of_find?_eq_some hfind
                have hp := List.find?_some hfind
                exact List.any_eq_true.mpr ⟨name, hmem, hp⟩
              simp [hany]

/-- An execution without error creates an event of one source only, the first
that it selects over all its outputs. -/
theorem filter_sources_successorsOnNoError (flow : Flow α) (fn : Node α) (ev : Event α)
    (outputs : Outputs α) :
    ((successorsOnNoError flow fn ev outputs).map
        (fun e => e.flowNode)).filter (· ∈ flow.sources) =
      ((selectedNames flow fn outputs 0).find? (· ∈ flow.sources)).toList := by
  have hloop := filter_sources_createForOutputs flow fn ev false outputs.walk
  simpa only [selectedNames, successorsOnNoError, Bool.false_eq_true, if_false, ne_eq,
    not_true_eq_false] using hloop

/-- Without sources every selected target gets its event. -/
theorem map_flowNode_createSuccessors_of_no_sources {flow : Flow α}
    (h : flow.sources = []) (ev : Event α) (evOutput : α) (sawSource : Bool)
    (cases : List (Case α)) :
    (createSuccessors flow ev evOutput sawSource cases).1.map (fun e => e.flowNode) =
      targetNames flow cases := by
  induction cases generalizing sawSource with
  | nil => simp [createSuccessors, targetNames]
  | cons flowcase rest ih =>
      cases htarget : flowcase.targetNode.bind flow.get with
      | none =>
          simp only [createSuccessors, htarget, targetNames_cons_none htarget]
          exact ih sawSource
      | some fn =>
          have hfn := Flow.isSource_eq_false_of_sources_eq_nil h (resolved_mem htarget)
          simp [createSuccessors, htarget, targetNames_cons_some htarget, hfn, ih]

/-- In a flow without sources every selected case leads to one new event. -/
theorem map_flowNode_successors_of_no_sources {flow : Flow α} (h : flow.sources = [])
    (fn : Node α) (ev : Event α) (outputs : Outputs α) (returnCode : Int) :
    (successors flow fn ev outputs returnCode).map (fun e => e.flowNode) =
      selectedNames flow fn outputs returnCode := by
  unfold successors selectedNames
  split
  · exact map_flowNode_successorsOnError flow fn ev outputs returnCode
  · unfold successorsOnNoError
    generalize false = sawSource
    induction outputs.walk generalizing sawSource with
    | nil => simp [createForOutputs]
    | cons evOutput rest ih =>
        simp only [createForOutputs, List.map_append, List.flatMap_cons, ih,
          map_flowNode_createSuccessors_of_no_sources h]

/-! ## The first events of a flow, one for each source -/

/-- The source nodes are the sources. -/
theorem sourceNodes_map_name (flow : Flow α) :
    (sourceNodes flow).map Node.name = flow.sources := by
  unfold sourceNodes
  have hget : ∀ name ∈ flow.sources, ∃ n, flow.get name = some n ∧ n.name = name := by
    intro name hname
    rw [flow.sources_eq] at hname
    obtain ⟨n, hn, rfl⟩ := List.mem_map.mp hname
    obtain ⟨m, hm⟩ := Flow.exists_get (List.mem_map_of_mem (List.mem_filter.mp hn).1)
    exact ⟨m, hm, (Flow.get_eq_some hm).2⟩
  revert hget
  generalize flow.sources = names
  intro hget
  induction names with
  | nil => rfl
  | cons name rest ih =>
      obtain ⟨n, hn, hname⟩ := hget name List.mem_cons_self
      have hrest := ih fun x hx => hget x (List.mem_cons_of_mem _ hx)
      rw [List.filterMap_cons_some hn, List.map_cons, hname, hrest]

/-- What is pushed is what was created. -/
theorem pushed_perm_created (flow : Flow α) (lifo : Bool) (acquired : Nat → Bool) :
    ((pushInitialsAndSources flow lifo acquired).1 ++
      (pushInitialsAndSources flow lifo acquired).2).Perm
      (initialEvents flow ++ sourceEvents flow) := by
  have hinitials := acquireGuards_perm acquired 0 (initialEvents flow)
  have hsources := acquireGuards_perm acquired (initialEvents flow).length
    (sourceEvents flow)
  refine List.Perm.trans ?_ (hinitials.append hsources)
  unfold pushInitialsAndSources
  cases lifo with
  | true =>
      simp only [if_true, List.append_assoc]
      exact (List.perm_append_comm_assoc _ _ _).append_left _
  | false =>
      simp only [Bool.false_eq_true, if_false, List.append_assoc]
      refine (List.perm_append_comm_assoc _ _ _).trans ?_
      refine List.Perm.append_left _ ?_
      exact List.perm_append_comm_assoc _ _ _

/-- A flow starts with exactly one event for each of its sources. -/
theorem map_flowNode_pushed_perm (flow : Flow α) (lifo : Bool) (acquired : Nat → Bool) :
    (((pushInitialsAndSources flow lifo acquired).1 ++
      (pushInitialsAndSources flow lifo acquired).2).map (fun e => e.flowNode)).Perm
      flow.sources := by
  refine ((pushed_perm_created flow lifo acquired).map _).trans ?_
  have hsplit : (initialEvents flow ++ sourceEvents flow).map (fun e => e.flowNode) =
      ((sourceNodes flow).filter Node.getIsInitial ++
        (sourceNodes flow).filter fun fn => !fn.getIsInitial).map Node.name := by
    simp [initialEvents, sourceEvents, create, Function.comp_def]
  rw [hsplit, ← sourceNodes_map_name flow]
  exact (List.filter_append_perm _ _).map _

/-- Pushed events are created from none. -/
theorem createdFrom_pushed {flow : Flow α} {lifo : Bool} {acquired : Nat → Bool}
    {e : Event α}
    (h : e ∈ (pushInitialsAndSources flow lifo acquired).1 ++
      (pushInitialsAndSources flow lifo acquired).2) :
    CreatedFrom flow [] e := by
  have hmem := (pushed_perm_created flow lifo acquired).mem_iff.mp h
  have hcreate : ∀ fn ∈ sourceNodes flow, CreatedFrom flow [] (create [] none flow fn) := by
    intro fn hfn
    obtain ⟨name, _, hget⟩ := List.mem_filterMap.mp hfn
    exact ⟨rfl, List.mem_map_of_mem (Flow.get_eq_some hget).1, by simp [create]⟩
  rcases List.mem_append.mp hmem with hmem | hmem
  · obtain ⟨fn, hfn, rfl⟩ := List.mem_map.mp hmem
    exact hcreate fn (List.mem_filter.mp hfn).1
  · obtain ⟨fn, hfn, rfl⟩ := List.mem_map.mp hmem
    exact hcreate fn (List.mem_filter.mp hfn).1

end Runtime
end OFlux
