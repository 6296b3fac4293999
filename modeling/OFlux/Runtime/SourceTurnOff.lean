import OFlux.Runtime.LiveEvents
import OFlux.Runtime.Reload

/-!
# Sources that were turned off

{lit}`turn_off_sources` takes the source property away from the nodes of a flow,
so that they no longer spawn themselves.  The property gates the respawn after an
error; the successor that leads back to the source is an ordinary case.

Main results:

- Theorem {lit}`RunTime.turned_off_sources_iff`: the executions of a turned off
  source create no further event of it exactly when none of them selects a case
  that leads back to it; if no execution leads to the sources at all, their live
  events run out.
- Theorem {lit}`RunTime.not_createsNoneOfItself_replacedRun`: a successful
  execution of a looping source keeps it alive after its flow was replaced.
-/

namespace OFlux
namespace Runtime

open Library

variable {α : Type}

/-- An execution of the node selects a successor case, or its error handler, that
leads to the given node. -/
def Node.LeadsTo (fn : Node α) (outputs : Outputs α) (returnCode : Int)
    (name : String) : Prop :=
  if returnCode ≠ 0 then fn.errorHandlerCase.targetNode = some name
  else ∃ a ∈ outputs.walk, ∃ c ∈ fn.successorList.getSuccessors a, c.targetNode = some name

/-- Once the sources are off, only the error handler and the successors are selected. -/
theorem mem_selectedNames_iff_leadsTo {flow : Flow α} (hoff : flow.sources = [])
    {fn : Node α} (hfn : fn ∈ flow.nodes) {outputs : Outputs α} {returnCode : Int}
    {name : String} :
    name ∈ selectedNames flow fn outputs returnCode ↔
      fn.LeadsTo outputs returnCode name := by
  have hsource := Flow.isSource_eq_false_of_sources_eq_nil hoff hfn
  unfold selectedNames Node.LeadsTo
  split
  · rename_i hrc
    rw [targetNames_getSuccessors hfn]
    cases htarget : fn.errorHandlerCase.targetNode <;>
      simp [Node.getSuccessors, hrc, hsource, htarget, eq_comm]
  · simp only [targetNames_getSuccessors hfn]
    simp [Node.getSuccessors]

namespace RunTime

/-! ## After the sources were turned off -/

/-- The sources of the flow of the given identity have been turned off. -/
def TurnedOff (id : Nat) (s : RunTime α) : Prop :=
  id < s.loaded ∧ ∀ f ∈ s.activeFlows, f.id = id → f.sources = []

/-- A retired flow is kept as it is, or without its sources. -/
theorem mem_retireFlows {flows : List (Flow α)} {g : Flow α} (h : g ∈ retireFlows flows) :
    ∃ f ∈ flows, g.id = f.id ∧ (g = f ∨ g.sources = []) := by
  induction flows with
  | nil => simp [retireFlows] at h
  | cons back rest ih =>
      unfold retireFlows at h
      split at h
      · rcases List.mem_cons.mp h with rfl | h
        · refine ⟨back, List.mem_cons_self, ?_⟩
          split
          · exact ⟨rfl, Or.inr rfl⟩
          · exact ⟨rfl, Or.inl rfl⟩
        · exact ⟨g, List.mem_cons_of_mem _ h, rfl, Or.inl rfl⟩
      · obtain ⟨f, hf, hg⟩ := ih h
        exact ⟨f, List.mem_cons_of_mem _ hf, hg⟩

/-- Updating a flow turns no source on. -/
theorem turnedOff_updateFlow {s : RunTime α} {id id' : Nat} {g : Flow α → Flow α}
    (hid : ∀ f : Flow α, (g f).id = f.id) (hsources : ∀ f : Flow α, (g f).sources = f.sources)
    (hs : ∀ f ∈ s.activeFlows, f.id = id → f.sources = []) :
    ∀ f ∈ s.updateFlow id' g, f.id = id → f.sources = [] := by
  intro f hf
  obtain ⟨f', hf', rfl⟩ := List.mem_map.mp hf
  split
  · rw [hid, hsources]
    exact hs f' hf'
  · exact hs f' hf'

/-- A flow that was turned off stays so. -/
theorem TurnedOff.step {id : Nat} {s t : RunTime α} {a : Action α}
    (hs : TurnedOff id s) (hstep : Step s a t) : TurnedOff id t := by
  cases hstep with
  | @loadFlow flow acquired _ hid =>
      refine ⟨Nat.lt_succ_of_lt hs.1, fun f hf hfid => ?_⟩
      rcases List.mem_cons.mp hf with rfl | hf
      · have hlt := hs.1
        rw [countInstances_id] at hfid
        omega
      · obtain ⟨f', hf', heq, hkept⟩ := mem_retireFlows (List.mem_reverse.mp hf)
        rcases hkept with rfl | hoff
        · exact hs.2 f (List.mem_reverse.mp hf') hfid
        · exact hoff
  | @start flow older acquired _ hflows =>
      refine ⟨hs.1, fun f hf hfid => ?_⟩
      have hold := hs.2
      rw [hflows] at hold
      rcases List.mem_cons.mp hf with rfl | hf
      · rw [countInstances_id] at hfid
        rw [countInstances_sources]
        exact hold flow List.mem_cons_self hfid
      · exact hold f (List.mem_cons_of_mem _ hf) hfid
  | pop _ => exact ⟨hs.1, turnedOff_updateFlow (fun _ => rfl) (fun _ => rfl) hs.2⟩
  | finish _ =>
      exact ⟨hs.1, turnedOff_updateFlow (fun f => countInstances_id f _)
        (fun f => countInstances_sources f _) hs.2⟩
  | handBack _ => exact hs

/-- The executions of the named nodes create no further event of the same node. -/
def CreatesNoneOfItself (names : List String) (x : Execution α) (outputs : Outputs α)
    (returnCode : Int) : Prop :=
  x.fn.name ∈ names →
    ∀ e ∈ x.created outputs returnCode, ¬ (e.flow = x.flow.id ∧ e.flowNode = x.fn.name)

/-- The executions of the named nodes select no case that leads back to the node. -/
def DoesNotLeadBack (names : List String) (x : Execution α) (outputs : Outputs α)
    (returnCode : Int) : Prop :=
  x.fn.name ∈ names → ¬ x.fn.LeadsTo outputs returnCode x.fn.name

/-- No execution selects a case that leads to one of the named nodes. -/
def LeadsToNone (names : List String) (x : Execution α) (outputs : Outputs α)
    (returnCode : Int) : Prop :=
  ∀ name ∈ names, ¬ x.fn.LeadsTo outputs returnCode name

/-- Once the sources are off, an execution creates events of the nodes it leads to. -/
theorem mem_createdNames_iff {id : Nat} {s : RunTime α} (hs : TurnedOff id s)
    {index : Nat} {x : Execution α} (hx : s.execution index = some x)
    (hid : x.flow.id = id) {outputs : Outputs α} {returnCode : Int} {name : String} :
    name ∈ x.createdNames outputs returnCode ↔ x.fn.LeadsTo outputs returnCode name := by
  obtain ⟨_, hflow, _, hfn⟩ := execution_eq_some hx
  have hoff := hs.2 x.flow hflow hid
  rw [← mem_selectedNames_iff_leadsTo hoff (Flow.get_eq_some hfn).1,
    Execution.createdNames, Execution.created, map_flowNode_successors_of_no_sources hoff]

/-- An execution creates its own node exactly when the node leads back. -/
theorem createsNoneOfItself_iff {id : Nat} {s : RunTime α} (hs : TurnedOff id s)
    {index : Nat} {x : Execution α} (hx : s.execution index = some x)
    (hid : x.flow.id = id) {outputs : Outputs α} {returnCode : Int} {names : List String} :
    CreatesNoneOfItself names x outputs returnCode ↔
      DoesNotLeadBack names x outputs returnCode := by
  unfold CreatesNoneOfItself DoesNotLeadBack
  rw [← mem_createdNames_iff hs hx hid]
  refine imp_congr_right fun _ => ⟨fun h hmem => ?_, fun h e he heq => ?_⟩
  · obtain ⟨e, he, hname⟩ := List.mem_map.mp hmem
    exact h e he ⟨(createdFrom_created e he).flow_eq, hname⟩
  · exact h (List.mem_map.mpr ⟨e, he, heq.2⟩)

/-- The number of executions of a node that a run finishes. -/
def finishedCount (id : Nat) (name : String) :
    RunTime α → List (Action α × RunTime α) → Nat
  | _, [] => 0
  | s, (.finish index _ _ _, t) :: rest =>
      (match s.execution index with
        | some x => if x.flow.id = id ∧ x.fn.name = name then 1 else 0
        | none => 0) + finishedCount id name t rest
  | _, (_, t) :: rest => finishedCount id name t rest

/-- If no execution leads to the named sources, their live events only run out. -/
theorem liveCount_add_finishedCount {id : Nat} {s : RunTime α} (hs : TurnedOff id s)
    {names : List String} {name : String} (hname : name ∈ names)
    {path : List (Action α × RunTime α)} (h : (system α).Run s path)
    (hsteps : TransitionSystem.StepsMeet (OnFinish id (LeadsToNone names)) s path) :
    (TransitionSystem.lastState s path).liveCount id name + finishedCount id name s path =
      s.liveCount id name := by
  induction h with
  | nil s => rfl
  | @cons s t a rest hstep _ ih =>
      have hstep : Step s a t := hstep
      have hrest := ih (hs.step hstep) hsteps.2
      have hhead := hsteps.1
      simp only [TransitionSystem.lastState]
      cases hstep with
      | @loadFlow flow acquired _ hid =>
          have hne : flow.id ≠ id := by
            have hlt := hs.1
            omega
          rw [← liveCount_loadFlow s hne acquired name]
          exact hrest
      | @start flow older acquired _ hflows =>
          have hcount := liveCount_start s flow older acquired id name
          have hzero : (if flow.id = id then flow.sources.count name else 0) = 0 := by
            split
            · rename_i hid
              simp [hs.2 flow (by simp [hflows]) hid]
            · rfl
          rw [hzero, zero_add] at hcount
          rw [← hcount]
          exact hrest
      | pop hqueue =>
          rw [← liveCount_pop hqueue]
          exact hrest
      | @finish index x outputs returnCode acquired hx =>
          have hcount := liveCount_finish hx outputs returnCode acquired id name
          have hzero : (if x.flow.id = id then
              (x.createdNames outputs returnCode).count name else 0) = 0 := by
            split
            · rename_i hid
              rw [List.count_eq_zero, mem_createdNames_iff hs hx hid]
              exact hhead x hx hid name hname
            · rfl
          simp only [finishedCount, hx]
          omega
      | handBack hev =>
          rw [← liveCount_handBack hev]
          exact hrest

/--
After the sources of a flow were turned off: the executions of its sources create
no further event of themselves exactly when no selected case leads back to them.
If moreover no execution of the flow leads to a source, the live events of the
sources run out, one with each execution.
-/
theorem turned_off_sources_iff {id : Nat} {s : RunTime α} (hs : TurnedOff id s)
    (names : List String) {path : List (Action α × RunTime α)}
    (h : (system α).Run s path) :
    (TransitionSystem.StepsMeet (OnFinish id (CreatesNoneOfItself names)) s path ↔
      TransitionSystem.StepsMeet (OnFinish id (DoesNotLeadBack names)) s path) ∧
    (TransitionSystem.StepsMeet (OnFinish id (LeadsToNone names)) s path →
      ∀ name ∈ names,
        (TransitionSystem.lastState s path).liveCount id name +
          finishedCount id name s path = s.liveCount id name) := by
  have hoff : ∀ s a t, TurnedOff id s → (system α).step s a t → TurnedOff id t :=
    fun _ _ _ hs hstep => TurnedOff.step hs hstep
  constructor
  · refine h.stepsMeet_congr hoff ?_ hs
    intro s a t hs hstep
    cases a with
    | finish index outputs returnCode acquired =>
        exact forall_congr' fun x => forall_congr' fun hx => forall_congr' fun hid =>
          createsNoneOfItself_iff hs hx hid
    | _ => exact Iff.rfl
  · intro hsteps name hname
    exact liveCount_add_finishedCount hs hname h hsteps

/-! ## A source that goes on after its flow was turned off -/

/-- The state after a flow with a looping source was loaded, started and replaced. -/
def replacedState : RunTime Unit :=
  (((initial : RunTime Unit).loadFlow (loopingFlow 0) fun _ => true).start
    (loopingFlow 0) [] fun _ => true).loadFlow (loopingFlow 1) fun _ => true

theorem reachable_replacedState : (system Unit).Reachable replacedState := by
  have hrun : (system Unit).Run initial (reloadStates.take 3) := by
    refine .cons (.loadFlow (loopingFlow_fresh 0) rfl) ?_
    refine .cons (.start rfl rfl) ?_
    exact .cons (.loadFlow (loopingFlow_fresh 1) rfl) (.nil _)
  exact hrun.reachable_lastState (.init rfl)

/-- The flow of the example is turned off. -/
theorem turnedOff_replacedState : TurnedOff 0 replacedState := by
  refine ⟨by decide, fun f hf hid => ?_⟩
  simp only [replacedState, loadFlow, List.mem_cons] at hf
  rcases hf with rfl | hf
  · exact absurd hid (by decide)
  · exact sources_of_mem_retireFlows_singleton (List.mem_reverse.mp hf)

/-- Pop the source event of the replaced flow and finish it without error. -/
def replacedRun (returnCode : Int) : List (Action Unit × RunTime Unit) :=
  let popped := replacedState.pop (create [] none (loopingFlow 0) loopingSource)
    [create [] none (loopingFlow 1) loopingSource]
  let x : Execution Unit :=
    { ev := create [] none (loopingFlow 0) loopingSource
      flow := ((loopingFlow 0).countInstance "S").turnOffSources.countExecution "S"
      fn := loopingSource.turnOffSource }
  [(.pop, popped),
    (.finish 0 ⟨(), []⟩ returnCode fun _ => true,
      popped.finish 0 x ⟨(), []⟩ returnCode fun _ => true)]

theorem run_replacedRun (returnCode : Int) :
    (system Unit).Run replacedState (replacedRun returnCode) :=
  .cons (.pop rfl) (.cons (.finish rfl) (.nil _))

/-- The source of a replaced flow puts itself in again when it succeeds. -/
theorem not_createsNoneOfItself_replacedRun :
    ¬ ∀ s : RunTime Unit, (system Unit).Reachable s → ∀ id, TurnedOff id s →
      ∀ path, (system Unit).Run s path →
        TransitionSystem.StepsMeet (OnFinish id (CreatesNoneOfItself ["S"])) s path := by
  intro h
  have hsteps := h replacedState reachable_replacedState 0 turnedOff_replacedState
    (replacedRun 0) (run_replacedRun 0)
  exact hsteps.2.1 _ rfl rfl (by decide) _ (List.mem_of_head? rfl) ⟨rfl, rfl⟩

theorem turned_off_sources_iff_replacedRun :
    (TransitionSystem.StepsMeet (OnFinish 0 (CreatesNoneOfItself ["S"]))
        replacedState (replacedRun 1) ↔
      TransitionSystem.StepsMeet (OnFinish 0 (DoesNotLeadBack ["S"]))
        replacedState (replacedRun 1)) ∧
    (TransitionSystem.StepsMeet (OnFinish 0 (LeadsToNone ["S"]))
        replacedState (replacedRun 1) →
      ∀ name ∈ ["S"],
        (TransitionSystem.lastState replacedState (replacedRun 1)).liveCount 0 name +
          finishedCount 0 name replacedState (replacedRun 1) =
            replacedState.liveCount 0 name) :=
  turned_off_sources_iff turnedOff_replacedState ["S"] (run_replacedRun 1)

end RunTime

end Runtime
end OFlux
