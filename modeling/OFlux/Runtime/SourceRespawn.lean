import OFlux.Runtime.LiveEvents

/-!
# One event per source

A source whose successors contain the source itself keeps itself going: without
error it selects itself among its successors, and on an error the node puts
itself in.  An execution creates an event of one source only, the first that it
selects, so a source depends on being selected before any other.

Main results:

- Theorem {lit}`RunTime.one_event_per_source_iff`: a run without reload keeps
  exactly one live event of every looping source exactly when each successful
  execution of such a source, and no other, selects it as its first source, and
  no failing execution is handled by such a source.
- Theorem {lit}`RunTime.oneEventPerSource_of_isolated`: this holds in a flow
  in which only a source itself leads to it, without a condition.
- Theorem {lit}`RunTime.reachable_started`: such runs are runs of the run time.
-/

namespace OFlux
namespace Runtime

open Library

variable {α : Type}

/-- A source whose successors contain the source itself. -/
def Node.isLooping (n : Node α) : Bool :=
  n.isSource && !n.getIsInitial

namespace RunTime

/-! ## Runs without reload -/

/-- The step is no reload. -/
def WithoutReload (_ : RunTime α) : Action α → RunTime α → Prop
  | .loadFlow _ _, _ => False
  | _, _ => True

/-- The state once {lit}`start` has pushed the first events of a flow. -/
def started (flow : Flow α) (acquired : Nat → Bool) : RunTime α :=
  ((initial : RunTime α).loadFlow flow fun _ => true).start flow [] acquired

theorem reachable_started {flow : Flow α} (hfresh : flow.Fresh) (hid : flow.id = 0)
    (acquired : Nat → Bool) : (system α).Reachable (started flow acquired) := by
  have hloaded : (system α).Reachable ((initial : RunTime α).loadFlow flow fun _ => true) :=
    .step (.init rfl) (Step.loadFlow hfresh hid)
  exact hloaded.step (Step.start rfl rfl)

/-- The only active flow is the one that was started, but for its counters. -/
def Runs (flow : Flow α) (s : RunTime α) : Prop :=
  s.running = true ∧ ∃ f, s.activeFlows = [f] ∧ f.id = flow.id ∧
    f.nodes = flow.nodes ∧ f.sources = flow.sources

/-- A started flow runs. -/
theorem runs_started (flow : Flow α) (acquired : Nat → Bool) :
    Runs flow (started flow acquired) :=
  ⟨rfl, _, rfl, by simp, by simp, by simp⟩

/-- Updating a flow keeps it running. -/
theorem runs_updateFlow {flow : Flow α} {s t : RunTime α} {id : Nat}
    {g : Flow α → Flow α} (hs : Runs flow s) (hrunning : t.running = s.running)
    (hflows : t.activeFlows = s.updateFlow id g) (hid : ∀ f : Flow α, (g f).id = f.id)
    (hnodes : ∀ f : Flow α, (g f).nodes = f.nodes)
    (hsources : ∀ f : Flow α, (g f).sources = f.sources) : Runs flow t := by
  obtain ⟨hrun, f, hf, hfid, hfnodes, hfsources⟩ := hs
  refine ⟨hrunning.trans hrun, if f.id = id then g f else f, ?_, ?_, ?_, ?_⟩
  · simp [hflows, updateFlow, hf]
  · split
    · rw [hid, hfid]
    · exact hfid
  · split
    · rw [hnodes, hfnodes]
    · exact hfnodes
  · split
    · rw [hsources, hfsources]
    · exact hfsources

theorem Runs.step {flow : Flow α} {s t : RunTime α} {a : Action α} (hs : Runs flow s)
    (hstep : ((system α).restrict WithoutReload).step s a t) : Runs flow t := by
  obtain ⟨hstep, hreload⟩ := hstep
  have hstep : Step s a t := hstep
  cases hstep with
  | loadFlow _ _ => exact hreload.elim
  | start hrunning _ => exact absurd hs.1 (by simp [hrunning])
  | pop _ =>
      exact runs_updateFlow hs rfl rfl (fun _ => rfl) (fun _ => rfl) (fun _ => rfl)
  | finish _ =>
      exact runs_updateFlow hs rfl rfl (fun f => countInstances_id f _)
        (fun f => countInstances_nodes f _) (fun f => countInstances_sources f _)
  | handBack _ => exact hs

/-- The first source among the nodes that a successful execution selects. -/
def firstSource (flow : Flow α) (fn : Node α) (outputs : Outputs α) : Option String :=
  (selectedNames flow fn outputs 0).find? (· ∈ flow.sources)

/-- A successful execution selects a looping source first exactly when it is an
execution of that source; a failing one is not handled by a looping source. -/
def SelectsSourcesAlone (flow : Flow α) (x : Execution α) (outputs : Outputs α)
    (returnCode : Int) : Prop :=
  ∀ n ∈ flow.nodes, n.isLooping = true →
    if returnCode ≠ 0 then x.fn.errorHandlerCase.targetNode ≠ some n.name
    else firstSource x.flow x.fn outputs = some n.name ↔ x.fn.name = n.name

/-- An execution of a looping source creates one new event of it, and no other
execution creates one. -/
def RespawnsAlone (flow : Flow α) (x : Execution α) (outputs : Outputs α)
    (returnCode : Int) : Prop :=
  ∀ n ∈ flow.nodes, n.isLooping = true →
    (x.createdNames outputs returnCode).count n.name = if x.fn.name = n.name then 1 else 0

/-- There is exactly one live event of each looping source. -/
def OneEventPerSource (flow : Flow α) (s : RunTime α) : Prop :=
  ∀ n ∈ flow.nodes, n.isLooping = true → s.liveCount flow.id n.name = 1

/-- A started flow has one event for each source. -/
theorem oneEventPerSource_started (flow : Flow α) (acquired : Nat → Bool) :
    OneEventPerSource flow (started flow acquired) := by
  intro n hn hlooping
  have hsource : n.isSource = true := (Bool.and_eq_true_iff.mp hlooping).1
  have hmem : n.name ∈ flow.sources := (Flow.mem_sources_iff hn).mpr hsource
  have hnodup : flow.sources.Nodup := by
    rw [flow.sources_eq]
    exact List.Nodup.sublist (List.filter_sublist.map _) flow.names_nodup
  have hnone : ((initial : RunTime α).loadFlow flow fun _ => true).liveCount flow.id n.name = 0 :=
    rfl
  rw [started, liveCount_start, hnone, if_pos rfl, List.count_eq_one_of_mem hnodup hmem]

/-- On an error a looping source creates itself again. -/
theorem count_createdNames_of_error {x : Execution α} (hfn : x.fn ∈ x.flow.nodes)
    (outputs : Outputs α) {returnCode : Int} (hrc : returnCode ≠ 0) {n : Node α}
    (hn : n ∈ x.flow.nodes) (hlooping : n.isLooping = true) :
    (x.createdNames outputs returnCode).count n.name =
      (if x.fn.errorHandlerCase.targetNode = some n.name then 1 else 0) +
        if x.fn.name = n.name then 1 else 0 := by
  have hnames : x.createdNames outputs returnCode =
      (x.fn.getSuccessors outputs.first returnCode).filterMap Case.targetNode := by
    rw [← targetNames_getSuccessors hfn, Execution.createdNames, Execution.created,
      successors, if_pos hrc, map_flowNode_successorsOnError]
  have hself : (if x.fn.isSource && !x.fn.getIsInitial then [x.fn.thisCase]
      else []).filterMap Case.targetNode = if x.fn.isLooping then [x.fn.name] else [] := by
    unfold Node.isLooping
    split <;> simp [Node.thisCase]
  have hown : (if x.fn.isLooping then [x.fn.name] else []).count n.name =
      if x.fn.name = n.name then 1 else 0 := by
    by_cases hname : x.fn.name = n.name
    · have heq : x.fn = n := List.inj_on_of_nodup_map x.flow.names_nodup hfn hn hname
      simp [heq, hlooping]
    · split <;> simp [hname]
  rw [hnames, Node.getSuccessors, if_pos hrc, List.filterMap_append, List.count_append,
    hself, hown]
  congr 1
  cases htarget : x.fn.errorHandlerCase.targetNode with
  | none => simp
  | some t =>
      by_cases ht : t = n.name <;> simp [htarget, ht]

/-- Without an error the first source creates itself again. -/
theorem count_createdNames_of_no_error {x : Execution α} (outputs : Outputs α)
    {n : Node α} (hn : n ∈ x.flow.nodes) (hlooping : n.isLooping = true) :
    (x.createdNames outputs 0).count n.name =
      if firstSource x.flow x.fn outputs = some n.name then 1 else 0 := by
  have hsource : n.isSource = true := (Bool.and_eq_true_iff.mp hlooping).1
  have hmem : n.name ∈ x.flow.sources := (Flow.mem_sources_iff hn).mpr hsource
  have hfilter := filter_sources_successorsOnNoError x.flow x.fn x.ev.release outputs
  have hcount : (x.createdNames outputs 0).count n.name =
      ((x.createdNames outputs 0).filter (· ∈ x.flow.sources)).count n.name := by
    rw [List.count_filter (by simpa using hmem)]
  rw [hcount, Execution.createdNames, Execution.created, successors, if_neg (by simp),
    hfilter, ← firstSource]
  cases firstSource x.flow x.fn outputs with
  | none => simp
  | some t => by_cases ht : t = n.name <;> simp [ht]

/-- One execution respawns the looping sources properly exactly under the condition
on what it selects. -/
theorem respawnsAlone_iff {flow : Flow α} {s : RunTime α} (hs : Runs flow s) {index : Nat}
    {x : Execution α} (hx : s.execution index = some x) (outputs : Outputs α)
    (returnCode : Int) :
    RespawnsAlone flow x outputs returnCode ↔
      SelectsSourcesAlone flow x outputs returnCode := by
  obtain ⟨_, hflow, _, hget⟩ := execution_eq_some hx
  obtain ⟨_, f, hf, _, hnodes, _⟩ := hs
  rw [hf, List.mem_singleton] at hflow
  have hfn := (Flow.get_eq_some hget).1
  refine forall_congr' fun n => forall_congr' fun hn => forall_congr' fun hlooping => ?_
  have hn : n ∈ x.flow.nodes := by rwa [hflow, hnodes]
  by_cases hrc : returnCode ≠ 0
  · rw [count_createdNames_of_error hfn outputs hrc hn hlooping, if_pos hrc]
    by_cases hhandler : x.fn.errorHandlerCase.targetNode = some n.name <;> simp [hhandler]
  · have hzero : returnCode = 0 := by simpa using hrc
    rw [if_neg hrc, hzero, count_createdNames_of_no_error outputs hn hlooping]
    by_cases hfirst : firstSource x.flow x.fn outputs = some n.name <;>
      by_cases hname : x.fn.name = n.name <;> simp [hfirst, hname]

/-- From a state with one event per source, a step leads to such a state exactly
when the execution that it finishes, if any, respawns the sources properly. -/
theorem oneEventPerSource_step_iff {flow : Flow α} {s t : RunTime α} {a : Action α}
    (hs : Runs flow s) (hone : OneEventPerSource flow s)
    (hstep : ((system α).restrict WithoutReload).step s a t) :
    OneEventPerSource flow t ↔ OnFinish flow.id (RespawnsAlone flow) s a t := by
  obtain ⟨hstep, hreload⟩ := hstep
  have hstep : Step s a t := hstep
  cases hstep with
  | loadFlow _ _ => exact hreload.elim
  | start hrunning _ => exact absurd hs.1 (by simp [hrunning])
  | pop hqueue =>
      refine iff_of_true (fun n hn hlooping => ?_) trivial
      rw [liveCount_pop hqueue]
      exact hone n hn hlooping
  | handBack hev =>
      refine iff_of_true (fun n hn hlooping => ?_) trivial
      rw [liveCount_handBack hev]
      exact hone n hn hlooping
  | @finish index x outputs returnCode acquired hx =>
      have hflow : x.flow.id = flow.id := by
        obtain ⟨_, f, hf, hfid, _⟩ := hs
        have hmem := (execution_eq_some hx).2.1
        rw [hf, List.mem_singleton] at hmem
        rw [hmem, hfid]
      have hcount : ∀ n ∈ flow.nodes, n.isLooping = true →
          ((s.finish index x outputs returnCode acquired).liveCount flow.id n.name = 1 ↔
            (x.createdNames outputs returnCode).count n.name =
              if x.fn.name = n.name then 1 else 0) := by
        intro n hn hlooping
        have hfinish := liveCount_finish hx outputs returnCode acquired flow.id n.name
        have hlive := hone n hn hlooping
        simp only [hflow, true_and, if_true, hlive] at hfinish
        omega
      constructor
      · intro h x' hx' _ n hn hlooping
        obtain rfl : x = x' := Option.some.inj (hx.symm.trans hx')
        exact (hcount n hn hlooping).mp (h n hn hlooping)
      · intro h n hn hlooping
        exact (hcount n hn hlooping).mpr (h x hx hflow n hn hlooping)

/-- A run keeps one event per source exactly when its executions respawn properly. -/
theorem statesMeet_oneEventPerSource_iff {flow : Flow α} {acquired : Nat → Bool}
    {path : List (Action α × RunTime α)}
    (h : ((system α).restrict WithoutReload).Run (started flow acquired) path) :
    TransitionSystem.StatesMeet (OneEventPerSource flow) path ↔
      TransitionSystem.StepsMeet (OnFinish flow.id (RespawnsAlone flow))
        (started flow acquired) path := by
  have hruns : ∀ s a t, Runs flow s → ((system α).restrict WithoutReload).step s a t →
      Runs flow t :=
    fun _ _ _ hs hstep => Runs.step hs hstep
  exact h.statesMeet_iff_stepsMeet hruns
    (fun _ _ _ hs hone hstep => oneEventPerSource_step_iff hs hone hstep)
    (runs_started flow acquired) (oneEventPerSource_started flow acquired)

/-- Executions respawn properly exactly when they select their sources properly. -/
theorem stepsMeet_respawnsAlone_iff {flow : Flow α} {acquired : Nat → Bool}
    {path : List (Action α × RunTime α)}
    (h : ((system α).restrict WithoutReload).Run (started flow acquired) path) :
    TransitionSystem.StepsMeet (OnFinish flow.id (RespawnsAlone flow))
        (started flow acquired) path ↔
      TransitionSystem.StepsMeet (OnFinish flow.id (SelectsSourcesAlone flow))
        (started flow acquired) path := by
  have hruns : ∀ s a t, Runs flow s → ((system α).restrict WithoutReload).step s a t →
      Runs flow t :=
    fun _ _ _ hs hstep => Runs.step hs hstep
  refine h.stepsMeet_congr hruns ?_ (runs_started flow acquired)
  intro s a t hs _
  cases a with
  | finish index outputs returnCode acquired =>
      exact forall_congr' fun x => forall_congr' fun hx => forall_congr' fun _ =>
        respawnsAlone_iff hs hx outputs returnCode
  | _ => exact Iff.rfl

/--
A run without reload starts with one event of every looping source.  It keeps
exactly one, each execution of the source putting exactly one in and no other
execution any, exactly when every execution selects its sources properly.
-/
theorem one_event_per_source_iff {flow : Flow α} {acquired : Nat → Bool}
    {path : List (Action α × RunTime α)}
    (h : ((system α).restrict WithoutReload).Run (started flow acquired) path) :
    OneEventPerSource flow (started flow acquired) ∧
    ((TransitionSystem.StatesMeet (OneEventPerSource flow) path ∧
        TransitionSystem.StepsMeet (OnFinish flow.id (RespawnsAlone flow))
          (started flow acquired) path) ↔
      TransitionSystem.StepsMeet (OnFinish flow.id (SelectsSourcesAlone flow))
        (started flow acquired) path) := by
  refine ⟨oneEventPerSource_started flow acquired, ?_⟩
  rw [statesMeet_oneEventPerSource_iff h, and_self]
  exact stepsMeet_respawnsAlone_iff h

/-! ## Flows in which only a source leads to itself -/

/-- A looping source handles no errors, only its own cases lead to it, and one of
its successors does so without a condition. -/
structure Isolated (flow : Flow α) : Prop where
  handlers : ∀ n ∈ flow.nodes, ∀ m ∈ flow.nodes, m.isLooping = true →
    n.errorHandlerCase.targetNode ≠ some m.name
  targets : ∀ n ∈ flow.nodes, ∀ s ∈ n.successorList.entries, ∀ c ∈ s.cases,
    ∀ t ∈ flow.sources, c.targetNode = some t → t = n.name
  selfCase : ∀ n ∈ flow.nodes, n.isLooping = true →
    ∃ s ∈ n.successorList.entries, ∃ c rest, s.cases = c :: rest ∧
      c.conditions = [] ∧ c.targetNode = some n.name

/-- The nodes selected without error are targets of selected cases. -/
theorem mem_selectedNames_iff {flow : Flow α} {fn : Node α} (hfn : fn ∈ flow.nodes)
    {outputs : Outputs α} {name : String} :
    name ∈ selectedNames flow fn outputs 0 ↔
      ∃ a ∈ outputs.walk, ∃ c ∈ fn.successorList.getSuccessors a,
        c.targetNode = some name := by
  simp only [selectedNames, targetNames_getSuccessors hfn]
  simp [Node.getSuccessors]

/-- In an isolated flow no other node selects a source. -/
theorem selectsSourcesAlone_of_isolated {flow : Flow α} (h : Isolated flow)
    {x : Execution α} (hnodes : x.flow.nodes = flow.nodes)
    (hsources : x.flow.sources = flow.sources) (hfn : x.fn ∈ x.flow.nodes)
    (outputs : Outputs α) (returnCode : Int) :
    SelectsSourcesAlone flow x outputs returnCode := by
  have hself : ∀ t ∈ x.flow.sources, t ∈ selectedNames x.flow x.fn outputs 0 →
      t = x.fn.name := by
    intro t ht hselected
    obtain ⟨a, _, c, hc, htarget⟩ := (mem_selectedNames_iff hfn).mp hselected
    obtain ⟨s, hs, hcase⟩ := SuccessorList.exists_entry_of_mem_getSuccessors hc
    exact h.targets x.fn (hnodes ▸ hfn) s hs c hcase t (hsources ▸ ht) htarget
  intro n hn hlooping
  split
  · exact h.handlers x.fn (hnodes ▸ hfn) n hn hlooping
  · have hsource : n.isSource = true := (Bool.and_eq_true_iff.mp hlooping).1
    have hmem : n.name ∈ x.flow.sources := hsources ▸ (Flow.mem_sources_iff hn).mpr hsource
    constructor
    · intro hfirst
      exact (hself n.name hmem (List.mem_of_find?_eq_some hfirst)).symm
    · intro hname
      have heq : x.fn = n :=
        List.inj_on_of_nodup_map flow.names_nodup (hnodes ▸ hfn) hn hname
      obtain ⟨s, hs, c, rest, hcases, hnone, htarget⟩ := h.selfCase n hn hlooping
      have hget : s.getSuccessor outputs.first = some c := by
        simp [Successor.getSuccessor, hcases, Case.satisfied_of_conditions_eq_nil hnone]
      have hselected : n.name ∈ selectedNames x.flow x.fn outputs 0 := by
        refine (mem_selectedNames_iff hfn).mpr ⟨outputs.first, by simp [Outputs.walk], c, ?_,
          htarget⟩
        rw [heq]
        exact List.mem_filterMap.mpr ⟨s, hs, hget⟩
      obtain ⟨t, ht⟩ : ∃ t, firstSource x.flow x.fn outputs = some t :=
        Option.isSome_iff_exists.mp
          (List.find?_isSome.mpr ⟨n.name, hselected, by simpa using hmem⟩)
      have htsource : t ∈ x.flow.sources := by simpa using List.find?_some ht
      rw [ht, hself t htsource (List.mem_of_find?_eq_some ht), hname]

/-- In such a flow every run without reload keeps one event of every looping source. -/
theorem oneEventPerSource_of_isolated {flow : Flow α} (hisolated : Isolated flow)
    {acquired : Nat → Bool} {path : List (Action α × RunTime α)}
    (h : ((system α).restrict WithoutReload).Run (started flow acquired) path) :
    TransitionSystem.StatesMeet (OneEventPerSource flow) path := by
  rw [statesMeet_oneEventPerSource_iff h, stepsMeet_respawnsAlone_iff h]
  have hruns : ∀ s a t, Runs flow s → ((system α).restrict WithoutReload).step s a t →
      Runs flow t :=
    fun _ _ _ hs hstep => Runs.step hs hstep
  refine h.stepsMeet hruns ?_ (runs_started flow acquired)
  intro s a t hs _
  cases a with
  | finish index outputs returnCode acquired =>
      intro x hx _
      obtain ⟨_, hflow, _, hget⟩ := execution_eq_some hx
      obtain ⟨_, f, hf, _, hnodes, hsources⟩ := hs
      rw [hf, List.mem_singleton] at hflow
      exact selectsSourcesAlone_of_isolated hisolated (hflow ▸ hnodes) (hflow ▸ hsources)
        (Flow.get_eq_some hget).1 outputs returnCode
  | _ => trivial

/-! ## A source that leads to another source -/

/-- A case without conditions. -/
def unconditional (target : String) : Case Unit where
  targetNode := some target
  ioConverter := IOConverter.standardConverter
  conditions := []

/-- A looping source with one further target, as the compiler names its successors. -/
def sourceWithTarget (name target : String) : Node Unit where
  name := name
  isSource := true
  successorList :=
    { entries := [{ name := "0", cases := [unconditional target] },
        { name := "erste", cases := [unconditional name] }]
      sorted := by
        have hlt : "0" < "erste" := by decide
        simpa using hlt }
  errorHandlerCase := Case.null

/-- Two looping sources; the first leads to the second. -/
def crossFlow : Flow Unit where
  id := 0
  nodes := [sourceWithTarget "A" "B", sourceWithTarget "B" "C",
    { name := "C", isSource := false, successorList := SuccessorList.empty,
      errorHandlerCase := Case.null }]
  sources := ["A", "B"]
  instances := fun _ => 0
  executions := fun _ => 0
  names_nodup := by simp [sourceWithTarget]
  sources_eq := by simp [sourceWithTarget]
  targets_resolved := by
    simp [Node.TargetsIn, sourceWithTarget, Case.null, SuccessorList.empty, unconditional]

/-- The flow of the example is fresh. -/
theorem crossFlow_fresh : crossFlow.Fresh := by
  simp [Flow.Fresh, crossFlow]

/-- Pop the event of the first source and finish it without error. -/
def crossRun : List (Action Unit × RunTime Unit) :=
  let s := started crossFlow fun _ => true
  let popped := s.pop (create [] none crossFlow (sourceWithTarget "A" "B"))
    [create [] none crossFlow (sourceWithTarget "B" "C")]
  let x : Execution Unit :=
    { ev := create [] none crossFlow (sourceWithTarget "A" "B")
      flow := ((crossFlow.countInstance "A").countInstance "B").countExecution "A"
      fn := sourceWithTarget "A" "B" }
  [(.pop, popped),
    (.finish 0 ⟨(), []⟩ 0 fun _ => true, popped.finish 0 x ⟨(), []⟩ 0 fun _ => true)]

theorem run_crossRun :
    ((system Unit).restrict WithoutReload).Run (started crossFlow fun _ => true) crossRun :=
  .cons ⟨.pop rfl, trivial⟩ (.cons ⟨.finish rfl, trivial⟩ (.nil _))

/-- The first source selects the second one first, and so puts no event of its own in. -/
theorem not_oneEventPerSource_crossRun :
    ¬ ∀ flow : Flow Unit, flow.Fresh → flow.id = 0 → ∀ acquired path,
      ((system Unit).restrict WithoutReload).Run (started flow acquired) path →
        TransitionSystem.StatesMeet (OneEventPerSource flow) path := by
  intro h
  have hstates := h crossFlow crossFlow_fresh rfl _ crossRun run_crossRun
  have hlast := hstates _ (List.mem_of_getLast? rfl) (sourceWithTarget "A" "B")
    List.mem_cons_self (by decide)
  exact absurd hlast (by decide)

theorem one_event_per_source_iff_crossRun :
    OneEventPerSource crossFlow (started crossFlow fun _ => true) ∧
    ((TransitionSystem.StatesMeet (OneEventPerSource crossFlow) crossRun ∧
        TransitionSystem.StepsMeet (OnFinish crossFlow.id (RespawnsAlone crossFlow))
          (started crossFlow fun _ => true) crossRun) ↔
      TransitionSystem.StepsMeet (OnFinish crossFlow.id (SelectsSourcesAlone crossFlow))
        (started crossFlow fun _ => true) crossRun) :=
  one_event_per_source_iff run_crossRun

end RunTime

end Runtime
end OFlux
