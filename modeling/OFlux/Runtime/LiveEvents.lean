import OFlux.Runtime.RunTime

/-!
# Live events of a node

The number of events of a node that are queued, executing or waiting, and what
each step of the run time does to it.

Main results:

- Theorem {lit}`targetNames_eq`: in a loaded flow every case leads to the node
  that it names.
- Theorem {lit}`RunTime.liveCount_finish`: an execution takes away its own event
  and adds those that it creates.
-/

namespace OFlux
namespace Runtime

open Library

variable {α : Type}

/-! ## Targets in a loaded flow -/

/-- In a loaded flow every case leads to the node that it names. -/
theorem targetNames_eq {flow : Flow α} {cases : List (Case α)}
    (h : ∀ c ∈ cases, ∃ t ∈ flow.nodes.map Node.name, c.targetNode = some t) :
    targetNames flow cases = cases.filterMap Case.targetNode := by
  refine List.filterMap_congr fun c hc => ?_
  obtain ⟨t, ht, htarget⟩ := h c hc
  obtain ⟨n, hn⟩ := Flow.exists_get ht
  simp [htarget, hn, (Flow.get_eq_some hn).2]

/-- The targets of the cases that a node takes. -/
theorem targetNames_getSuccessors {flow : Flow α} {fn : Node α} (hfn : fn ∈ flow.nodes)
    (a : α) (rc : Int) :
    targetNames flow (fn.getSuccessors a rc) =
      (fn.getSuccessors a rc).filterMap Case.targetNode :=
  targetNames_eq fun _ hc => Node.exists_target_of_mem_getSuccessors
    (List.mem_map_of_mem hfn) (flow.targets_resolved fn hfn) hc

/-! ## Counting live events -/

/-- Whether an event belongs to a node of a flow. -/
def Event.isOf (id : Nat) (name : String) (e : Event α) : Bool :=
  e.flow = id ∧ e.flowNode = name

/-- Events created in a flow are counted by the names of their nodes. -/
theorem countP_isOf_created {flow : Flow α} {sources : List (EventBase α)}
    {created : List (Event α)} (h : ∀ e ∈ created, CreatedFrom flow sources e)
    (id : Nat) (name : String) :
    created.countP (Event.isOf id name) =
      if flow.id = id then (created.map fun e => e.flowNode).count name else 0 := by
  split
  · rename_i hid
    rw [List.count_eq_countP, List.countP_map]
    refine List.countP_congr fun e he => ?_
    simp [Event.isOf, (h e he).flow_eq, hid]
  · rename_i hid
    refine List.countP_eq_zero.mpr fun e he => ?_
    simp [Event.isOf, (h e he).flow_eq, hid]

namespace RunTime

/-- The number of live events of a node. -/
def liveCount (s : RunTime α) (id : Nat) (name : String) : Nat :=
  s.live.countP (Event.isOf id name)

/-- What an execution creates is created from its event. -/
theorem createdFrom_created {x : Execution α} {outputs : Outputs α} {returnCode : Int} :
    ∀ e ∈ x.created outputs returnCode, CreatedFrom x.flow x.ev.chain e :=
  fun _ he => createdFrom_successors he

/-- The names of the nodes whose events an execution creates. -/
def Execution.createdNames (x : Execution α) (outputs : Outputs α) (returnCode : Int) :
    List String :=
  (x.created outputs returnCode).map fun e => e.flowNode

/-- Loading a flow keeps the live events of the others. -/
theorem liveCount_loadFlow (s : RunTime α) {flow : Flow α} {id : Nat}
    (hid : flow.id ≠ id) (acquired : Nat → Bool) (name : String) :
    (s.loadFlow flow acquired).liveCount id name = s.liveCount id name := by
  have hpushed : ((s.pushOnLoad flow acquired).1 ++
      (s.pushOnLoad flow acquired).2).countP (Event.isOf id name) = 0 := by
    unfold pushOnLoad
    split
    · rw [countP_isOf_created fun e he => createdFrom_pushed he]
      simp [hid]
    · rfl
  unfold liveCount
  rw [(live_loadFlow_perm s flow acquired).countP_eq, List.countP_append, hpushed, zero_add]

/-- Starting adds the events of its flow. -/
theorem liveCount_start (s : RunTime α) (flow : Flow α) (older : List (Flow α))
    (acquired : Nat → Bool) (id : Nat) (name : String) :
    (s.start flow older acquired).liveCount id name =
      (if flow.id = id then flow.sources.count name else 0) + s.liveCount id name := by
  unfold liveCount
  rw [(live_start_perm s flow older acquired).countP_eq, List.countP_append,
    countP_isOf_created fun e he => createdFrom_pushed he]
  rw [(map_flowNode_pushed_perm flow false acquired).count_eq]

/-- Taking an event for execution keeps the live events. -/
theorem liveCount_pop {s : RunTime α} {ev : Event α} {rest : List (Event α)}
    (h : s.queue = ev :: rest) (id : Nat) (name : String) :
    (s.pop ev rest).liveCount id name = s.liveCount id name :=
  (live_pop_perm h).countP_eq _

/-- Handing an event back keeps the live events. -/
theorem liveCount_handBack {s : RunTime α} {index : Nat} {ev : Event α}
    (h : s.waiting[index]? = some ev) (id : Nat) (name : String) :
    (s.handBack index ev).liveCount id name = s.liveCount id name :=
  (live_handBack_perm h).countP_eq _

/-- An execution takes away its own event and adds those that it creates. -/
theorem liveCount_finish {s : RunTime α} {index : Nat} {x : Execution α}
    (h : s.execution index = some x) (outputs : Outputs α) (returnCode : Int)
    (acquired : Nat → Bool) (id : Nat) (name : String) :
    (s.finish index x outputs returnCode acquired).liveCount id name +
        (if x.flow.id = id ∧ x.fn.name = name then 1 else 0) =
      (if x.flow.id = id then (x.createdNames outputs returnCode).count name else 0) +
        s.liveCount id name := by
  have hperm := (live_finish_perm h outputs returnCode acquired).countP_eq (Event.isOf id name)
  obtain ⟨_, _, hid, hfn⟩ := execution_eq_some h
  rw [List.countP_cons, List.countP_append, countP_isOf_created createdFrom_created] at hperm
  simpa [liveCount, Event.isOf, Execution.createdNames, hid, (Flow.get_eq_some hfn).2]
    using hperm

/-- What holds of the executions of the flow that a step finishes. -/
def OnFinish (id : Nat) (P : Execution α → Outputs α → Int → Prop) (s : RunTime α) :
    Action α → RunTime α → Prop
  | .finish index outputs returnCode _, _ =>
      ∀ x, s.execution index = some x → x.flow.id = id → P x outputs returnCode
  | _, _ => True

end RunTime

end Runtime
end OFlux
