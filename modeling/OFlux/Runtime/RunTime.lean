import OFlux.Library.TransitionSystem
import OFlux.Runtime.EventOperations
import Mathlib.Algebra.Order.Group.Multiset
import Mathlib.Tactic.Abel

/-!
# The classic run time

Runs of the classic run time as steps on its active flows and its events: a
flow is loaded, the run time starts, a thread pops the front of the queue and
executes it, an execution finishes and its successors are processed, and an
event that waited for a guard is handed back to the queue.  Detached executions
overlap, so any executing event may finish first.

Main results:

- Theorem {lit}`invariant_of_reachable`: every event that is left belongs to an
  active flow in which it has been counted.
- Theorem {lit}`exists_execution_of_reachable`: an executing event never lost
  the flow and the node that its completion reads.
-/

namespace OFlux
namespace Runtime

open Library

variable {α : Type}

/-! ## State and steps -/

/-- The flows, newest first, and the events of a run time. -/
structure RunTime (α : Type) where
  running : Bool
  activeFlows : List (Flow α)
  queue : List (Event α)
  executing : List (Event α)
  waiting : List (Event α)
  loaded : Nat

/-- What a run time can do next. -/
inductive Action (α : Type) where
  | loadFlow (flow : Flow α) (acquired : Nat → Bool)
  | start (acquired : Nat → Bool)
  | pop
  | finish (index : Nat) (outputs : Outputs α) (returnCode : Int) (acquired : Nat → Bool)
  | handBack (index : Nat)

/-- Count the creation of events in their flow. -/
def countInstances (flow : Flow α) (created : List (Event α)) : Flow α :=
  created.foldl (fun f ev => f.countInstance ev.flowNode) flow

/-- The clean-up loop of {lit}`load_flow`, from the back of the active flows: it
turns off the sources of the last flow and goes on only when it deletes it. -/
def retireFlows : List (Flow α) → List (Flow α)
  | [] => []
  | back :: rest =>
      if back.hasInstances then
        (if 0 < back.sources.length then back.turnOffSources else back) :: rest
      else retireFlows rest

namespace RunTime

/-- A run time before any flow was loaded. -/
def initial : RunTime α where
  running := false
  activeFlows := []
  queue := []
  executing := []
  waiting := []
  loaded := 0

/-- Every event that is left. -/
def live (s : RunTime α) : List (Event α) :=
  s.queue ++ s.executing ++ s.waiting

/-- Replace the active flow of a given identity. -/
def updateFlow (s : RunTime α) (id : Nat) (g : Flow α → Flow α) : List (Flow α) :=
  s.activeFlows.map fun f => if f.id = id then g f else f

/-- The first events pushed while the run time is running. -/
def pushOnLoad (s : RunTime α) (flow : Flow α) (acquired : Nat → Bool) :
    List (Event α) × List (Event α) :=
  if s.running then pushInitialsAndSources flow false acquired else ([], [])

/-- {lit}`load_flow` once the new flow has been read. -/
def loadFlow (s : RunTime α) (flow : Flow α) (acquired : Nat → Bool) : RunTime α where
  running := s.running
  activeFlows :=
    countInstances flow ((s.pushOnLoad flow acquired).1 ++ (s.pushOnLoad flow acquired).2) ::
      (retireFlows s.activeFlows.reverse).reverse
  queue := s.queue ++ (s.pushOnLoad flow acquired).1
  executing := s.executing
  waiting := s.waiting ++ (s.pushOnLoad flow acquired).2
  loaded := s.loaded + 1

/-- {lit}`start` pushes the first events of the newest flow. -/
def start (s : RunTime α) (flow : Flow α) (older : List (Flow α))
    (acquired : Nat → Bool) : RunTime α where
  running := true
  activeFlows :=
    countInstances flow ((pushInitialsAndSources flow false acquired).1 ++
      (pushInitialsAndSources flow false acquired).2) :: older
  queue := s.queue ++ (pushInitialsAndSources flow false acquired).1
  executing := s.executing
  waiting := s.waiting ++ (pushInitialsAndSources flow false acquired).2
  loaded := s.loaded

/-- An execution begins with the front of the queue. -/
def pop (s : RunTime α) (ev : Event α) (rest : List (Event α)) : RunTime α where
  running := s.running
  activeFlows := s.updateFlow ev.flow fun f => f.countExecution ev.flowNode
  queue := rest
  executing := s.executing ++ [ev]
  waiting := s.waiting
  loaded := s.loaded

/-- What the completion of an execution reads: the event, its flow and its node. -/
structure Execution (α : Type) where
  ev : Event α
  flow : Flow α
  fn : Node α

/-- The execution at a position, unless a pointer of its event dangles. -/
def execution (s : RunTime α) (index : Nat) : Option (Execution α) :=
  match s.executing[index]? with
  | none => none
  | some ev =>
      match s.activeFlows.find? (fun f => f.id = ev.flow) with
      | none => none
      | some flow => (flow.get ev.flowNode).map fun fn => ⟨ev, flow, fn⟩

/-- The events that a completing execution creates. -/
def Execution.created (x : Execution α) (outputs : Outputs α) (returnCode : Int) :
    List (Event α) :=
  successors x.flow x.fn x.ev outputs returnCode

/-- Successor processing at the end of an execution. -/
def finish (s : RunTime α) (index : Nat) (x : Execution α) (outputs : Outputs α)
    (returnCode : Int) (acquired : Nat → Bool) : RunTime α where
  running := s.running
  activeFlows := s.updateFlow x.ev.flow fun f =>
    countInstances f (x.created outputs returnCode)
  queue := s.queue ++ (acquireGuards acquired 0 (x.created outputs returnCode)).1
  executing := s.executing.eraseIdx index
  waiting := s.waiting ++ (acquireGuards acquired 0 (x.created outputs returnCode)).2
  loaded := s.loaded

/-- An event that a release handed back, and that now holds all its guards. -/
def handBack (s : RunTime α) (index : Nat) (ev : Event α) : RunTime α where
  running := s.running
  activeFlows := s.activeFlows
  queue := s.queue ++ [ev]
  executing := s.executing
  waiting := s.waiting.eraseIdx index
  loaded := s.loaded

/-- A step of the run time.  A flow read from a file has no events yet, and its
identity is its age. -/
inductive Step (s : RunTime α) : Action α → RunTime α → Prop where
  | loadFlow {flow : Flow α} {acquired : Nat → Bool} :
      flow.Fresh → flow.id = s.loaded →
      Step s (.loadFlow flow acquired) (s.loadFlow flow acquired)
  | start {flow : Flow α} {older : List (Flow α)} {acquired : Nat → Bool} :
      s.running = false → s.activeFlows = flow :: older →
      Step s (.start acquired) (s.start flow older acquired)
  | pop {ev : Event α} {rest : List (Event α)} :
      s.queue = ev :: rest → Step s .pop (s.pop ev rest)
  | finish {index : Nat} {x : Execution α} {outputs : Outputs α} {returnCode : Int}
      {acquired : Nat → Bool} :
      s.execution index = some x →
      Step s (.finish index outputs returnCode acquired)
        (s.finish index x outputs returnCode acquired)
  | handBack {index : Nat} {ev : Event α} :
      s.waiting[index]? = some ev → Step s (.handBack index) (s.handBack index ev)

/-- The classic run time as a transition system. -/
def system (α : Type) : TransitionSystem (RunTime α) (Action α) where
  init s := s = initial
  step := Step

/-! ## Live events over one step -/

/-- A list is its entry and the others. -/
theorem perm_cons_eraseIdx {β : Type} {l : List β} {i : Nat} {x : β}
    (h : l[i]? = some x) : l.Perm (x :: l.eraseIdx i) := by
  obtain ⟨hi, rfl⟩ := List.getElem?_eq_some_iff.mp h
  exact (List.getElem_cons_eraseIdx_perm hi).symm

/-- New events are split between the queue and the waiter lists. -/
theorem perm_push {β : Type} (queue executing waiting pushed refused : List β) :
    (queue ++ pushed ++ executing ++ (waiting ++ refused)).Perm
      (pushed ++ refused ++ (queue ++ executing ++ waiting)) := by
  simp only [← Multiset.coe_eq_coe, ← Multiset.coe_add]
  abel

/-- Loading a flow adds the events pushed. -/
theorem live_loadFlow_perm (s : RunTime α) (flow : Flow α) (acquired : Nat → Bool) :
    (s.loadFlow flow acquired).live.Perm
      ((s.pushOnLoad flow acquired).1 ++ (s.pushOnLoad flow acquired).2 ++ s.live) :=
  perm_push _ _ _ _ _

/-- Starting adds the initial and source events. -/
theorem live_start_perm (s : RunTime α) (flow : Flow α) (older : List (Flow α))
    (acquired : Nat → Bool) :
    (s.start flow older acquired).live.Perm
      ((pushInitialsAndSources flow false acquired).1 ++
        (pushInitialsAndSources flow false acquired).2 ++ s.live) :=
  perm_push _ _ _ _ _

/-- Taking an event for execution keeps it live. -/
theorem live_pop_perm {s : RunTime α} {ev : Event α} {rest : List (Event α)}
    (h : s.queue = ev :: rest) : (s.pop ev rest).live.Perm s.live := by
  simp only [live, pop, h, ← Multiset.coe_eq_coe, ← Multiset.coe_add,
    ← Multiset.cons_coe, ← Multiset.singleton_add, Multiset.coe_nil]
  abel

/-- What {lit}`execution` found. -/
theorem execution_eq_some {s : RunTime α} {index : Nat} {x : Execution α}
    (h : s.execution index = some x) :
    s.executing[index]? = some x.ev ∧ x.flow ∈ s.activeFlows ∧
      x.flow.id = x.ev.flow ∧ x.flow.get x.ev.flowNode = some x.fn := by
  unfold execution at h
  split at h
  · simp at h
  · rename_i ev hev
    split at h
    · simp at h
    · rename_i flow hflow
      obtain ⟨fn, hfn, rfl⟩ := Option.map_eq_some_iff.mp h
      exact ⟨hev, List.mem_of_find?_eq_some hflow, by simpa using List.find?_some hflow, hfn⟩

/-- An event in execution is live. -/
theorem mem_live_of_execution {s : RunTime α} {index : Nat} {x : Execution α}
    (h : s.execution index = some x) : x.ev ∈ s.live := by
  have hev := (execution_eq_some h).1
  have hmem : x.ev ∈ s.executing := List.mem_of_getElem? hev
  simp [live, hmem]

/-- Finishing replaces the executed event by the created ones. -/
theorem live_finish_perm {s : RunTime α} {index : Nat} {x : Execution α}
    (h : s.execution index = some x) (outputs : Outputs α) (returnCode : Int)
    (acquired : Nat → Bool) :
    (x.ev :: (s.finish index x outputs returnCode acquired).live).Perm
      (x.created outputs returnCode ++ s.live) := by
  have hexecuting := perm_cons_eraseIdx (execution_eq_some h).1
  have hsplit := acquireGuards_perm acquired 0 (x.created outputs returnCode)
  simp only [live, finish, ← Multiset.coe_eq_coe, ← Multiset.coe_add, ← Multiset.cons_coe]
    at hexecuting hsplit ⊢
  rw [hexecuting, ← hsplit]
  simp only [← Multiset.singleton_add]
  abel

/-- An event handed back stays live. -/
theorem live_handBack_perm {s : RunTime α} {index : Nat} {ev : Event α}
    (h : s.waiting[index]? = some ev) : (s.handBack index ev).live.Perm s.live := by
  have hwaiting := perm_cons_eraseIdx h
  simp only [live, handBack, ← Multiset.coe_eq_coe, ← Multiset.coe_add,
    ← Multiset.cons_coe, Multiset.coe_nil] at hwaiting ⊢
  rw [hwaiting]
  simp only [← Multiset.singleton_add]
  abel

end RunTime

/-! ## Flows over one step -/

/-- A later state of the same flow: nodes keep their names, counters grow. -/
structure Flow.GrowsTo (f g : Flow α) : Prop where
  id_eq : g.id = f.id
  names_eq : g.nodes.map Node.name = f.nodes.map Node.name
  instances_le : ∀ name, f.instances name ≤ g.instances name

theorem Flow.GrowsTo.refl (f : Flow α) : f.GrowsTo f :=
  ⟨rfl, rfl, fun _ => le_rfl⟩

theorem Flow.GrowsTo.trans {f g h : Flow α} (hfg : f.GrowsTo g) (hgh : g.GrowsTo h) :
    f.GrowsTo h :=
  ⟨hgh.id_eq.trans hfg.id_eq, hgh.names_eq.trans hfg.names_eq,
    fun name => (hfg.instances_le name).trans (hgh.instances_le name)⟩

/-- Counting an instance lets a flow grow. -/
theorem Flow.growsTo_countInstance (f : Flow α) (name : String) :
    f.GrowsTo (f.countInstance name) := by
  refine ⟨rfl, rfl, fun other => ?_⟩
  by_cases h : other = name
  · simp [countInstance, h]
  · simp [countInstance, Function.update, h]

/-- Counting an execution lets a flow grow. -/
theorem Flow.growsTo_countExecution (f : Flow α) (name : String) :
    f.GrowsTo (f.countExecution name) :=
  ⟨rfl, rfl, fun _ => le_rfl⟩

/-- Turning the sources off keeps the counts. -/
theorem Flow.growsTo_turnOffSources (f : Flow α) : f.GrowsTo f.turnOffSources :=
  ⟨rfl, Flow.turnOffSources_names f, fun _ => le_rfl⟩

@[simp]
theorem countInstances_sources (flow : Flow α) (created : List (Event α)) :
    (countInstances flow created).sources = flow.sources := by
  induction created generalizing flow with
  | nil => rfl
  | cons ev rest ih => exact ih (flow.countInstance ev.flowNode)

@[simp]
theorem countInstances_nodes (flow : Flow α) (created : List (Event α)) :
    (countInstances flow created).nodes = flow.nodes := by
  induction created generalizing flow with
  | nil => rfl
  | cons ev rest ih => exact ih (flow.countInstance ev.flowNode)

/-- Counting instances lets a flow grow. -/
theorem growsTo_countInstances (flow : Flow α) (created : List (Event α)) :
    flow.GrowsTo (countInstances flow created) := by
  induction created generalizing flow with
  | nil => exact Flow.GrowsTo.refl flow
  | cons ev rest ih =>
      exact (flow.growsTo_countInstance ev.flowNode).trans (ih (flow.countInstance ev.flowNode))

@[simp]
theorem countInstances_id (flow : Flow α) (created : List (Event α)) :
    (countInstances flow created).id = flow.id :=
  (growsTo_countInstances flow created).id_eq

/-- Each created event has been counted. -/
theorem countInstances_pos {flow : Flow α} {created : List (Event α)} {e : Event α}
    (h : e ∈ created) : 0 < (countInstances flow created).instances e.flowNode := by
  induction created generalizing flow with
  | nil => simp at h
  | cons ev rest ih =>
      rcases List.mem_cons.mp h with rfl | h
      · have hcounted : 0 < (flow.countInstance e.flowNode).instances e.flowNode := by
          simp [Flow.countInstance]
        exact hcounted.trans_le ((growsTo_countInstances _ rest).instances_le e.flowNode)
      · exact ih h

/-- A flow with instances keeps them. -/
theorem Flow.GrowsTo.hasInstances {f g : Flow α} (h : f.GrowsTo g)
    (hf : f.hasInstances = true) : g.hasInstances = true := by
  obtain ⟨n, hn, hpos⟩ := Flow.hasInstances_iff.mp hf
  have hname : n.name ∈ g.nodes.map Node.name := h.names_eq ▸ List.mem_map_of_mem hn
  obtain ⟨m, hm, heq⟩ := List.mem_map.mp hname
  exact Flow.hasInstances_iff.mpr ⟨m, hm, heq ▸ hpos.trans_le (h.instances_le n.name)⟩

/-- A flow with instances outlives the clean-up loop. -/
theorem exists_growsTo_retireFlows {flows : List (Flow α)} {f : Flow α}
    (hf : f ∈ flows) (hinst : f.hasInstances = true) :
    ∃ g ∈ retireFlows flows, f.GrowsTo g := by
  induction flows with
  | nil => simp at hf
  | cons back rest ih =>
      unfold retireFlows
      split
      · rcases List.mem_cons.mp hf with rfl | hf
        · refine ⟨_, List.mem_cons_self, ?_⟩
          split
          · exact f.growsTo_turnOffSources
          · exact Flow.GrowsTo.refl f
        · exact ⟨f, List.mem_cons_of_mem _ hf, Flow.GrowsTo.refl f⟩
      · rename_i hback
        rcases List.mem_cons.mp hf with rfl | hf
        · exact absurd hinst hback
        · exact ih hf

/-- The loop keeps a suffix of the flows, by identity. -/
theorem retireFlows_id_suffix (flows : List (Flow α)) :
    (retireFlows flows).map Flow.id <:+ flows.map Flow.id := by
  induction flows with
  | nil => simp [retireFlows]
  | cons back rest ih =>
      unfold retireFlows
      split
      · have hid : (if 0 < back.sources.length then back.turnOffSources else back).id =
            back.id := by
          split <;> rfl
        simp [hid]
      · exact ih.trans (List.suffix_cons _ _)

/-! ## Every event that is left has been counted -/

/-- An event whose flow is active and has counted an event of its node. -/
def CountedIn (flows : List (Flow α)) (b : EventBase α) : Prop :=
  ∃ f ∈ flows, f.id = b.flow ∧ b.flowNode ∈ f.nodes.map Node.name ∧
    0 < f.instances b.flowNode

/-- A step that lets the flows with instances grow keeps the events counted. -/
theorem CountedIn.mono {flows flows' : List (Flow α)} {b : EventBase α}
    (h : CountedIn flows b)
    (hgrow : ∀ f ∈ flows, f.hasInstances = true → ∃ g ∈ flows', f.GrowsTo g) :
    CountedIn flows' b := by
  obtain ⟨f, hf, hid, hname, hpos⟩ := h
  obtain ⟨n, hn, hnode⟩ := List.mem_map.mp hname
  have hinst : f.hasInstances = true :=
    Flow.hasInstances_iff.mpr ⟨n, hn, hnode ▸ hpos⟩
  obtain ⟨g, hg, hfg⟩ := hgrow f hf hinst
  exact ⟨g, hg, hfg.id_eq.trans hid, hfg.names_eq ▸ hname,
    hpos.trans_le (hfg.instances_le b.flowNode)⟩

namespace RunTime

/-- Identities are ages, and every event that is left has been counted. -/
structure Invariant (s : RunTime α) : Prop where
  ids_nodup : (s.activeFlows.map Flow.id).Nodup
  ids_lt : ∀ f ∈ s.activeFlows, f.id < s.loaded
  counted : ∀ e ∈ s.live, ∀ b ∈ e.chain, CountedIn s.activeFlows b

theorem invariant_initial : (initial : RunTime α).Invariant where
  ids_nodup := by simp [initial]
  ids_lt := by simp [initial]
  counted := by simp [initial, live]

/-- Updating a flow changes no number of a flow. -/
theorem updateFlow_ids (s : RunTime α) (id : Nat) {g : Flow α → Flow α}
    (hg : ∀ f : Flow α, f.GrowsTo (g f)) :
    (s.updateFlow id g).map Flow.id = s.activeFlows.map Flow.id := by
  unfold updateFlow
  rw [List.map_map]
  refine List.map_congr_left fun f _ => ?_
  simp only [Function.comp_apply]
  split
  · exact (hg f).id_eq
  · rfl

/-- Every active flow is still there after an update. -/
theorem exists_growsTo_updateFlow {s : RunTime α} (id : Nat) {g : Flow α → Flow α}
    (hg : ∀ f : Flow α, f.GrowsTo (g f)) {f : Flow α} (hf : f ∈ s.activeFlows) :
    ∃ f' ∈ s.updateFlow id g, f.GrowsTo f' := by
  refine ⟨_, List.mem_map_of_mem hf, ?_⟩
  split
  · exact hg f
  · exact Flow.GrowsTo.refl f

/-- Active flows were loaded. -/
theorem mem_ids_lt {s : RunTime α} (h : s.Invariant) {flows : List (Flow α)}
    (hids : flows.map Flow.id = s.activeFlows.map Flow.id) {f : Flow α}
    (hf : f ∈ flows) : f.id < s.loaded := by
  have hmem : f.id ∈ s.activeFlows.map Flow.id := hids ▸ List.mem_map_of_mem hf
  obtain ⟨f', hf', heq⟩ := List.mem_map.mp hmem
  exact heq ▸ h.ids_lt f' hf'

/-- First events, once counted in the flow at the front. -/
theorem countedIn_pushed {flow : Flow α} {created : List (Event α)} {e : Event α}
    (he : e ∈ created) (hfrom : CreatedFrom flow [] e) (older : List (Flow α)) :
    ∀ b ∈ e.chain, CountedIn (countInstances flow created :: older) b := by
  intro b hb
  have hnone : e.predecessors = [] :=
    List.eq_nil_iff_forall_not_mem.mpr fun b hb => by
      simpa using hfrom.predecessors_subset b hb
  rw [Event.chain, hnone, List.mem_singleton] at hb
  subst hb
  refine ⟨_, List.mem_cons_self, ?_, ?_, countInstances_pos he⟩
  · simpa using hfrom.flow_eq.symm
  · simpa using hfrom.node_mem

/-- Loading a flow keeps the invariant. -/
theorem Invariant.loadFlow {s : RunTime α} (h : s.Invariant) {flow : Flow α}
    (hid : flow.id = s.loaded) (acquired : Nat → Bool) :
    (s.loadFlow flow acquired).Invariant where
  ids_nodup := by
    have hsuffix := retireFlows_id_suffix s.activeFlows.reverse
    simp only [RunTime.loadFlow, List.map_cons, countInstances_id, List.nodup_cons, hid]
    constructor
    · intro hmem
      rw [List.map_reverse, List.mem_reverse] at hmem
      have hmem := hsuffix.subset hmem
      rw [List.map_reverse, List.mem_reverse] at hmem
      obtain ⟨f, hf, heq⟩ := List.mem_map.mp hmem
      exact absurd (h.ids_lt f hf) (by omega)
    · rw [List.map_reverse, List.nodup_reverse]
      refine List.Nodup.sublist hsuffix.sublist ?_
      rw [List.map_reverse, List.nodup_reverse]
      exact h.ids_nodup
  ids_lt := by
    have hsuffix := retireFlows_id_suffix s.activeFlows.reverse
    intro f hf
    simp only [RunTime.loadFlow, List.mem_cons, List.mem_reverse] at hf ⊢
    rcases hf with rfl | hf
    · simp [hid]
    · have hmem := hsuffix.subset (List.mem_map_of_mem hf)
      rw [List.map_reverse, List.mem_reverse] at hmem
      obtain ⟨f', hf', heq⟩ := List.mem_map.mp hmem
      have hlt := h.ids_lt f' hf'
      omega
  counted := by
    intro e he
    rcases List.mem_append.mp ((live_loadFlow_perm s flow acquired).mem_iff.mp he) with he | he
    · refine countedIn_pushed he ?_ _
      unfold pushOnLoad at he
      split at he
      · exact createdFrom_pushed he
      · simp at he
    · intro b hb
      refine (h.counted e he b hb).mono fun f hf hinst => ?_
      obtain ⟨g, hg, hfg⟩ := exists_growsTo_retireFlows (List.mem_reverse.mpr hf) hinst
      exact ⟨g, List.mem_cons_of_mem _ (List.mem_reverse.mpr hg), hfg⟩

/-- Starting keeps the invariant. -/
theorem Invariant.start {s : RunTime α} (h : s.Invariant) {flow : Flow α}
    {older : List (Flow α)} (hflows : s.activeFlows = flow :: older)
    (acquired : Nat → Bool) : (s.start flow older acquired).Invariant := by
  have hids : (s.start flow older acquired).activeFlows.map Flow.id =
      s.activeFlows.map Flow.id := by
    simp [RunTime.start, hflows]
  refine ⟨hids ▸ h.ids_nodup, fun f hf => mem_ids_lt h hids hf, ?_⟩
  intro e he
  rcases List.mem_append.mp ((live_start_perm s flow older acquired).mem_iff.mp he) with he | he
  · exact countedIn_pushed he (createdFrom_pushed he) _
  · intro b hb
    refine (h.counted e he b hb).mono fun f hf _ => ?_
    rw [hflows] at hf
    rcases List.mem_cons.mp hf with rfl | hf
    · exact ⟨_, List.mem_cons_self, growsTo_countInstances _ _⟩
    · exact ⟨f, List.mem_cons_of_mem _ hf, Flow.GrowsTo.refl f⟩

/-- Taking an event keeps the invariant. -/
theorem Invariant.pop {s : RunTime α} (h : s.Invariant) {ev : Event α}
    {rest : List (Event α)} (hqueue : s.queue = ev :: rest) :
    (s.pop ev rest).Invariant := by
  have hgrow : ∀ f : Flow α, f.GrowsTo (f.countExecution ev.flowNode) :=
    fun f => f.growsTo_countExecution ev.flowNode
  have hids := updateFlow_ids s ev.flow hgrow
  refine ⟨hids ▸ h.ids_nodup, fun f hf => mem_ids_lt h hids hf, ?_⟩
  intro e he b hb
  have he := (live_pop_perm hqueue).mem_iff.mp he
  exact (h.counted e he b hb).mono fun f hf _ => exists_growsTo_updateFlow ev.flow hgrow hf

/-- Ending an execution keeps the invariant. -/
theorem Invariant.finish {s : RunTime α} (h : s.Invariant) {index : Nat}
    {x : Execution α} (hx : s.execution index = some x) (outputs : Outputs α)
    (returnCode : Int) (acquired : Nat → Bool) :
    (s.finish index x outputs returnCode acquired).Invariant := by
  have hgrow : ∀ f : Flow α, f.GrowsTo (countInstances f (x.created outputs returnCode)) :=
    fun f => growsTo_countInstances f _
  have hids := updateFlow_ids s x.ev.flow hgrow
  obtain ⟨_, hflow, hid, _⟩ := execution_eq_some hx
  have hold : ∀ e ∈ s.live, ∀ b ∈ e.chain,
      CountedIn (s.finish index x outputs returnCode acquired).activeFlows b :=
    fun e he b hb => (h.counted e he b hb).mono fun f hf _ =>
      exists_growsTo_updateFlow x.ev.flow hgrow hf
  refine ⟨hids ▸ h.ids_nodup, fun f hf => mem_ids_lt h hids hf, ?_⟩
  intro e he b hb
  have he := (live_finish_perm hx outputs returnCode acquired).mem_iff.mp
    (List.mem_cons_of_mem _ he)
  rcases List.mem_append.mp he with he | he
  · have hfrom := createdFrom_successors he
    rcases List.mem_cons.mp hb with rfl | hb
    · refine ⟨countInstances x.flow (x.created outputs returnCode), ?_, ?_, ?_,
        countInstances_pos he⟩
      · exact List.mem_map.mpr ⟨x.flow, hflow, by simp [hid]⟩
      · simpa using hfrom.flow_eq.symm
      · simpa using hfrom.node_mem
    · exact hold x.ev (mem_live_of_execution hx) b (hfrom.predecessors_subset b hb)
  · exact hold e he b hb

/-- Handing an event back keeps the invariant. -/
theorem Invariant.handBack {s : RunTime α} (h : s.Invariant) {index : Nat}
    {ev : Event α} (hev : s.waiting[index]? = some ev) :
    (s.handBack index ev).Invariant :=
  ⟨h.ids_nodup, h.ids_lt, fun e he => h.counted e ((live_handBack_perm hev).mem_iff.mp he)⟩

/-- Every step keeps the invariant. -/
theorem Invariant.step {s t : RunTime α} {a : Action α} (h : s.Invariant)
    (hstep : Step s a t) : t.Invariant := by
  cases hstep with
  | loadFlow _ hid => exact h.loadFlow hid _
  | start _ hflows => exact h.start hflows _
  | pop hqueue => exact h.pop hqueue
  | finish hx => exact h.finish hx _ _ _
  | handBack hev => exact h.handBack hev

theorem invariant_of_reachable {s : RunTime α} (h : (system α).Reachable s) :
    s.Invariant :=
  h.invariant (fun _ hinit => hinit ▸ invariant_initial) fun _ _ _ hs hstep => hs.step hstep

/-- The completion of an execution finds the flow and the node of its event. -/
theorem exists_execution_of_reachable {s : RunTime α} (h : (system α).Reachable s)
    {index : Nat} {ev : Event α} (hev : s.executing[index]? = some ev) :
    ∃ x, s.execution index = some x ∧ x.ev = ev := by
  have hmem : ev ∈ s.live := by
    have hexec : ev ∈ s.executing := List.mem_of_getElem? hev
    simp [live, hexec]
  obtain ⟨f, hf, hid, hname, _⟩ := (invariant_of_reachable h).counted ev hmem
    ev.toEventBase (by simp [Event.chain])
  have hnodup := (invariant_of_reachable h).ids_nodup
  have hfind : s.activeFlows.find? (fun g => g.id = ev.flow) = some f := by
    obtain ⟨g, hg⟩ : ∃ g, s.activeFlows.find? (fun g => g.id = ev.flow) = some g :=
      Option.isSome_iff_exists.mp (List.find?_isSome.mpr ⟨f, hf, by simpa using hid⟩)
    have hgid : g.id = ev.flow := by simpa using List.find?_some hg
    have heq : g = f :=
      List.inj_on_of_nodup_map hnodup (List.mem_of_find?_eq_some hg) hf (hgid.trans hid.symm)
    exact heq ▸ hg
  obtain ⟨fn, hfn⟩ := Flow.exists_get hname
  exact ⟨⟨ev, f, fn⟩, by simp [execution, hev, hfind, hfn], rfl⟩

end RunTime

end Runtime
end OFlux
