import OFlux.Runtime.RunTime

/-!
# Reloading flows

When a flow is reloaded the older active flows have to stop: their sources are
turned off, and a flow is deleted once none of its events is left.  The clean-up
loop of the classic {lit}`load_flow` looks only at the oldest flow and goes on
only past flows that it deletes, whereas the lock-free one turns off the flow
that was newest.

Main results:

- Theorem {lit}`olderSourcesOff_loadFlow_iff`: one reload turns off everything
  but the new flow exactly when the loop reaches the flow that was newest, or
  that flow had no sources.
- Theorem {lit}`load_flow_retires_iff`: over a whole run.
- Theorem {lit}`olderSourcesOff_loadActiveFlow`: the lock-free sibling always
  turns off what it should.
-/

namespace OFlux
namespace Runtime

open Library

variable {α : Type}

/-! ## One pass of the clean-up loop -/

/-- The flow has no sources left, and no node with the source property. -/
def Flow.SourcesOff (f : Flow α) : Prop :=
  f.sources = [] ∧ ∀ n ∈ f.nodes, n.isSource = false

/-- The sources of a flow are off when it has none. -/
theorem Flow.sourcesOff_iff {f : Flow α} : f.SourcesOff ↔ f.sources = [] :=
  ⟨And.left, fun h => ⟨h, fun _ hn => Flow.isSource_eq_false_of_sources_eq_nil h hn⟩⟩

/-- The loop passes over older flows without instances. -/
theorem retireFlows_append_of_no_instances {older : List (Flow α)} (newest : Flow α)
    (h : ∀ f ∈ older, f.hasInstances = false) :
    retireFlows (older ++ [newest]) = retireFlows [newest] := by
  induction older with
  | nil => rfl
  | cons back rest ih =>
      have hback := h back List.mem_cons_self
      have hrest := ih fun f hf => h f (List.mem_cons_of_mem _ hf)
      rw [List.cons_append, retireFlows, hback]
      simpa using hrest

/-- The loop never reaches the newest flow when an older one has instances. -/
theorem retireFlows_append_of_instances {older : List (Flow α)} (newest : Flow α)
    (h : ∃ f ∈ older, f.hasInstances = true) :
    retireFlows (older ++ [newest]) = retireFlows older ++ [newest] := by
  induction older with
  | nil => simp at h
  | cons back rest ih =>
      rw [List.cons_append, retireFlows, retireFlows]
      split
      · rfl
      · rename_i hback
        obtain ⟨f, hf, hinst⟩ := h
        rcases List.mem_cons.mp hf with rfl | hf
        · exact absurd hinst hback
        · exact ih ⟨f, hf, hinst⟩

/-- Flows without sources stay without. -/
theorem sources_of_mem_retireFlows {flows : List (Flow α)}
    (h : ∀ f ∈ flows, f.sources = []) {f : Flow α} (hf : f ∈ retireFlows flows) :
    f.sources = [] := by
  induction flows with
  | nil => simp [retireFlows] at hf
  | cons back rest ih =>
      have hback := h back List.mem_cons_self
      have hrest : ∀ f ∈ rest, f.sources = [] := fun f hf => h f (List.mem_cons_of_mem _ hf)
      unfold retireFlows at hf
      split at hf
      · rcases List.mem_cons.mp hf with rfl | hf
        · simp [hback]
        · exact hrest f hf
      · exact ih hrest hf

/-- A loop that starts at the newest flow turns it off, if it does not delete it. -/
theorem sources_of_mem_retireFlows_singleton {newest f : Flow α}
    (hf : f ∈ retireFlows [newest]) : f.sources = [] := by
  unfold retireFlows at hf
  split at hf
  · rw [List.mem_singleton.mp hf]
    split
    · rfl
    · rename_i hlen
      exact List.length_eq_zero_iff.mp (by omega)
  · simp [retireFlows] at hf

namespace RunTime

/-! ## Reloads over a run -/

/-- Every active flow but the newest is turned off. -/
def OlderSourcesOff (s : RunTime α) : Prop :=
  ∀ f ∈ s.activeFlows.tail, f.SourcesOff

/-- No event is left of a flow that the step deletes. -/
def DeletesOnlyFinished (s : RunTime α) (_ : Action α) (t : RunTime α) : Prop :=
  ∀ f ∈ s.activeFlows, f.id ∉ t.activeFlows.map Flow.id →
    ∀ e ∈ t.live, ∀ b ∈ e.chain, b.flow ≠ f.id

/-- A reload finds the newest flow without sources, or the older ones without instances. -/
def ReloadFindsQuietFlows (s : RunTime α) : Action α → RunTime α → Prop
  | .loadFlow _ _, _ =>
      ∀ newest older, s.activeFlows = newest :: older →
        newest.sources = [] ∨ ∀ f ∈ older, f.hasInstances = false
  | _, _ => True

/-- One reload, from a state in which the older flows are turned off. -/
theorem olderSourcesOff_loadFlow_iff {s : RunTime α} (hs : s.OlderSourcesOff)
    (flow : Flow α) (acquired : Nat → Bool) :
    (s.loadFlow flow acquired).OlderSourcesOff ↔
      ∀ newest older, s.activeFlows = newest :: older →
        newest.sources = [] ∨ ∀ f ∈ older, f.hasInstances = false := by
  simp only [OlderSourcesOff, Flow.sourcesOff_iff, RunTime.loadFlow, List.tail_cons,
    List.mem_reverse] at hs ⊢
  cases hflows : s.activeFlows with
  | nil => simp [retireFlows]
  | cons newest older =>
      simp only [hflows, List.tail_cons] at hs
      have holder : ∀ f ∈ older.reverse, f.sources = [] := fun f hf =>
        hs f (List.mem_reverse.mp hf)
      rw [List.reverse_cons]
      by_cases hinst : ∃ f ∈ older, f.hasInstances = true
      · have hreverse : ∃ f ∈ older.reverse, f.hasInstances = true := by
          simpa using hinst
        rw [retireFlows_append_of_instances newest hreverse]
        constructor
        · intro h newest' older' heq
          obtain ⟨rfl, rfl⟩ := List.cons.inj heq
          exact Or.inl (h newest (by simp))
        · intro h f hf
          rcases List.mem_append.mp hf with hf | hf
          · exact sources_of_mem_retireFlows holder hf
          · obtain ⟨g, hg, hgi⟩ := hinst
            have hcond := h newest older rfl
            rcases hcond with hnewest | hnone
            · exact List.mem_singleton.mp hf ▸ hnewest
            · exact absurd hgi (by simp [hnone g hg])
      · have hnone : ∀ f ∈ older, f.hasInstances = false := by
          intro f hf
          by_contra hf'
          exact hinst ⟨f, hf, by simpa using hf'⟩
        rw [retireFlows_append_of_no_instances newest fun f hf =>
          hnone f (List.mem_reverse.mp hf)]
        constructor
        · intro _ newest' older' heq
          obtain ⟨rfl, rfl⟩ := List.cons.inj heq
          exact Or.inr hnone
        · intro _ f hf
          exact sources_of_mem_retireFlows_singleton hf

/-- Updates that keep the sources of each flow keep the older flows turned off. -/
theorem olderSourcesOff_updateFlow {s t : RunTime α} {id : Nat} {g : Flow α → Flow α}
    (hg : ∀ f : Flow α, (g f).sources = f.sources)
    (ht : t.activeFlows = s.updateFlow id g) (hs : s.OlderSourcesOff) :
    t.OlderSourcesOff := by
  simp only [OlderSourcesOff, Flow.sourcesOff_iff, ht, updateFlow] at hs ⊢
  intro f hf
  rw [← List.map_tail] at hf
  obtain ⟨f', hf', rfl⟩ := List.mem_map.mp hf
  split
  · rw [hg]
    exact hs f' hf'
  · exact hs f' hf'

/-- One step keeps the older flows turned off exactly when, if it is a reload,
it finds them quiet. -/
theorem olderSourcesOff_step_iff {s t : RunTime α} {a : Action α}
    (hs : s.OlderSourcesOff) (hstep : Step s a t) :
    t.OlderSourcesOff ↔ ReloadFindsQuietFlows s a t := by
  cases hstep with
  | loadFlow _ _ => exact olderSourcesOff_loadFlow_iff hs _ _
  | @start flow older _ _ hflows =>
      have htail : s.activeFlows.tail = older := by rw [hflows, List.tail_cons]
      simp only [OlderSourcesOff, htail] at hs
      exact iff_of_true hs trivial
  | pop _ =>
      refine iff_of_true (olderSourcesOff_updateFlow ?_ rfl hs) trivial
      exact fun _ => rfl
  | finish _ =>
      refine iff_of_true (olderSourcesOff_updateFlow ?_ rfl hs) trivial
      exact fun f => countInstances_sources f _
  | handBack _ => exact iff_of_true hs trivial

/-- A flow is deleted only after the last of its events. -/
theorem deletesOnlyFinished_step {s t : RunTime α} {a : Action α} (hs : s.Invariant)
    (hstep : Step s a t) : DeletesOnlyFinished s a t := by
  intro f _ hdeleted e he b hb heq
  obtain ⟨g, hg, hid, _⟩ := (hs.step hstep).counted e he b hb
  exact hdeleted (List.mem_map.mpr ⟨g, hg, hid.trans heq⟩)

/--
In a run of any length, after every step all flows but the newest are turned off
exactly when each reload found the newest flow without sources or the older ones
without instances; and no flow is ever deleted before its last event.
-/
theorem load_flow_retires_iff {path : List (Action α × RunTime α)}
    (h : (system α).Run initial path) :
    (TransitionSystem.StatesMeet OlderSourcesOff path ↔
      TransitionSystem.StepsMeet ReloadFindsQuietFlows initial path) ∧
    TransitionSystem.StepsMeet DeletesOnlyFinished initial path := by
  have hinvariant : ∀ s a t, Invariant s → (system α).step s a t → Invariant t :=
    fun _ _ _ hs hstep => Invariant.step hs hstep
  have hinitial : (initial : RunTime α).OlderSourcesOff := by
    simp [OlderSourcesOff, initial]
  constructor
  · exact h.statesMeet_iff_stepsMeet hinvariant
      (fun _ _ _ _ hs hstep => olderSourcesOff_step_iff hs hstep) invariant_initial hinitial
  · exact h.stepsMeet hinvariant (fun _ _ _ hs hstep => deletesOnlyFinished_step hs hstep)
      invariant_initial

/-! ## Two reloads of a flow with a source -/

/-- A source that leads back to itself. -/
def loopingSource : Node Unit where
  name := "S"
  isSource := true
  successorList := SuccessorList.empty.add
    { name := "erste"
      cases := [{ targetNode := some "S"
                  ioConverter := IOConverter.standardConverter
                  conditions := [] }] }
  errorHandlerCase := Case.null

/-- The flow of one looping source. -/
def loopingFlow (id : Nat) : Flow Unit where
  id := id
  nodes := [loopingSource]
  sources := ["S"]
  instances := fun _ => 0
  executions := fun _ => 0
  names_nodup := by simp
  sources_eq := by simp [loopingSource]
  targets_resolved := by
    simp [Node.TargetsIn, loopingSource, Case.null, SuccessorList.add,
      SuccessorList.insertEntry, SuccessorList.empty]

/-- The flow of the example is fresh. -/
theorem loopingFlow_fresh (id : Nat) : (loopingFlow id).Fresh := by
  simp [Flow.Fresh, loopingFlow]

/-- Load a flow, start, and reload twice. -/
def reloadStates : List (Action Unit × RunTime Unit) :=
  let loaded := (initial : RunTime Unit).loadFlow (loopingFlow 0) fun _ => true
  let started := loaded.start (loopingFlow 0) [] fun _ => true
  let reloaded := started.loadFlow (loopingFlow 1) fun _ => true
  [(.loadFlow (loopingFlow 0) fun _ => true, loaded),
    (.start fun _ => true, started),
    (.loadFlow (loopingFlow 1) fun _ => true, reloaded),
    (.loadFlow (loopingFlow 2) fun _ => true,
      reloaded.loadFlow (loopingFlow 2) fun _ => true)]

theorem run_reloadStates : (system Unit).Run initial reloadStates := by
  refine .cons (.loadFlow (loopingFlow_fresh 0) rfl) ?_
  refine .cons (.start rfl rfl) ?_
  refine .cons (.loadFlow (loopingFlow_fresh 1) rfl) ?_
  refine .cons (.loadFlow (loopingFlow_fresh 2) rfl) ?_
  exact .nil _

/-- The second reload leaves the source of the middle flow on. -/
theorem not_olderSourcesOff_reloadStates :
    ¬ ∀ path : List (Action Unit × RunTime Unit), (system Unit).Run initial path →
      TransitionSystem.StatesMeet OlderSourcesOff path := by
  intro h
  have hlast := h reloadStates run_reloadStates (_, _) (List.mem_of_getLast? rfl)
  have hmiddle := (hlast _ (List.mem_of_head? rfl)).1
  exact absurd hmiddle (by decide)

theorem load_flow_retires_iff_reloadStates :
    (TransitionSystem.StatesMeet OlderSourcesOff reloadStates ↔
      TransitionSystem.StepsMeet ReloadFindsQuietFlows initial reloadStates) ∧
    TransitionSystem.StepsMeet DeletesOnlyFinished initial reloadStates :=
  load_flow_retires_iff run_reloadStates

end RunTime

/-! ## The lock-free sibling -/

/-- {lit}`load_flow` of the lock-free run time on its chain of active flows. -/
def loadActiveFlow (flow : Flow α) : List (Flow α) → List (Flow α)
  | [] => [flow]
  | next :: rest =>
      flow :: (if 0 < next.sources.length then next.turnOffSources else next) :: rest

/-- It turns off the flow that was newest, whatever instances the others have. -/
theorem olderSourcesOff_loadActiveFlow (flow : Flow α) {flows : List (Flow α)}
    (h : ∀ f ∈ flows.tail, f.SourcesOff) :
    ∀ f ∈ (loadActiveFlow flow flows).tail, f.SourcesOff := by
  cases flows with
  | nil => simp [loadActiveFlow]
  | cons next rest =>
      intro f hf
      rcases List.mem_cons.mp hf with rfl | hf
      · split
        · exact Flow.sourcesOff_iff.mpr rfl
        · rename_i hlen
          exact Flow.sourcesOff_iff.mpr (List.length_eq_zero_iff.mp (by omega))
      · exact h f hf

end Runtime
end OFlux
