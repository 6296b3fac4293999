import OFlux.Runtime.RunTime

/-!
# Melding of detached nodes

The melding run time executes a chain of detached events in one loop: when an execution
selects a single successor that is detached and has no guards, the loop creates its event
on its own and executes it next.  The classic run time creates the event in one of two
functions, without error or with one, and queues it.

Main results:

- Theorem {lit}`classicNext_eq`: what the classic run time executes next on a chain.
- Theorem {lit}`melding_transparent_iff`: the loop performs the executions of the classic
  run time exactly when no execution that fails is melded, certain sources aside.
-/

namespace OFlux
namespace Runtime

variable {α : Type}

/-! ## The loop -/

/-- What melding asks of a node. -/
structure NodeProperties where
  guards : Nat
  isDetached : Bool

/-- What the code of the nodes does: the return code and the outputs of each execution of
a chain, which may depend on anything. -/
abbrev NodeCode (α : Type) := Nat → Event α → Int × Outputs α

/-- A position on a chain: the execution at hand, and how many came before. -/
structure OnChain (α : Type) extends RunTime.Execution α where
  count : Nat := 0

namespace OnChain

variable (props : String → NodeProperties) (code : NodeCode α)

/-- What the execution returns. -/
def returnCode (s : OnChain α) : Int := (code s.count s.ev).1

/-- What the execution puts out. -/
def outputs (s : OnChain α) : Outputs α := (code s.count s.ev).2

/-- The case and the node to meld with: the only successor, when it is detached and
without guards. -/
def meldingCase (s : OnChain α) : Option (Case α × Node α) :=
  if (s.outputs code).splayed ≠ [] then none
  else
    match s.fn.getSuccessors (s.outputs code).first (s.returnCode code) with
    | [flowcase] => (flowcase.targetNode.bind s.flow.get).bind fun fn =>
        if (props fn.name).guards = 0 ∧ (props fn.name).isDetached = true ∧
            (props s.fn.name).guards = 0 then some (flowcase, fn)
        else none
    | _ => none

/-- The event after its execution, which drops the predecessor unless it failed. -/
def executed (s : OnChain α) : Event α :=
  if s.returnCode code ≠ 0 then s.ev else s.ev.release

/-- The event that the loop creates. -/
def createMelded (s : OnChain α) (flowcase : Case α) (fn : Node α) : Event α :=
  { (if fn.isSource then create [] none s.flow fn
     else create (s.executed code).chain
       (flowcase.ioConverter.convert (some (s.outputs code).first)) s.flow fn) with
    errorCode := s.returnCode code }

/-- What the loop of {lit}`melding::RunTimeThread::execute_detached` executes next. -/
def meldedNext (s : OnChain α) : Option (OnChain α) :=
  (s.meldingCase props code).map fun (flowcase, fn) => {
    ev := s.createMelded code flowcase fn
    flow := s.flow
    fn := fn
    count := s.count + 1 }

/-- The events that {lit}`handle` creates from the execution. -/
def created (s : OnChain α) : List (Event α) :=
  s.toExecution.created (s.outputs code) (s.returnCode code)

/-- What the classic run time executes next on the same chain. -/
def classicNext (s : OnChain α) : Option (OnChain α) :=
  match s.meldingCase props code, s.created code with
  | some (_, fn), [ev] => some { ev := ev, flow := s.flow, fn := fn, count := s.count + 1 }
  | _, _ => none

/-- What can be seen of a chain within some number of executions: the events executed,
and at its end the events that {lit}`handle` creates. -/
def observe (next : OnChain α → Option (OnChain α)) :
    Nat → OnChain α → List (Event α) × Option (List (Event α))
  | 0, _ => ([], none)
  | n + 1, s =>
      match next s with
      | some t => (s.ev :: (observe next n t).1, (observe next n t).2)
      | none => ([s.ev], some (s.created code))

/-- The position after some number of executions, when the chain is that long. -/
def after (next : OnChain α → Option (OnChain α)) : Nat → OnChain α → Option (OnChain α)
  | 0, s => some s
  | n + 1, s => (next s).bind (after next n)

/-- Melding performs the executions of the classic run time. -/
def Transparent (s : OnChain α) : Prop :=
  ∀ n, observe code (meldedNext props code) n s = observe code (classicNext props code) n s

/-- An execution that is melded with the next one does not fail; when it does, the
successor is a source, and the node is a source too or its event has neither a predecessor
nor an input to hand on. -/
def SucceedsWhenMelded (s : OnChain α) : Prop :=
  ∀ flowcase fn, s.meldingCase props code = some (flowcase, fn) → s.returnCode code ≠ 0 →
    fn.isSource = true ∧ (s.fn.isSource = true ∨
      s.ev.predecessors = [] ∧ flowcase.ioConverter.convert s.ev.input = none)

/-! ## The next execution -/

variable {props code} {s t : OnChain α} {flowcase : Case α} {fn : Node α}

/-- All that a melding case says. -/
theorem meldingCase_eq_some (h : s.meldingCase props code = some (flowcase, fn)) :
    (s.outputs code).splayed = [] ∧
      s.fn.getSuccessors (s.outputs code).first (s.returnCode code) = [flowcase] ∧
      flowcase.targetNode.bind s.flow.get = some fn := by
  unfold meldingCase at h
  split at h
  · cases h
  next hsingle =>
    split at h
    next flowcase' hcases =>
      obtain ⟨fn', htarget, hfn⟩ := Option.bind_eq_some_iff.mp h
      split at hfn
      · cases hfn
        exact ⟨not_not.mp hsingle, hcases, htarget⟩
      · cases hfn
    · cases h

/-- The event that the classic run time creates for a melding case. -/
def createClassic (code : NodeCode α) (s : OnChain α) (flowcase : Case α) (fn : Node α) :
    Event α :=
  if s.returnCode code ≠ 0 then
    createOnError s.flow s.fn s.ev (s.returnCode code) flowcase fn
  else createSuccessor s.flow s.ev.release (s.outputs code).first flowcase fn

/-- On a chain the classic run time creates one event. -/
theorem created_eq_singleton (h : s.meldingCase props code = some (flowcase, fn)) :
    s.created code = [createClassic code s flowcase fn] := by
  obtain ⟨hsingle, hcases, htarget⟩ := meldingCase_eq_some h
  rw [created, RunTime.Execution.created, successors, createClassic]
  split
  · rw [successorsOnError, hcases, List.filterMap_cons, htarget]
    rfl
  next hzero =>
    rw [not_not] at hzero
    rw [hzero] at hcases
    simp [successorsOnNoError, Outputs.walk, hsingle, createForOutputs, hcases, createSuccessors,
      htarget]

theorem classicNext_eq : s.classicNext props code = (s.meldingCase props code).map
    fun (flowcase, fn) => {
      ev := createClassic code s flowcase fn
      flow := s.flow
      fn := fn
      count := s.count + 1 } := by
  cases h : s.meldingCase props code with
  | none => simp [classicNext, h]
  | some p => simp [classicNext, h, created_eq_singleton h]

/-- Without an error both create the same event. -/
theorem createMelded_eq_createClassic (h : s.returnCode code = 0) :
    s.createMelded code flowcase fn = createClassic code s flowcase fn := by
  simp only [createMelded, createClassic, executed, h, ne_eq, not_true_eq_false, if_false,
    createSuccessor]
  split <;> rfl

/-- After an error the two events differ in the predecessor and the input, unless neither
of them has any. -/
theorem createMelded_eq_iff_of_error (h : s.returnCode code ≠ 0) :
    s.createMelded code flowcase fn = createClassic code s flowcase fn ↔
      fn.isSource = true ∧ (s.fn.isSource = true ∨
        s.ev.predecessors = [] ∧ flowcase.ioConverter.convert s.ev.input = none) := by
  simp only [createMelded, createClassic, executed, ne_eq, h, not_false_eq_true, if_true,
    createOnError]
  cases hfn : fn.isSource with
  | true =>
      cases hsource : s.fn.isSource with
      | true => simp
      | false =>
          simp only [if_true, Bool.false_eq_true, if_false, create, Event.mk.injEq,
            EventBase.mk.injEq, and_true, true_and, false_or]
          constructor
          · rintro ⟨hinput, hpred⟩
            exact ⟨hpred.symm, hinput.symm⟩
          · rintro ⟨hpred, hinput⟩
            exact ⟨hinput.symm, hpred.symm⟩
  | false =>
      refine ⟨fun heq => ?_, fun hno => absurd hno.1 (by simp)⟩
      have hpred := congrArg (fun e => e.predecessors.length) heq
      cases hsource : s.fn.isSource <;>
        simp [hsource, create, Event.chain] at hpred

/-- Both go on alike exactly when the node succeeds. -/
theorem next_eq_iff (props : String → NodeProperties) (code : NodeCode α) (s : OnChain α) :
    s.meldedNext props code = s.classicNext props code ↔ s.SucceedsWhenMelded props code := by
  rw [classicNext_eq, meldedNext, SucceedsWhenMelded]
  cases hcase : s.meldingCase props code with
  | none => simp
  | some p =>
      obtain ⟨flowcase, fn⟩ := p
      simp only [Option.map_some, Option.some.injEq, mk.injEq, RunTime.Execution.mk.injEq, and_true]
      by_cases hzero : s.returnCode code = 0
      · simp [createMelded_eq_createClassic hzero, hzero]
      · rw [createMelded_eq_iff_of_error hzero]
        constructor
        · intro hok flowcase' fn' heq _
          cases heq
          exact hok
        · intro hall
          exact hall flowcase fn rfl hzero

/-! ## Whole chains -/

/-- Steps that agree are observed alike. -/
theorem observe_succ_eq_iff (h : s.meldedNext props code = s.classicNext props code) (n : Nat) :
    observe code (meldedNext props code) (n + 1) s =
        observe code (classicNext props code) (n + 1) s ↔
      ∀ t, s.classicNext props code = some t → observe code (meldedNext props code) n t =
        observe code (classicNext props code) n t := by
  simp only [observe, h]
  cases s.classicNext props code with
  | none => simp
  | some t =>
      simp only [Prod.mk.injEq, List.cons.injEq, true_and, Option.some.injEq, forall_eq']
      exact Prod.ext_iff.symm

/-- The first event observed. -/
theorem observe_one (next : OnChain α → Option (OnChain α)) (s : OnChain α) :
    (observe code next 1 s).1 = [s.ev] := by
  simp only [observe]
  cases next s <;> rfl

/-- Two executions show whether the next events agree. -/
theorem next_eq_of_observe (h : observe code (meldedNext props code) 2 s =
    observe code (classicNext props code) 2 s) :
    s.meldedNext props code = s.classicNext props code := by
  cases hcase : s.meldingCase props code with
  | none => simp [meldedNext, classicNext_eq, hcase]
  | some p =>
      obtain ⟨flowcase, fn⟩ := p
      have hmelded : s.meldedNext props code = some {
          ev := s.createMelded code flowcase fn
          flow := s.flow
          fn := fn
          count := s.count + 1 } := by
        rw [meldedNext, hcase, Option.map_some]
      have hclassic : s.classicNext props code = some {
          ev := createClassic code s flowcase fn
          flow := s.flow
          fn := fn
          count := s.count + 1 } := by
        rw [classicNext_eq, hcase, Option.map_some]
      rw [observe, observe, hmelded, hclassic] at h
      have hevents := congrArg Prod.fst h
      simp only [observe_one, List.cons.injEq, true_and, and_true] at hevents
      rw [hmelded, hclassic, hevents]

/-- Transparency says something of the execution at hand, and passes to the next one. -/
theorem Transparent.next (h : Transparent props code s) :
    s.SucceedsWhenMelded props code ∧
      ∀ t, s.classicNext props code = some t → Transparent props code t := by
  have hnext := next_eq_of_observe (h 2)
  constructor
  · exact (next_eq_iff props code s).mp hnext
  · intro t ht n
    exact (observe_succ_eq_iff hnext n).mp (h (n + 1)) t ht

end OnChain

open OnChain

variable {props : String → NodeProperties} {code : NodeCode α}

/-- Melding is transparent exactly when no execution of the chain that is melded with the
next one fails, certain sources aside. -/
theorem melding_transparent_iff (props : String → NodeProperties) (code : NodeCode α)
    (s : OnChain α) :
    Transparent props code s ↔
      ∀ n t, after (classicNext props code) n s = some t → t.SucceedsWhenMelded props code := by
  constructor
  · intro h n
    induction n generalizing s with
    | zero =>
        intro t ht
        cases ht
        exact h.next.1
    | succ n ih =>
        intro t ht
        obtain ⟨u, hu, hrest⟩ := Option.bind_eq_some_iff.mp ht
        exact ih u (h.next.2 u hu) t hrest
  · intro h n
    induction n generalizing s with
    | zero => rfl
    | succ n ih =>
        have hnext := (next_eq_iff props code s).mpr (h 0 s rfl)
        refine (observe_succ_eq_iff hnext n).mpr fun t ht => ih t fun m u hu => ?_
        exact h (m + 1) u (Option.bind_eq_some_iff.mpr ⟨t, ht, hu⟩)

/-! ## A melded error handler -/

/-- A source that feeds a detached node, whose detached error handler takes its input. -/
def handlerFlow : Flow Nat where
  id := 0
  nodes := [
    { name := "Accept"
      isSource := true
      successorList := SuccessorList.empty.add { name := "0", cases := [{ Case.null with
        targetNode := some "Charge" }] }
      errorHandlerCase := Case.null },
    { name := "Charge"
      isSource := false
      successorList := SuccessorList.empty
      errorHandlerCase := { Case.null with targetNode := some "Refund" } },
    { name := "Refund"
      isSource := false
      successorList := SuccessorList.empty
      errorHandlerCase := Case.null }]
  sources := ["Accept"]
  instances := fun _ => 0
  executions := fun _ => 0
  names_nodup := by simp
  sources_eq := by simp
  targets_resolved := by
    simp [Node.TargetsIn, SuccessorList.empty, SuccessorList.add, SuccessorList.insertEntry,
      Case.null]

/-- The event of the source. -/
def acceptEvent : EventBase Nat where
  flow := 0
  flowNode := "Accept"
  input := none
  errorCode := 0

/-- The detached node is about to run on input 1. -/
def chargeOnChain : OnChain Nat where
  ev := {
    flow := 0
    flowNode := "Charge"
    input := some 1
    errorCode := 0
    predecessors := [acceptEvent] }
  flow := handlerFlow
  fn := {
    name := "Charge"
    isSource := false
    successorList := SuccessorList.empty
    errorHandlerCase := { Case.null with targetNode := some "Refund" } }

/-- The first execution fails after it wrote the output 5, the later ones succeed. -/
def chargeFails : NodeCode Nat := fun n _ =>
  if n = 0 then (1, ⟨5, []⟩) else (0, ⟨0, []⟩)

/-- The handler is melded with the output of the node that failed, and not its input. -/
theorem not_transparent_chargeOnChain :
    ¬ ∀ (props : String → NodeProperties) (code : NodeCode Nat) (s : OnChain Nat),
      s.flow.get s.ev.flowNode = some s.fn → (props s.fn.name).guards = 0 →
      (props s.fn.name).isDetached = true →
      (∀ n ev, (code n ev).2.splayed = []) → Transparent props code s := by
  intro h
  have hsingle : ∀ n ev, (chargeFails n ev).2.splayed = [] := by
    intro n ev
    unfold chargeFails
    split <;> rfl
  have hobserve := h (fun _ => ⟨0, true⟩) chargeFails chargeOnChain rfl rfl rfl hsingle 2
  have hinputs := congrArg (fun seen => seen.1.map fun ev => ev.input) hobserve
  exact absurd hinputs (by decide)

end Runtime
end OFlux
