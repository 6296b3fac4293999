import OFlux.Library.Placement
import OFlux.Library.TransitionSystem
import Mathlib.Algebra.BigOperators.Fin
import Mathlib.Tactic.Zify

/-!
# The threads of the lock-free run time

Each thread runs {lit}`RunTimeThread::start`: it pops from its own deque or steals
from another one, executes the event that it got, pushes the successors, and
goes to sleep or leaves when it found nothing for a while.  The steps of the
threads interleave freely; a pop, a steal, a push, a reload and every update of
the sleep count and of a sleep flag is one step.

An event is a number, given out in the order of creation.  Which events an
execution creates, which of them wait for a guard and which waiting ones it hands
back is open; so is when a sleeping thread wakes.

Main results:

- Theorem {lit}`pushOrder_perm`: every successor is pushed exactly once, whatever
  the queue allowance.
- Theorem {lit}`Invariant.step`: what one step keeps.
- Theorem {lit}`stops_only_when_nothing_is_left`: runnable events are in one
  place each, counted sleepers have empty deques, and the exit is taken only
  when no event is left.
- Theorem {lit}`leads_emptyHanded`: a thread that finds no event counts its iterations, up to
  where it may sleep or leave.
-/

namespace OFlux
namespace Lockfree

open Library

/-! ## Categories of successors -/

/-- What the categorization of a successor event reads. -/
structure Traits where
  executionGap : Int
  isSource : Bool
  atomics : Nat

/-- A successor event of an execution. -/
structure SuccessorEvent where
  event : Nat
  traits : Traits

/-- The queues of a thread, by what their events wait for. -/
inductive Category where
  | highGuards
  | lowGuards
  | source
  | noGuards
  | execGapped
deriving DecidableEq

/-- The category of a successor, with the constants of the thread context. -/
def categorize (traits : Traits) : Category :=
  if traits.executionGap > 100 then .execGapped
  else if traits.isSource then .source
  else if traits.atomics ≥ 3 then .highGuards
  else if traits.atomics ≥ 1 then .lowGuards
  else .noGuards

/-- The successors of one category, in their order. -/
def successorsCategorized (successors : List SuccessorEvent) (category : Category) :
    List Nat :=
  (successors.filter fun s => categorize s.traits = category).map SuccessorEvent.event

/-- The order in which {lit}`handle` pushes the successors: a critical queue, a hot
one and a cold one are served differently. -/
def pushOrder (queueAllowance : Int) (successors : List SuccessorEvent) : List Nat :=
  (if queueAllowance < 0 then
    successorsCategorized successors .source ++
      successorsCategorized successors .noGuards ++
      successorsCategorized successors .lowGuards
  else if queueAllowance < 32 - 8 then
    successorsCategorized successors .noGuards ++
      successorsCategorized successors .source ++
      successorsCategorized successors .lowGuards
  else
    successorsCategorized successors .noGuards ++
      successorsCategorized successors .source ++
      successorsCategorized successors .lowGuards) ++
    successorsCategorized successors .highGuards ++
    successorsCategorized successors .execGapped

/-- The allowance after an execution; it is renewed from the size of the queue. -/
def updateAllowance (queueAllowance : Int) (size : Nat) : Int :=
  if queueAllowance ≤ 0 then 32 - size else queueAllowance - 1

theorem successorsCategorized_cons (s : SuccessorEvent) (rest : List SuccessorEvent)
    (category : Category) :
    successorsCategorized (s :: rest) category =
      if categorize s.traits = category then s.event :: successorsCategorized rest category
      else successorsCategorized rest category := by
  unfold successorsCategorized
  by_cases h : categorize s.traits = category <;> simp [h]

/-- The three orders push the same events. -/
theorem count_pushOrder (queueAllowance : Int) (successors : List SuccessorEvent) (e : Nat) :
    (pushOrder queueAllowance successors).count e =
      (successorsCategorized successors .noGuards).count e +
      (successorsCategorized successors .source).count e +
      (successorsCategorized successors .lowGuards).count e +
      (successorsCategorized successors .highGuards).count e +
      (successorsCategorized successors .execGapped).count e := by
  unfold pushOrder
  by_cases hcritical : queueAllowance < 0
  · simp only [hcritical, if_true, List.count_append]
    omega
  · by_cases hhot : queueAllowance < 32 - 8 <;>
      simp only [hcritical, hhot, if_true, if_false, List.count_append]

/-- Every successor is pushed exactly once. -/
theorem pushOrder_perm (queueAllowance : Int) (successors : List SuccessorEvent) :
    (pushOrder queueAllowance successors).Perm (successors.map SuccessorEvent.event) := by
  rw [List.perm_iff_count]
  intro e
  rw [count_pushOrder]
  induction successors with
  | nil => rfl
  | cons s rest ih =>
      simp only [successorsCategorized_cons, List.map_cons, List.count_cons]
      cases categorize s.traits <;>
        simp only [reduceCtorEq, if_true, if_false, List.count_cons] <;> omega

/-! ## State -/

/-- Where a thread stands in its loop. -/
inductive Pc (n : Nat) where
  | loopHead
  | reload
  | pop
  | steal (victims : List (Fin n))
  | execute
  | push
  | setAsleep
  | incrSleepers
  | sleeping
  | woken
  | checkExit
  | clearAsleep
  | exiting
  | exited
deriving DecidableEq

/-- A thread counts as a sleeper from {lit}`incr_sleepers` to {lit}`decr_sleepers`. -/
def Pc.counted {n : Nat} : Pc n → Bool
  | .sleeping => true
  | .woken => true
  | _ => false

/-- Where nothing is known of a thread but its context and its allowance. -/
def Pc.plain {n : Nat} : Pc n → Bool
  | .loopHead => true
  | .reload => true
  | .pop => true
  | .clearAsleep => true
  | .exiting => true
  | .exited => true
  | _ => false

/-- A thread; its deque is listed from the top, where thieves take events. -/
structure Thread (n : Nat) where
  pc : Pc n
  queue : List Nat
  context : List Nat
  noEvIterations : Nat
  queueAllowance : Int
  asleep : Bool

/-- The run time with its threads.  Events that wait for a guard and events that
were executed are kept to account for them. -/
structure RunTime (n : Nat) where
  threads : Fin n → Thread n
  sleepCount : Int
  softLoadFlow : Bool
  requestDeath : Bool
  waiting : List Nat
  executed : List Nat
  created : Nat

/-- The numbers of the next events. -/
def nextEvents (created count : Nat) : List Nat :=
  (List.range count).map (created + ·)

/-- The successors that an execution created. -/
def newSuccessors (created : Nat) (traits : List Traits) : List SuccessorEvent :=
  traits.zipIdx.map fun p => { event := created + p.2, traits := p.1 }

/-- The victims of a steal sweep: the other threads, from a random one on. -/
def victims {n : Nat} (self : Fin n) (start : Nat) : List (Fin n) :=
  ((List.finRange n).filter fun i : Fin n => start ≤ i.val ∧ i ≠ self) ++
    ((List.finRange n).filter fun i : Fin n => i.val < start ∧ i ≠ self)

/-! ## Steps -/

/-- What a thread does next; {lit}`requestReload` comes from outside. -/
inductive Action (n : Nat) where
  | requestReload
  | leave (i : Fin n)
  | catchReload (i : Fin n)
  | noReload (i : Fin n)
  | loadFlow (i : Fin n)
  | skipPop (i : Fin n)
  | pop (i : Fin n)
  | popEmpty (i : Fin n)
  | steal (i : Fin n)
  | stealFails (i : Fin n)
  | stealNone (i : Fin n)
  | submit (i : Fin n)
  | finish (i : Fin n)
  | push (i : Fin n)
  | pushed (i : Fin n)
  | setAsleep (i : Fin n)
  | sleep (i : Fin n)
  | stayAwake (i : Fin n)
  | wake (i : Fin n)
  | decrSleepers (i : Fin n)
  | exit (i : Fin n)
  | goOn (i : Fin n)
  | clearAsleep (i : Fin n)
  | softKill (i : Fin n)

namespace RunTime

variable {n : Nat}

/-- Writes thread `i`. -/
def setThread (s : RunTime n) (i : Fin n) (t : Thread n) : RunTime n :=
  { s with threads := Function.update s.threads i t }

/-- One step of one thread. -/
inductive Step (s : RunTime n) : Action n → RunTime n → Prop where
  | requestReload : Step s .requestReload { s with softLoadFlow := true }
  | leave {i : Fin n} :
      (s.threads i).pc = .loopHead → s.requestDeath = true →
      Step s (.leave i) (s.setThread i { s.threads i with pc := .exited })
  | catchReload {i : Fin n} :
      (s.threads i).pc = .loopHead → s.requestDeath = false → s.softLoadFlow = true →
      Step s (.catchReload i)
        { s.setThread i { s.threads i with pc := .reload } with softLoadFlow := false }
  | noReload {i : Fin n} :
      (s.threads i).pc = .loopHead → s.requestDeath = false → s.softLoadFlow = false →
      Step s (.noReload i) (s.setThread i { s.threads i with pc := .pop })
  | loadFlow {i : Fin n} {pushed refused : Nat} :
      (s.threads i).pc = .reload →
      Step s (.loadFlow i)
        { s.setThread i
            { s.threads i with
              pc := .pop
              queue := (s.threads i).queue ++ nextEvents s.created pushed } with
          waiting := s.waiting ++ nextEvents (s.created + pushed) refused
          created := s.created + pushed + refused }
  | skipPop {i : Fin n} {start : Nat} :
      (s.threads i).pc = .pop → (s.threads i).queueAllowance.tmod 100 = 0 →
      Step s (.skipPop i)
        (s.setThread i
          { s.threads i with
            pc := .steal (victims i start)
            queueAllowance := (s.threads i).queueAllowance - 1 })
  | pop {i : Fin n} {e : Nat} {rest : List Nat} :
      (s.threads i).pc = .pop → (s.threads i).queueAllowance.tmod 100 ≠ 0 →
      (s.threads i).queue = rest ++ [e] →
      Step s (.pop i)
        (s.setThread i
          { s.threads i with pc := .execute, queue := rest, context := [e], noEvIterations := 0 })
  | popEmpty {i : Fin n} {start : Nat} :
      (s.threads i).pc = .pop → (s.threads i).queueAllowance.tmod 100 ≠ 0 →
      (s.threads i).queue = [] →
      Step s (.popEmpty i) (s.setThread i { s.threads i with pc := .steal (victims i start) })
  | steal {i v : Fin n} {vs : List (Fin n)} {e : Nat} {rest : List Nat} :
      (s.threads i).pc = .steal (v :: vs) → (s.threads v).queue = e :: rest →
      Step s (.steal i)
        ((s.setThread v { s.threads v with queue := rest }).setThread i
          { s.threads i with pc := .execute, context := [e], noEvIterations := 0 })
  | stealFails {i v : Fin n} {vs : List (Fin n)} :
      (s.threads i).pc = .steal (v :: vs) →
      Step s (.stealFails i) (s.setThread i { s.threads i with pc := .steal vs })
  | stealNone {i : Fin n} :
      (s.threads i).pc = .steal [] →
      Step s (.stealNone i)
        (s.setThread i
          { s.threads i with
            pc := .setAsleep
            noEvIterations := (s.threads i).noEvIterations + 1 })
  | submit {i : Fin n} {handed rest : List Nat} :
      (s.threads i).pc = .execute → s.waiting.Perm (handed ++ rest) →
      Step s (.submit i)
        { s.setThread i { s.threads i with queue := (s.threads i).queue ++ handed } with
          waiting := rest }
  | finish {i : Fin n} {e : Nat} {traits : List Traits} {refused : Nat}
      {handed : List SuccessorEvent} {rest : List Nat} :
      (s.threads i).pc = .execute → (s.threads i).context = [e] →
      s.waiting.Perm (handed.map SuccessorEvent.event ++ rest) →
      Step s (.finish i)
        { s.setThread i
            { s.threads i with
              pc := .push
              context :=
                pushOrder (updateAllowance (s.threads i).queueAllowance (s.threads i).queue.length)
                  (newSuccessors s.created traits ++ handed)
              queueAllowance :=
                updateAllowance (s.threads i).queueAllowance (s.threads i).queue.length } with
          waiting := rest ++ nextEvents (s.created + traits.length) refused
          executed := s.executed ++ [e]
          created := s.created + traits.length + refused }
  | push {i : Fin n} {e : Nat} {rest : List Nat} :
      (s.threads i).pc = .push → (s.threads i).context = e :: rest →
      Step s (.push i)
        (s.setThread i
          { s.threads i with queue := (s.threads i).queue ++ [e], context := rest })
  | pushed {i : Fin n} :
      (s.threads i).pc = .push → (s.threads i).context = [] →
      Step s (.pushed i) (s.setThread i { s.threads i with pc := .setAsleep })
  | setAsleep {i : Fin n} :
      (s.threads i).pc = .setAsleep →
      Step s (.setAsleep i)
        (s.setThread i { s.threads i with pc := .incrSleepers, asleep := true })
  | sleep {i : Fin n} :
      (s.threads i).pc = .incrSleepers → (s.threads i).noEvIterations > 100 →
      s.sleepCount + 1 < n →
      Step s (.sleep i)
        { s.setThread i { s.threads i with pc := .sleeping } with
          sleepCount := s.sleepCount + 1 }
  | stayAwake {i : Fin n} :
      (s.threads i).pc = .incrSleepers →
      ¬ ((s.threads i).noEvIterations > 100 ∧ s.sleepCount + 1 < n) →
      Step s (.stayAwake i) (s.setThread i { s.threads i with pc := .checkExit })
  | wake {i : Fin n} :
      (s.threads i).pc = .sleeping →
      Step s (.wake i) (s.setThread i { s.threads i with pc := .woken, asleep := false })
  | decrSleepers {i : Fin n} :
      (s.threads i).pc = .woken →
      Step s (.decrSleepers i)
        { s.setThread i { s.threads i with pc := .clearAsleep, noEvIterations := 0 } with
          sleepCount := s.sleepCount - 1 }
  | exit {i : Fin n} :
      (s.threads i).pc = .checkExit → (s.threads i).noEvIterations > 100 * 2 →
      s.sleepCount + 1 = n →
      Step s (.exit i) (s.setThread i { s.threads i with pc := .exiting, asleep := false })
  | goOn {i : Fin n} :
      (s.threads i).pc = .checkExit →
      ¬ ((s.threads i).noEvIterations > 100 * 2 ∧ s.sleepCount + 1 = n) →
      Step s (.goOn i) (s.setThread i { s.threads i with pc := .clearAsleep })
  | clearAsleep {i : Fin n} :
      (s.threads i).pc = .clearAsleep →
      Step s (.clearAsleep i)
        (s.setThread i { s.threads i with pc := .loopHead, asleep := false })
  | softKill {i : Fin n} :
      (s.threads i).pc = .exiting →
      Step s (.softKill i)
        { s.setThread i { s.threads i with pc := .exited } with requestDeath := true }

/-- A thread before its first iteration. -/
def idleThread (queue : List Nat) : Thread n where
  pc := .loopHead
  queue := queue
  context := []
  noEvIterations := 0
  queueAllowance := 0
  asleep := false

/-- {lit}`start` puts the first events into the deque of thread 0. -/
def initial (n pushed refused : Nat) : RunTime (n + 1) where
  threads := fun i => idleThread (if i = 0 then nextEvents 0 pushed else [])
  sleepCount := 0
  softLoadFlow := false
  requestDeath := false
  waiting := nextEvents pushed refused
  executed := []
  created := pushed + refused

/-- The threads of the lock-free run time as a transition system. -/
def system (n : Nat) : TransitionSystem (RunTime (n + 1)) (Action (n + 1)) where
  init s := ∃ pushed refused, s = initial n pushed refused
  step := Step

/-! ## One thread -/

/-- What holds of a thread on its own.  After an iteration without an event the
allowance is no multiple of 100, so that the next iteration does pop; hence a
thread that found nothing twice in a row has an empty deque. -/
structure ThreadOk (i : Fin n) (t : Thread n) : Prop where
  context_nil : t.pc ≠ .execute → t.pc ≠ .push → t.context = []
  allowance : 1 ≤ t.noEvIterations → t.queueAllowance.tmod 100 ≠ 0
  stealing : ∀ vs, t.pc = .steal vs →
    i ∉ vs ∧ t.queueAllowance.tmod 100 ≠ 0 ∧ (1 ≤ t.noEvIterations → t.queue = [])
  working : t.pc = .execute ∨ t.pc = .push → t.noEvIterations = 0
  idle : t.pc = .setAsleep ∨ t.pc = .incrSleepers ∨ t.pc = .checkExit →
    2 ≤ t.noEvIterations → t.queue = []
  asleep : t.pc.counted = true → t.queue = []

/-- A thread does not steal from itself. -/
theorem not_mem_victims (self : Fin n) (start : Nat) : self ∉ victims self start := by
  simp [victims]

/-- One unit below a multiple of 100 there is none. -/
theorem tmod_sub_one_ne_zero {a : Int} (h : a.tmod 100 = 0) : (a - 1).tmod 100 ≠ 0 := by
  rw [ne_eq, ← Int.dvd_iff_tmod_eq_zero] at *
  omega

/-- A thread between two events is in order. -/
theorem threadOk_of_plain {i : Fin n} {t : Thread n} (hpc : t.pc.plain = true)
    (hcontext : t.context = [])
    (hallowance : 1 ≤ t.noEvIterations → t.queueAllowance.tmod 100 ≠ 0) :
    ThreadOk i t := by
  refine ⟨fun _ _ => hcontext, hallowance, fun vs h => ?_, fun h => ?_, fun h => ?_, fun h => ?_⟩
  · simp [h, Pc.plain] at hpc
  · rcases h with h | h <;> simp [h, Pc.plain] at hpc
  · rcases h with h | h | h <;> simp [h, Pc.plain] at hpc
  · cases hcase : t.pc <;> simp [hcase, Pc.plain, Pc.counted] at hpc h

/-- A robbed thread is as good as before. -/
theorem ThreadOk.robbed {i : Fin n} {t : Thread n} (h : ThreadOk i t) {e : Nat}
    {rest : List Nat} (hqueue : t.queue = e :: rest) :
    ThreadOk i { t with queue := rest } := by
  obtain ⟨hcontext, hallowance, hstealing, hworking, hidle, hasleep⟩ := h
  simp only [hqueue, reduceCtorEq] at hstealing hidle hasleep
  refine ⟨hcontext, hallowance, fun vs hpc => ?_, hworking, fun hpc hno => ?_, fun hpc => ?_⟩
  · obtain ⟨hself, hmod, hempty⟩ := hstealing vs hpc
    exact ⟨hself, hmod, fun hno => (hempty hno).elim⟩
  · exact (hidle hpc hno).elim
  · exact (hasleep hpc).elim

/-! ## Sleepers and places -/

/-- The number of threads that count as sleepers. -/
def sleepers (s : RunTime n) : Nat :=
  ∑ i, if (s.threads i).pc.counted then 1 else 0

/-- The places of an event: a deque, a context, a waiter list, or the past. -/
abbrev Place (n : Nat) := Fin n ⊕ Fin n ⊕ Unit ⊕ Unit

/-- What each place holds. -/
def contents (s : RunTime n) : Place n → Multiset Nat
  | .inl i => (s.threads i).queue
  | .inr (.inl i) => (s.threads i).context
  | .inr (.inr (.inl _)) => s.waiting
  | .inr (.inr (.inr _)) => s.executed

/-- An event that is ready to run or running. -/
def Runnable (s : RunTime n) (e : Nat) : Prop :=
  ∃ i, e ∈ (s.threads i).queue ∨ e ∈ (s.threads i).context

/-- All events are in a queue, in a thread, waiting or executed. -/
theorem total_contents (s : RunTime n) :
    Placement.total s.contents =
      (∑ i, ((s.threads i).queue : Multiset Nat)) +
        ((∑ i, ((s.threads i).context : Multiset Nat)) + (s.waiting + s.executed)) := by
  simp only [Placement.total, Fintype.sum_sum_type, contents, Finset.univ_unique,
    Finset.sum_singleton]

/-- What holds of the run time in every state. -/
structure Invariant (s : RunTime n) : Prop where
  threads_ok : ∀ i, ThreadOk i (s.threads i)
  sleepCount_eq : s.sleepCount = s.sleepers
  placed : Placement.total s.contents = (List.range s.created : Multiset Nat)

/-- The events created so far, with the next ones. -/
theorem range_add_nextEvents (created count : Nat) :
    (List.range (created + count) : Multiset Nat) =
      List.range created + nextEvents created count := by
  rw [Multiset.coe_add, nextEvents, ← List.range_add]

/-- New successors have the next numbers. -/
theorem map_event_newSuccessors (created : Nat) (traits : List Traits) :
    (newSuccessors created traits).map SuccessorEvent.event =
      nextEvents created traits.length := by
  have hsnd : traits.zipIdx.map Prod.snd = List.range traits.length := by
    rw [List.zipIdx_map_snd, List.range_eq_range']
  rw [newSuccessors, nextEvents, ← hsnd, List.map_map, List.map_map]
  rfl

/-- A step of one thread: its new state is fine, the sleep count follows it, and
no event gets lost or doubled. -/
theorem Invariant.update {s s' : RunTime n} (h : s.Invariant) {i : Fin n} {t : Thread n}
    (hthreads : s'.threads = Function.update s.threads i t) (hok : ThreadOk i t)
    (hcount : s'.sleepCount + (if (s.threads i).pc.counted then 1 else 0) =
      s.sleepCount + (if t.pc.counted then 1 else 0))
    (hplaced : ∀ e, t.queue.count e + t.context.count e + s'.waiting.count e +
        s'.executed.count e + (List.range s.created).count e =
      (s.threads i).queue.count e + (s.threads i).context.count e + s.waiting.count e +
        s.executed.count e + (List.range s'.created).count e) : s'.Invariant where
  threads_ok := by
    intro j
    rw [hthreads]
    by_cases hj : j = i
    · subst hj
      simpa using hok
    · simpa [hj] using h.threads_ok j
  sleepCount_eq := by
    have hsum := Placement.sum_update_add s.threads i t
      fun t : Thread n => if t.pc.counted then 1 else 0
    have hold := h.sleepCount_eq
    unfold sleepers at hold ⊢
    rw [hthreads]
    zify at hsum
    push_cast at hold ⊢
    omega
  placed := by
    refine Multiset.ext.mpr fun e => ?_
    have hqueue := congrArg (Multiset.count e)
      (Placement.sum_update_add s.threads i t fun t : Thread n => (t.queue : Multiset Nat))
    have hcontext := congrArg (Multiset.count e)
      (Placement.sum_update_add s.threads i t fun t : Thread n => (t.context : Multiset Nat))
    have hold := congrArg (Multiset.count e) h.placed
    have hmoved := hplaced e
    rw [total_contents] at hold ⊢
    rw [hthreads]
    simp only [Multiset.count_add, Multiset.coe_count] at *
    omega

/-- A step that changes neither events nor the sleep count. -/
theorem Invariant.setThread {s : RunTime n} (h : s.Invariant) {i : Fin n} {t : Thread n}
    (hok : ThreadOk i t) (hcounted : t.pc.counted = (s.threads i).pc.counted)
    (hqueue : t.queue = (s.threads i).queue) (hcontext : t.context = (s.threads i).context) :
    (s.setThread i t).Invariant :=
  h.update rfl hok (by simp [RunTime.setThread, hcounted])
    (by simp [RunTime.setThread, hqueue, hcontext])

/-- A thread moves on to a place about which nothing is known. -/
theorem Invariant.goto {s : RunTime n} (h : s.Invariant) {i : Fin n} {pc : Pc n}
    (hplain : pc.plain = true) (hexecute : (s.threads i).pc ≠ .execute)
    (hpush : (s.threads i).pc ≠ .push) (hcounted : (s.threads i).pc.counted = false)
    (asleep : Bool) :
    (s.setThread i { s.threads i with pc := pc, asleep := asleep }).Invariant := by
  have hold := h.threads_ok i
  refine h.setThread ?_ ?_ rfl rfl
  · exact threadOk_of_plain hplain (hold.context_nil hexecute hpush) hold.allowance
  · rw [hcounted]
    cases pc <;> simp [Pc.plain, Pc.counted] at hplain ⊢

/-- The flags for reload and death matter to no invariant. -/
theorem Invariant.of_eq {s s' : RunTime n} (h : s.Invariant) (hthreads : s'.threads = s.threads)
    (hsleep : s'.sleepCount = s.sleepCount) (hwaiting : s'.waiting = s.waiting)
    (hexecuted : s'.executed = s.executed) (hcreated : s'.created = s.created) :
    s'.Invariant where
  threads_ok := hthreads ▸ h.threads_ok
  sleepCount_eq := by
    simpa only [sleepers, hthreads, hsleep] using h.sleepCount_eq
  placed := by
    have hplaced := h.placed
    rw [total_contents] at hplaced ⊢
    rw [hthreads, hwaiting, hexecuted, hcreated]
    exact hplaced

/-- An event is among the old ones or the next ones. -/
theorem count_range_add (created count e : Nat) :
    (List.range (created + count)).count e =
      (List.range created).count e + (nextEvents created count).count e := by
  rw [List.range_add, List.count_append]
  rfl

/-! ## One step -/

/-- Loading a flow keeps the invariant. -/
theorem Invariant.loadFlow {s : RunTime n} (h : s.Invariant) {i : Fin n}
    (hpc : (s.threads i).pc = .reload) (pushed refused : Nat) :
    Invariant
      { s.setThread i
          { s.threads i with
            pc := .pop
            queue := (s.threads i).queue ++ nextEvents s.created pushed } with
        waiting := s.waiting ++ nextEvents (s.created + pushed) refused
        created := s.created + pushed + refused } := by
  have hold := h.threads_ok i
  have hcontext := hold.context_nil (by simp [hpc]) (by simp [hpc])
  refine h.update rfl (threadOk_of_plain rfl hcontext hold.allowance) ?_ fun e => ?_
  · simp [RunTime.setThread, hpc, Pc.counted]
  · simp only [RunTime.setThread, List.count_append, count_range_add]
    omega

/-- The stolen event leaves the victim's deque for the thief's context. -/
theorem Invariant.steal {s : RunTime n} (h : s.Invariant) {i v : Fin n}
    {vs : List (Fin n)} {e : Nat} {rest : List Nat}
    (hpc : (s.threads i).pc = .steal (v :: vs)) (hqueue : (s.threads v).queue = e :: rest) :
    Invariant
      ((s.setThread v { s.threads v with queue := rest }).setThread i
        { s.threads i with pc := .execute, context := [e], noEvIterations := 0 }) := by
  have hthief := h.threads_ok i
  have hne : v ≠ i := by
    rintro rfl
    exact (hthief.stealing _ hpc).1 List.mem_cons_self
  have hcontext := hthief.context_nil (by simp [hpc]) (by simp [hpc])
  -- between the two changes the event is accounted for among the waiting ones
  have hrobbed : Invariant
      { s.setThread v { s.threads v with queue := rest } with waiting := e :: s.waiting } := by
    refine h.update rfl ((h.threads_ok v).robbed hqueue) (by simp [RunTime.setThread]) ?_
    intro x
    simp only [RunTime.setThread, hqueue, List.count_cons]
    omega
  have hsame : Function.update s.threads v { s.threads v with queue := rest } i = s.threads i :=
    Function.update_of_ne hne.symm _ _
  refine hrobbed.update rfl ?_ ?_ fun x => ?_
  · exact ⟨by simp, by simp, by simp, by simp, by simp, by simp [Pc.counted]⟩
  · simp [RunTime.setThread, hsame, hpc, Pc.counted]
  · simp only [RunTime.setThread, hsame, hcontext, List.count_cons, List.count_nil]
    omega

/-- Submitting events handed back keeps the invariant. -/
theorem Invariant.submit {s : RunTime n} (h : s.Invariant) {i : Fin n}
    {handed rest : List Nat} (hpc : (s.threads i).pc = .execute)
    (hwaiting : s.waiting.Perm (handed ++ rest)) :
    Invariant
      { s.setThread i { s.threads i with queue := (s.threads i).queue ++ handed } with
        waiting := rest } := by
  have hold := h.threads_ok i
  refine h.update rfl ?_ ?_ fun e => ?_
  · exact ⟨fun hne => absurd hpc hne, hold.allowance, by simp [hpc], hold.working,
      by simp [hpc], by simp [hpc, Pc.counted]⟩
  · simp [RunTime.setThread]
  · simp only [RunTime.setThread, List.count_append, hwaiting.count_eq]
    omega

/-- Ending an execution keeps the invariant. -/
theorem Invariant.finish {s : RunTime n} (h : s.Invariant) {i : Fin n} {e : Nat}
    {traits : List Traits} (refused : Nat) {handed : List SuccessorEvent} {rest : List Nat}
    (hpc : (s.threads i).pc = .execute) (hcontext : (s.threads i).context = [e])
    (hwaiting : s.waiting.Perm (handed.map SuccessorEvent.event ++ rest))
    (allowance : Int) :
    Invariant
      { s.setThread i
          { s.threads i with
            pc := .push
            context := pushOrder allowance (newSuccessors s.created traits ++ handed)
            queueAllowance := allowance } with
        waiting := rest ++ nextEvents (s.created + traits.length) refused
        executed := s.executed ++ [e]
        created := s.created + traits.length + refused } := by
  have hbusy := (h.threads_ok i).working (Or.inl hpc)
  refine h.update rfl ?_ ?_ fun x => ?_
  · exact ⟨by simp, by simp [hbusy], by simp, by simp [hbusy], by simp, by simp [Pc.counted]⟩
  · simp [RunTime.setThread, hpc, Pc.counted]
  · have hpushed := (pushOrder_perm allowance
      (newSuccessors s.created traits ++ handed)).count_eq x
    rw [List.map_append, map_event_newSuccessors, List.count_append] at hpushed
    have hwait := hwaiting.count_eq x
    simp only [hcontext, hpushed, List.count_append, count_range_add] at hwait ⊢
    omega

/-- Every step keeps the invariant. -/
theorem Invariant.step {s s' : RunTime n} {a : Action n} (h : s.Invariant)
    (hstep : Step s a s') : s'.Invariant := by
  cases hstep with
  | requestReload => exact h.of_eq rfl rfl rfl rfl rfl
  | leave hpc _ =>
      exact h.goto rfl (by simp [hpc]) (by simp [hpc]) (by simp [hpc, Pc.counted]) _
  | @catchReload i hpc _ _ =>
      have hmoved : (s.setThread i { s.threads i with pc := .reload }).Invariant :=
        h.goto rfl (by simp [hpc]) (by simp [hpc]) (by simp [hpc, Pc.counted]) _
      exact hmoved.of_eq rfl rfl rfl rfl rfl
  | noReload hpc _ _ =>
      exact h.goto rfl (by simp [hpc]) (by simp [hpc]) (by simp [hpc, Pc.counted]) _
  | loadFlow hpc => exact h.loadFlow hpc _ _
  | @skipPop i start hpc hmod =>
      have hold := h.threads_ok i
      have hcontext := hold.context_nil (by simp [hpc]) (by simp [hpc])
      have hfirst : (s.threads i).noEvIterations = 0 := by
        by_contra hne
        exact hold.allowance (by omega) hmod
      have hnext := tmod_sub_one_ne_zero hmod
      refine h.setThread ?_ (by simp [hpc, Pc.counted]) rfl rfl
      refine ⟨fun _ _ => hcontext, fun _ => hnext, ?_, by simp, by simp, by simp [Pc.counted]⟩
      rintro vs ⟨⟩
      exact ⟨not_mem_victims i start, hnext, by simp [hfirst]⟩
  | @pop i e rest hpc _ hqueue =>
      have hcontext := (h.threads_ok i).context_nil (by simp [hpc]) (by simp [hpc])
      refine h.update rfl ?_ (by simp [RunTime.setThread, hpc, Pc.counted]) fun x => ?_
      · exact ⟨by simp, by simp, by simp, by simp, by simp, by simp [Pc.counted]⟩
      · simp only [RunTime.setThread, hqueue, hcontext, List.count_append, List.count_nil]
        omega
  | @popEmpty i start hpc hmod hqueue =>
      have hold := h.threads_ok i
      have hcontext := hold.context_nil (by simp [hpc]) (by simp [hpc])
      refine h.setThread ?_ (by simp [hpc, Pc.counted]) rfl rfl
      refine ⟨fun _ _ => hcontext, hold.allowance, ?_, by simp, by simp, by simp [Pc.counted]⟩
      rintro vs ⟨⟩
      exact ⟨not_mem_victims i start, hmod, fun _ => hqueue⟩
  | steal hpc hqueue => exact h.steal hpc hqueue
  | @stealFails i v vs hpc =>
      have hold := h.threads_ok i
      have hcontext := hold.context_nil (by simp [hpc]) (by simp [hpc])
      obtain ⟨hself, hrest⟩ := hold.stealing _ hpc
      refine h.setThread ?_ (by simp [hpc, Pc.counted]) rfl rfl
      refine ⟨fun _ _ => hcontext, hold.allowance, ?_, by simp, by simp, by simp [Pc.counted]⟩
      rintro vs' ⟨⟩
      exact ⟨fun hmem => hself (List.mem_cons_of_mem _ hmem), hrest⟩
  | @stealNone i hpc =>
      have hold := h.threads_ok i
      have hcontext := hold.context_nil (by simp [hpc]) (by simp [hpc])
      obtain ⟨_, hmod, hempty⟩ := hold.stealing _ hpc
      refine h.setThread ?_ (by simp [hpc, Pc.counted]) rfl rfl
      exact ⟨fun _ _ => hcontext, fun _ => hmod, by simp, by simp,
        fun _ htwo => hempty (by simpa using htwo), by simp [Pc.counted]⟩
  | submit hpc hwaiting => exact h.submit hpc hwaiting
  | finish hpc hcontext hwaiting => exact h.finish _ hpc hcontext hwaiting _
  | @push i e rest hpc hcontext =>
      have hold := h.threads_ok i
      have hbusy := hold.working (Or.inr hpc)
      refine h.update rfl ?_ (by simp [RunTime.setThread]) fun x => ?_
      · exact ⟨fun _ hne => absurd hpc hne, hold.allowance, by simp [hpc], by simp [hbusy],
          by simp [hpc], by simp [hpc, Pc.counted]⟩
      · simp only [RunTime.setThread, hcontext, List.count_append, List.count_cons,
          List.count_nil]
        omega
  | @pushed i hpc hcontext =>
      have hbusy := (h.threads_ok i).working (Or.inr hpc)
      refine h.setThread ?_ (by simp [hpc, Pc.counted]) rfl rfl
      exact ⟨fun _ _ => hcontext, by simp [hbusy], by simp, by simp, by simp [hbusy],
        by simp [Pc.counted]⟩
  | @setAsleep i hpc =>
      have hold := h.threads_ok i
      have hcontext := hold.context_nil (by simp [hpc]) (by simp [hpc])
      refine h.setThread ?_ (by simp [hpc, Pc.counted]) rfl rfl
      exact ⟨fun _ _ => hcontext, hold.allowance, by simp, by simp,
        fun _ => hold.idle (Or.inl hpc), by simp [Pc.counted]⟩
  | @sleep i hpc hno _ =>
      have hold := h.threads_ok i
      have hcontext := hold.context_nil (by simp [hpc]) (by simp [hpc])
      have hempty := hold.idle (Or.inr (Or.inl hpc)) (by omega)
      refine h.update rfl ?_ (by simp [hpc, Pc.counted]) ?_
      · exact ⟨fun _ _ => hcontext, hold.allowance, by simp, by simp, by simp, fun _ => hempty⟩
      · simp [RunTime.setThread]
  | @stayAwake i hpc _ =>
      have hold := h.threads_ok i
      have hcontext := hold.context_nil (by simp [hpc]) (by simp [hpc])
      refine h.setThread ?_ (by simp [hpc, Pc.counted]) rfl rfl
      exact ⟨fun _ _ => hcontext, hold.allowance, by simp, by simp,
        fun _ => hold.idle (Or.inr (Or.inl hpc)), by simp [Pc.counted]⟩
  | @wake i hpc =>
      have hold := h.threads_ok i
      have hcontext := hold.context_nil (by simp [hpc]) (by simp [hpc])
      have hempty := hold.asleep (by simp [hpc, Pc.counted])
      refine h.setThread ?_ (by simp [hpc, Pc.counted]) rfl rfl
      exact ⟨fun _ _ => hcontext, hold.allowance, by simp, by simp, by simp, fun _ => hempty⟩
  | @decrSleepers i hpc =>
      have hcontext := (h.threads_ok i).context_nil (by simp [hpc]) (by simp [hpc])
      refine h.update rfl (threadOk_of_plain rfl hcontext (by simp)) ?_ ?_
      · simp [hpc, Pc.counted]
      · simp [RunTime.setThread]
  | exit hpc _ _ =>
      exact h.goto rfl (by simp [hpc]) (by simp [hpc]) (by simp [hpc, Pc.counted]) _
  | goOn hpc _ =>
      exact h.goto rfl (by simp [hpc]) (by simp [hpc]) (by simp [hpc, Pc.counted]) _
  | clearAsleep hpc =>
      exact h.goto rfl (by simp [hpc]) (by simp [hpc]) (by simp [hpc, Pc.counted]) _
  | @softKill i hpc =>
      have hmoved : (s.setThread i { s.threads i with pc := .exited }).Invariant :=
        h.goto rfl (by simp [hpc]) (by simp [hpc]) (by simp [hpc, Pc.counted]) _
      exact hmoved.of_eq rfl rfl rfl rfl rfl

/-! ## Whole runs -/

theorem invariant_initial (n pushed refused : Nat) : (initial n pushed refused).Invariant where
  threads_ok i := threadOk_of_plain rfl rfl (by simp [initial, idleThread])
  sleepCount_eq := by simp [initial, sleepers, idleThread, Pc.counted]
  placed := by
    have hqueues : ∑ i : Fin (n + 1), (((initial n pushed refused).threads i).queue : Multiset Nat) =
        nextEvents 0 pushed := by
      rw [Fin.sum_univ_succ]
      simp [initial, idleThread]
    have hcontexts :
        ∑ i : Fin (n + 1), (((initial n pushed refused).threads i).context : Multiset Nat) = 0 := by
      simp [initial, idleThread]
    rw [total_contents, hqueues, hcontexts]
    have hfirst := range_add_nextEvents 0 pushed
    have hboth := range_add_nextEvents pushed refused
    simp only [List.range_zero, Multiset.coe_nil, zero_add] at hfirst
    simp [initial, hboth, hfirst]

theorem invariant_of_reachable {n : Nat} {s : RunTime (n + 1)} (h : (system n).Reachable s) :
    s.Invariant := by
  have hkeep : ∀ s a t, Invariant s → (system n).step s a t → Invariant t :=
    fun _ _ _ hs hstep => Invariant.step hs hstep
  refine h.invariant (fun s hs => ?_) hkeep
  obtain ⟨pushed, refused, rfl⟩ := hs
  exact invariant_initial n pushed refused

/-- Every event is in exactly one place, and in no place twice. -/
theorem Invariant.existsUnique_place {s : RunTime n} (h : s.Invariant) {e : Nat}
    (he : e < s.created) : ∃! p, e ∈ s.contents p := by
  refine Placement.existsUnique_place ?_ ?_
  · rw [h.placed]
    exact Multiset.coe_nodup.mpr List.nodup_range
  · rw [h.placed]
    simpa using he

/-- An event is at a place once. -/
theorem Invariant.nodup_place {s : RunTime n} (h : s.Invariant) (p : Place n) :
    (s.contents p).Nodup := by
  refine Placement.nodup_of_total ?_ p
  rw [h.placed]
  exact Multiset.coe_nodup.mpr List.nodup_range

/-- An event anywhere was created. -/
theorem Invariant.lt_created {s : RunTime n} (h : s.Invariant) {e : Nat} {p : Place n}
    (he : e ∈ s.contents p) : e < s.created := by
  have hmem := Placement.mem_total.mpr ⟨p, he⟩
  rw [h.placed] at hmem
  simpa using hmem

/-- An event can run from a queue or in a thread. -/
theorem runnable_iff {s : RunTime n} {e : Nat} :
    s.Runnable e ↔ ∃ i, e ∈ s.contents (.inl i) ∨ e ∈ s.contents (.inr (.inl i)) :=
  Iff.rfl

/-- What a step does to the waiting and the executed events. -/
theorem Step.waiting_executed {s s' : RunTime n} {a : Action n} (hstep : Step s a s') :
    (∀ e ∈ s'.waiting, e ∈ s.waiting ∨ s.created ≤ e) ∧ s.executed <+: s'.executed ∧
      s.created ≤ s'.created := by
  cases hstep with
  | loadFlow _ =>
      refine ⟨fun e he => ?_, List.prefix_refl _, by simp only; omega⟩
      rcases List.mem_append.mp he with he | he
      · exact Or.inl he
      · obtain ⟨k, _, rfl⟩ := List.mem_map.mp he
        exact Or.inr (by omega)
  | submit _ hwaiting =>
      refine ⟨fun e he => Or.inl ?_, List.prefix_refl _, le_rfl⟩
      exact hwaiting.mem_iff.mpr (List.mem_append_right _ he)
  | finish _ _ hwaiting =>
      refine ⟨fun e he => ?_, List.prefix_append _ _, by simp only; omega⟩
      rcases List.mem_append.mp he with he | he
      · exact Or.inl (hwaiting.mem_iff.mpr (List.mem_append_right _ he))
      · obtain ⟨k, _, rfl⟩ := List.mem_map.mp he
        exact Or.inr (by omega)
  | _ => exact ⟨fun e he => Or.inl he, List.prefix_refl _, le_rfl⟩

/-- A runnable event stays runnable until it is executed. -/
theorem Invariant.runnable_step {s s' : RunTime n} {a : Action n} (h : s.Invariant)
    (hstep : Step s a s') {e : Nat} (he : s.Runnable e) : s'.Runnable e ∨ e ∈ s'.executed := by
  obtain ⟨hwaiting, _, hcreated⟩ := hstep.waiting_executed
  have hnodup : (Placement.total s.contents).Nodup := by
    rw [h.placed]
    exact Multiset.coe_nodup.mpr List.nodup_range
  obtain ⟨i, hi⟩ := runnable_iff.mp he
  have hlt : e < s.created := by
    rcases hi with hi | hi
    · exact h.lt_created hi
    · exact h.lt_created hi
  have hnot : e ∉ s.waiting := by
    intro hmem
    have hmem : e ∈ s.contents (.inr (.inr (.inl ()))) := hmem
    rcases hi with hi | hi
    · exact absurd (Placement.place_unique hnodup hi hmem) (by simp)
    · exact absurd (Placement.place_unique hnodup hi hmem) (by simp)
  obtain ⟨p, hp, _⟩ := (h.step hstep).existsUnique_place (hlt.trans_le hcreated)
  match p, hp with
  | .inl j, hp => exact Or.inl ⟨j, Or.inl hp⟩
  | .inr (.inl j), hp => exact Or.inl ⟨j, Or.inr hp⟩
  | .inr (.inr (.inl _)), hp =>
      rcases hwaiting e hp with hold | hnew
      · exact absurd hold hnot
      · omega
  | .inr (.inr (.inr _)), hp => exact Or.inr hp

/-- When all threads but one count as sleepers, the others do. -/
theorem Invariant.counted_of_exit {s : RunTime n} (h : s.Invariant) {i : Fin n}
    (hpc : (s.threads i).pc.counted = false) (hall : s.sleepCount + 1 = n) {j : Fin n}
    (hj : j ≠ i) : (s.threads j).pc.counted = true := by
  have hcard : (Finset.univ.filter fun k => (s.threads k).pc.counted = true).card =
      (Finset.univ.erase i).card := by
    have hcount := h.sleepCount_eq
    rw [sleepers, ← Finset.card_filter] at hcount
    rw [Finset.card_erase_of_mem (Finset.mem_univ i), Finset.card_univ, Fintype.card_fin]
    omega
  have hsubset : (Finset.univ.filter fun k => (s.threads k).pc.counted = true) ⊆
      Finset.univ.erase i := by
    intro k hk
    refine Finset.mem_erase.mpr ⟨?_, Finset.mem_univ k⟩
    rintro rfl
    simp [hpc] at hk
  have heq := Finset.eq_of_subset_of_card_le hsubset hcard.ge
  have hmem : j ∈ Finset.univ.erase i := Finset.mem_erase.mpr ⟨hj, Finset.mem_univ j⟩
  rw [← heq] at hmem
  exact (Finset.mem_filter.mp hmem).2

/-- The exit is taken only when no deque and no context holds an event. -/
theorem Invariant.nothing_left {s s' : RunTime n} (h : s.Invariant) {i : Fin n}
    (hstep : Step s (.exit i) s') (j : Fin n) :
    (s.threads j).queue = [] ∧ (s.threads j).context = [] := by
  cases hstep with
  | exit hpc hno hall =>
      by_cases hj : j = i
      · subst hj
        have hok := h.threads_ok j
        exact ⟨hok.idle (Or.inr (Or.inr hpc)) (by omega),
          hok.context_nil (by simp [hpc]) (by simp [hpc])⟩
      · have hok := h.threads_ok j
        have hcounted := h.counted_of_exit (by simp [hpc, Pc.counted]) hall hj
        refine ⟨hok.asleep hcounted, hok.context_nil ?_ ?_⟩
        · intro hexecute
          simp [hexecute, Pc.counted] at hcounted
        · intro hpush
          simp [hpush, Pc.counted] at hcounted

/--
In every reachable state of any number of threads, every event is in exactly one
place and in none twice, so that it is executed at most once; a runnable event
stays runnable until it is executed, and executed events stay so; a thread that
counts as sleeping has an empty deque; and a thread takes the exit only when every
deque and every context is empty.
-/
theorem stops_only_when_nothing_is_left {n : Nat} {s : RunTime (n + 1)}
    (h : (system n).Reachable s) :
    (∀ e < s.created, ∃! p, e ∈ s.contents p) ∧
    (∀ p, (s.contents p).Nodup) ∧
    (∀ a s', Step s a s' →
      (∀ e, s.Runnable e → s'.Runnable e ∨ e ∈ s'.executed) ∧ s.executed <+: s'.executed) ∧
    (∀ i, (s.threads i).pc.counted = true → (s.threads i).queue = []) ∧
    (∀ i s', Step s (.exit i) s' →
      ∀ j, (s.threads j).queue = [] ∧ (s.threads j).context = []) := by
  have hinvariant := invariant_of_reachable h
  refine ⟨fun e he => hinvariant.existsUnique_place he, hinvariant.nodup_place, ?_,
    fun i hi => (hinvariant.threads_ok i).asleep hi,
    fun i s' hstep j => hinvariant.nothing_left hstep j⟩
  intro a s' hstep
  exact ⟨fun e he => hinvariant.runnable_step hstep he, hstep.waiting_executed.2.1⟩

/-! ## Iterations without an event -/

@[simp]
theorem threads_setThread_self (s : RunTime n) (i : Fin n) (t : Thread n) :
    (s.setThread i t).threads i = t := by
  simp [setThread]

@[simp]
theorem setThread_setThread (s : RunTime n) (i : Fin n) (t t' : Thread n) :
    (s.setThread i t).setThread i t' = s.setThread i t' := by
  simp [setThread]

/-- A thread that has no event and found none in so many iterations. -/
def emptyHanded (noEvIterations : Nat) (queueAllowance : Int) (pc : Pc n) (asleep : Bool) :
    Thread n where
  pc := pc
  queue := []
  context := []
  noEvIterations := noEvIterations
  queueAllowance := queueAllowance
  asleep := asleep

section

variable {s : RunTime (n + 1)} {i : Fin (n + 1)} {k : Nat} {allowance : Int}

/-- A sweep over the victims that steals nothing. -/
theorem leads_incrSleepers (vs : List (Fin (n + 1))) :
    (system n).Leads (s.setThread i (emptyHanded k allowance (.steal vs) false))
      (s.setThread i (emptyHanded (k + 1) allowance .incrSleepers true)) := by
  induction vs with
  | nil =>
      have hnone : Step (s.setThread i (emptyHanded k allowance (.steal []) false)) (.stealNone i)
          (s.setThread i (emptyHanded (k + 1) allowance .setAsleep false)) := by
        simpa [emptyHanded] using
          Step.stealNone (s := s.setThread i (emptyHanded k allowance (.steal []) false))
            (i := i) (by simp [emptyHanded])
      have hasleep : Step (s.setThread i (emptyHanded (k + 1) allowance .setAsleep false))
          (.setAsleep i) (s.setThread i (emptyHanded (k + 1) allowance .incrSleepers true)) := by
        simpa [emptyHanded] using
          Step.setAsleep (s := s.setThread i (emptyHanded (k + 1) allowance .setAsleep false))
            (i := i) (by simp [emptyHanded])
      exact .head hnone (.head hasleep .refl)
  | cons v vs ih =>
      have hfails : Step (s.setThread i (emptyHanded k allowance (.steal (v :: vs)) false))
          (.stealFails i) (s.setThread i (emptyHanded k allowance (.steal vs) false)) := by
        simpa [emptyHanded] using
          @Step.stealFails _ (s.setThread i (emptyHanded k allowance (.steal (v :: vs)) false))
            i v vs (by simp [emptyHanded])
      exact .head hfails ih

/-- The end of an iteration of a thread that neither sleeps nor leaves. -/
theorem leads_loopHead (hstay : k ≤ 100 ∨ s.sleepCount = n ∧ k ≤ 100 * 2) :
    (system n).Leads (s.setThread i (emptyHanded k allowance .incrSleepers true))
      (s.setThread i (emptyHanded k allowance .loopHead false)) := by
  have hawake : Step (s.setThread i (emptyHanded k allowance .incrSleepers true)) (.stayAwake i)
      (s.setThread i (emptyHanded k allowance .checkExit true)) := by
    simpa [emptyHanded] using
      Step.stayAwake (s := s.setThread i (emptyHanded k allowance .incrSleepers true)) (i := i)
        (by simp [emptyHanded]) (by simp [emptyHanded, setThread]; omega)
  have hgo : Step (s.setThread i (emptyHanded k allowance .checkExit true)) (.goOn i)
      (s.setThread i (emptyHanded k allowance .clearAsleep true)) := by
    simpa [emptyHanded] using
      Step.goOn (s := s.setThread i (emptyHanded k allowance .checkExit true)) (i := i)
        (by simp [emptyHanded]) (by simp [emptyHanded, setThread]; omega)
  have hclear : Step (s.setThread i (emptyHanded k allowance .clearAsleep true)) (.clearAsleep i)
      (s.setThread i (emptyHanded k allowance .loopHead false)) := by
    simpa [emptyHanded] using
      Step.clearAsleep (s := s.setThread i (emptyHanded k allowance .clearAsleep true)) (i := i)
        (by simp [emptyHanded])
  exact .head hawake (.head hgo (.head hclear .refl))

variable (hdeath : s.requestDeath = false) (hreload : s.softLoadFlow = false)
  (hallowance : allowance.tmod 100 ≠ 0)
include hdeath hreload hallowance

/-- An iteration up to the sleep count. -/
theorem leads_incrSleepers_of_loopHead :
    (system n).Leads (s.setThread i (emptyHanded k allowance .loopHead false))
      (s.setThread i (emptyHanded (k + 1) allowance .incrSleepers true)) := by
  have hno : Step (s.setThread i (emptyHanded k allowance .loopHead false)) (.noReload i)
      (s.setThread i (emptyHanded k allowance .pop false)) := by
    simpa [emptyHanded] using
      Step.noReload (s := s.setThread i (emptyHanded k allowance .loopHead false)) (i := i)
        (by simp [emptyHanded]) hdeath hreload
  have hempty : Step (s.setThread i (emptyHanded k allowance .pop false)) (.popEmpty i)
      (s.setThread i (emptyHanded k allowance (.steal (victims i 0)) false)) := by
    simpa [emptyHanded] using
      @Step.popEmpty _ (s.setThread i (emptyHanded k allowance .pop false)) i 0
        (by simp [emptyHanded]) (by simpa [emptyHanded]) (by simp [emptyHanded])
  exact .head hno (.head hempty (leads_incrSleepers _))

/-- A thread that neither sleeps nor leaves counts its iterations. -/
theorem leads_emptyHanded (m : Nat)
    (hstay : k + m ≤ 100 ∨ s.sleepCount = n ∧ k + m ≤ 100 * 2) :
    (system n).Leads (s.setThread i (emptyHanded k allowance .loopHead false))
      (s.setThread i (emptyHanded (k + m) allowance .loopHead false)) := by
  induction m with
  | zero => exact .refl
  | succ m ih =>
      have hturn := (leads_incrSleepers_of_loopHead (i := i) (k := k + m) hdeath hreload
        hallowance).trans (leads_loopHead hstay)
      exact (ih (by omega)).trans hturn

end

/-- The second of two threads steals the only event. -/
def stealingRun : List (Action 2 × RunTime 2) :=
  let started := initial 1 1 0
  let awake := started.setThread 1 { started.threads 1 with pc := .pop }
  let skipped := awake.setThread 1
    { awake.threads 1 with pc := .steal (victims 1 0), queueAllowance := -1 }
  let robbed := skipped.setThread 0 { skipped.threads 0 with queue := [] }
  [(.noReload 1, awake), (.skipPop 1, skipped),
    (.steal 1, robbed.setThread 1
      { skipped.threads 1 with pc := .execute, context := [0], noEvIterations := 0 })]

theorem reachable_stealingRun :
    (system 1).Reachable (TransitionSystem.lastState (initial 1 1 0) stealingRun) := by
  have hrun : (system 1).Run (initial 1 1 0) stealingRun := by
    refine .cons (.noReload rfl rfl rfl) (.cons (.skipPop rfl rfl) ?_)
    exact .cons (.steal rfl rfl) (.nil _)
  exact hrun.reachable_lastState (.init ⟨1, 0, rfl⟩)

/-- Two threads without an event, after the execution of the only one. -/
def afterOneEvent : RunTime 2 :=
  { initial 1 0 0 with executed := [0], created := 1 }

/-- The thief executes the event, finds nothing 101 times and sleeps. -/
def asleepAfterOneEvent : RunTime 2 :=
  { afterOneEvent.setThread 1 (emptyHanded 101 32 .sleeping true) with sleepCount := 1 }

/-- States of two threads are compared thread by thread. -/
theorem reachable_of_threads {s t : RunTime 2} (hs : (system 1).Reachable s)
    (h0 : s.threads 0 = t.threads 0) (h1 : s.threads 1 = t.threads 1)
    (hrest : { s with threads := t.threads } = t) : (system 1).Reachable t := by
  have hthreads : s.threads = t.threads := funext (Fin.forall_fin_two.mpr ⟨h0, h1⟩)
  rwa [← hrest, ← hthreads]

/-- The thread that stole the event executes it and creates no other one. -/
theorem reachable_afterOneEvent :
    (system 1).Reachable (afterOneEvent.setThread 1 (emptyHanded 0 32 .push false)) := by
  have hfinish := reachable_stealingRun.step
    (@Step.finish _ (TransitionSystem.lastState (initial 1 1 0) stealingRun) 1 0 [] 0 [] []
      rfl rfl (List.Perm.refl []))
  exact reachable_of_threads hfinish rfl rfl rfl

theorem reachable_asleepAfterOneEvent : (system 1).Reachable asleepAfterOneEvent := by
  have hpushed : Step (afterOneEvent.setThread 1 (emptyHanded 0 32 .push false)) (.pushed 1)
      (afterOneEvent.setThread 1 (emptyHanded 0 32 .setAsleep false)) := by
    simpa [emptyHanded] using
      Step.pushed (s := afterOneEvent.setThread 1 (emptyHanded 0 32 .push false)) (i := 1)
        rfl rfl
  have hasleep : Step (afterOneEvent.setThread 1 (emptyHanded 0 32 .setAsleep false))
      (.setAsleep 1) (afterOneEvent.setThread 1 (emptyHanded 0 32 .incrSleepers true)) := by
    simpa [emptyHanded] using
      Step.setAsleep (s := afterOneEvent.setThread 1 (emptyHanded 0 32 .setAsleep false)) (i := 1)
        rfl
  have hsleep : Step (afterOneEvent.setThread 1 (emptyHanded 101 32 .incrSleepers true))
      (.sleep 1) asleepAfterOneEvent := by
    have hstep := Step.sleep (i := 1)
      (s := afterOneEvent.setThread 1 (emptyHanded 101 32 .incrSleepers true)) rfl
      (by decide) (by decide)
    rwa [setThread_setThread] at hstep
  have hturns := (@leads_emptyHanded _ afterOneEvent 1 0 32 rfl rfl (by decide) 100
    (by decide)).trans (leads_incrSleepers_of_loopHead rfl rfl (by decide))
  exact (((reachable_afterOneEvent.step hpushed).step hasleep).leads
    ((leads_loopHead (by decide)).trans hturns)).step hsleep

/-- The other thread finds nothing 201 times and comes to the exit. -/
theorem reachable_checkExit :
    (system 1).Reachable
      (asleepAfterOneEvent.setThread 0 (emptyHanded 201 (-1) .checkExit true)) := by
  have hno : Step asleepAfterOneEvent (.noReload 0)
      (asleepAfterOneEvent.setThread 0 (emptyHanded 0 0 .pop false)) :=
    Step.noReload rfl rfl rfl
  have hskip : Step (asleepAfterOneEvent.setThread 0 (emptyHanded 0 0 .pop false)) (.skipPop 0)
      (asleepAfterOneEvent.setThread 0 (emptyHanded 0 (-1) (.steal (victims 0 0)) false)) := by
    have hstep := @Step.skipPop _
      (asleepAfterOneEvent.setThread 0 (emptyHanded 0 0 .pop false)) 0 0 rfl rfl
    rwa [setThread_setThread] at hstep
  have hturns := (@leads_emptyHanded _ asleepAfterOneEvent 0 1 (-1) rfl rfl (by decide) 199
    (by decide)).trans
      (leads_incrSleepers_of_loopHead rfl rfl (by decide))
  have hawake : Step (asleepAfterOneEvent.setThread 0 (emptyHanded 201 (-1) .incrSleepers true))
      (.stayAwake 0) (asleepAfterOneEvent.setThread 0 (emptyHanded 201 (-1) .checkExit true)) := by
    have hstep := Step.stayAwake (i := 0)
      (s := asleepAfterOneEvent.setThread 0 (emptyHanded 201 (-1) .incrSleepers true)) rfl
      (by decide)
    rwa [setThread_setThread] at hstep
  exact (((reachable_asleepAfterOneEvent.step hno).step hskip).leads
    (((leads_incrSleepers _).trans (leads_loopHead (by decide))).trans hturns)).step hawake

/-- A thread steals the only event; after its execution it sleeps, and the other thread takes
the exit. -/
theorem stops_only_when_nothing_is_left_stealingRun :
    (let s := TransitionSystem.lastState (initial 1 1 0) stealingRun
     (∀ e < s.created, ∃! p, e ∈ s.contents p) ∧
     (∀ p, (s.contents p).Nodup) ∧
     (∀ a s', Step s a s' →
       (∀ e, s.Runnable e → s'.Runnable e ∨ e ∈ s'.executed) ∧ s.executed <+: s'.executed) ∧
     (∀ i, (s.threads i).pc.counted = true → (s.threads i).queue = []) ∧
     (∀ i s', Step s (.exit i) s' →
       ∀ j, (s.threads j).queue = [] ∧ (s.threads j).context = [])) ∧
    ∃ s s', (system 1).Reachable s ∧ Step s (.exit 0) s' ∧ s.created = 1 ∧
      (∃! p, 0 ∈ s.contents p) ∧
      (s.threads 1).pc = .sleeping ∧ (s.threads 1).queue = [] ∧
      ∀ j, (s.threads j).queue = [] ∧ (s.threads j).context = [] := by
  have hall := stops_only_when_nothing_is_left reachable_checkExit
  have hexit := Step.exit (i := 0)
    (s := asleepAfterOneEvent.setThread 0 (emptyHanded 201 (-1) .checkExit true)) rfl
    (by decide) rfl
  exact ⟨stops_only_when_nothing_is_left reachable_stealingRun, _, _, reachable_checkExit, hexit,
    rfl, hall.1 0 (by decide), rfl, hall.2.2.2.1 1 rfl, hall.2.2.2.2 0 _ hexit⟩

end RunTime
end Lockfree
end OFlux
