import OFlux.Library.TransitionSystem
import Mathlib.Data.Int.Init

/-!
# Threads, the manager lock and the two condition variables

The threads of the classic run time share one lock.  A thread that leaves it to execute a
detached event or to make a blocking call first wakes another thread, and waits to run
when it comes back; a thread that finds no work waits in the pool.  Every access to the
shared variables that another thread can see in between is one step, also those that
{lit}`wake_another_thread` makes without the lock.

Which events an execution submits or creates is open, and so are the number of blocking
calls, the thread that a signal wakes, and when a blocked thread wakes without a signal.

Main results:

- Theorem {lit}`Moves.holdsLock`: a thread holds the lock from the step that takes it to
  the step that gives it up.
- Theorem {lit}`Moves.waitsIn`: a thread counts as a waiter between the two updates of the
  count.
-/

namespace OFlux
namespace Runtime
namespace ManagerLock

open Library

variable {ε : Type}

/-! ## Positions of a thread -/

/-- The two condition variables. -/
inductive Condition where
  | waitingToRun
  | waitingInPool
deriving DecidableEq

/-- What a thread does after it gave up the lock. -/
inductive Outside where
  | executeDetached
  | blockingCall
deriving DecidableEq

/-- The callers of {lit}`wait`: the main loop twice, and a thread that comes back. -/
inductive Wait where
  | handOver
  | emptyQueue
  | comeBack (outside : Outside)
deriving DecidableEq

/-- The callers of {lit}`wake_another_thread`; the last one does not hold the lock. -/
inductive Caller where
  | leave (outside : Outside)
  | submitEvents
  | submitDetached
deriving DecidableEq

/-- The callers of {lit}`signal`. -/
inductive Signal where
  | wake (caller : Caller)
  | handOver
  | emptyQueue
deriving DecidableEq

/-- The next access of a thread to what the threads share. -/
inductive Position (ε : Type) where
  | created
  | loopHead
  | pop
  | handle (ev : ε)
  | execute
  | successors
  | unlock (outside : Outside)
  | outside (outside : Outside)
  | submitPush
  | submitUnlock
  | relocked (outside : Outside)
  | readPoolCount (caller : Caller)
  | readThreadCount (caller : Caller)
  | loadThreadCount (caller : Caller)
  | storeThreadCount (caller : Caller) (count : Int)
  | readWaitingToRun (caller : Caller)
  | readWaitingInPool (caller : Caller)
  | readWaiterCount (condition : Condition) (signal : Signal)
  | allowSkip (condition : Condition) (signal : Signal)
  | condSignal (condition : Condition) (signal : Signal)
  | incrWaiters (wait : Wait)
  | readSkip (wait : Wait)
  | clearSkip (wait : Wait)
  | condWait (wait : Wait)
  | blocked (wait : Wait)
  | woken (wait : Wait)
  | decrWaiters (wait : Wait)
deriving DecidableEq

/-- The condition variable that a caller waits on. -/
def Wait.condition : Wait → Condition
  | .handOver => .waitingInPool
  | .emptyQueue => .waitingInPool
  | .comeBack _ => .waitingToRun

/-- Where a thread goes on after {lit}`wait`. -/
def Wait.resume : Wait → Position ε
  | .handOver => .pop
  | .emptyQueue => .loopHead
  | .comeBack .executeDetached => .successors
  | .comeBack .blockingCall => .execute

/-- Where a thread goes on after {lit}`wake_another_thread`. -/
def Caller.resume : Caller → Position ε
  | .leave outside => .unlock outside
  | .submitEvents => .execute
  | .submitDetached => .outside .executeDetached

/-- Where a thread goes on after {lit}`signal`. -/
def Signal.resume : Signal → Position ε
  | .wake caller => caller.resume
  | .handOver => .incrWaiters .handOver
  | .emptyQueue => .incrWaiters .emptyQueue

/-! ## What the threads share -/

/-- The pool sizes of the configuration; zero is no limit. -/
structure Configuration where
  maxThreadPoolSize : Int
  maxDetachedThreads : Int

/-- The members of a {lit}`ConditionVariable`; who is blocked on it the positions say. -/
structure ConditionVariable where
  waiterCount : Int := 0
  allowSkipCond : Bool := false

/-- The run time with its threads. -/
structure Threads (ε : Type) where
  managerLock : Option Nat
  conditions : Condition → ConditionVariable
  queue : List ε
  threadCount : Int
  detachedCount : Int
  positions : List (Position ε)

/-- One access to what the threads share. -/
inductive Effect (ε : Type) where
  | none
  | lock
  | unlock
  | push (events : List ε)
  | pop
  | addDetached (change : Int)
  | create (count : Int)
  | addWaiters (condition : Condition) (change : Int)
  | setSkip (condition : Condition) (skip : Bool)
  | condSignal (condition : Condition) (target : Option Nat)

namespace Threads

/-- How many threads wait at a condition. -/
def waiterCount (s : Threads ε) (c : Condition) : Int :=
  (s.conditions c).waiterCount

/-- A signal has been saved for the next thread that comes to wait. -/
def allowSkipCond (s : Threads ε) (c : Condition) : Bool :=
  (s.conditions c).allowSkipCond

/-- The pool may have another thread; 0 stands for no bound. -/
def canThreadMore (config : Configuration) (s : Threads ε) : Bool :=
  config.maxThreadPoolSize = 0 || s.threadCount < config.maxThreadPoolSize

/-- Another call may be detached; 0 stands for no bound. -/
def canDetachMore (config : Configuration) (s : Threads ε) : Bool :=
  config.maxDetachedThreads = 0 || s.detachedCount < config.maxDetachedThreads

/-- One thread goes on. -/
def move (s : Threads ε) (i : Nat) (p : Position ε) : Threads ε :=
  { s with positions := s.positions.set i p }

/-- Take a thread out of the blocked ones; it still has to get the lock. -/
def wakeUp (s : Threads ε) (j : Nat) : Threads ε :=
  match s.positions[j]? with
  | some (.blocked wait) => s.move j (.woken wait)
  | _ => s

/-- Change one condition variable. -/
def updateCondition (s : Threads ε) (c : Condition)
    (f : ConditionVariable → ConditionVariable) : Threads ε :=
  { s with conditions := Function.update s.conditions c (f (s.conditions c)) }

end Threads

/-- What has to hold for an access: the lock is free when it is taken, and a signal wakes
a thread when one is blocked. -/
def Effect.Enabled (s : Threads ε) : Effect ε → Prop
  | .lock => s.managerLock = Option.none
  | .condSignal c (some j) => ∃ wait : Wait, wait.condition = c ∧
      s.positions[j]? = some (.blocked wait)
  | .condSignal c Option.none => ∀ wait : Wait, wait.condition = c →
      Position.blocked wait ∉ s.positions
  | _ => True

/-- An access of thread {lit}`i`. -/
def Effect.apply (i : Nat) (s : Threads ε) : Effect ε → Threads ε
  | .none => s
  | .lock => { s with managerLock := some i }
  | .unlock => { s with managerLock := Option.none }
  | .push events => { s with queue := s.queue ++ events }
  | .pop => { s with queue := s.queue.tail }
  | .addDetached change => { s with detachedCount := s.detachedCount + change }
  | .create count =>
      { s with threadCount := count + 1, positions := s.positions ++ [.created] }
  | .addWaiters c change =>
      s.updateCondition c fun v => { v with waiterCount := v.waiterCount + change }
  | .setSkip c skip => s.updateCondition c fun v => { v with allowSkipCond := skip }
  | .condSignal _ (some j) => s.wakeUp j
  | .condSignal _ Option.none => s

/-! ## The program of a thread -/

/-- The accesses of a thread, with the position before and after each of them. -/
inductive Moves (config : Configuration) (isDetached : ε → Bool) (s : Threads ε) :
    Position ε → Effect ε → Position ε → Prop where
  | start : Moves config isDetached s .created .lock .loopHead
  -- the main loop of `RunTimeThread::start`; a reload may push the first events of a flow
  | loadFlow {events : List ε} :
      Moves config isDetached s .loopHead (.push events) .loopHead
  | someWaitToRun :
      0 < s.waiterCount .waitingToRun →
      Moves config isDetached s .loopHead .none (.readWaiterCount .waitingToRun .handOver)
  | noneWaitsToRun :
      ¬ 0 < s.waiterCount .waitingToRun →
      Moves config isDetached s .loopHead .none .pop
  | pop {ev : ε} {rest : List ε} :
      s.queue = ev :: rest →
      Moves config isDetached s .pop .pop (.handle ev)
  | popEmpty :
      s.queue = [] →
      Moves config isDetached s .pop .none (.readWaiterCount .waitingToRun .emptyQueue)
  -- `handle`
  | executeDetached {ev : ε} :
      (isDetached ev && s.canDetachMore config) = true →
      Moves config isDetached s (.handle ev) (.addDetached 1)
        (.readPoolCount (.leave .executeDetached))
  | execute {ev : ε} :
      (isDetached ev && s.canDetachMore config) = false →
      Moves config isDetached s (.handle ev) .none .execute
  | blockingCall :
      Moves config isDetached s .execute .none (.readPoolCount (.leave .blockingCall))
  | submitEvents {events : List ε} :
      Moves config isDetached s .execute (.push events) (.readPoolCount .submitEvents)
  | executed : Moves config isDetached s .execute .none .successors
  | successors {events : List ε} :
      Moves config isDetached s .successors (.push events) .loopHead
  -- without the lock
  | unlock {outside : Outside} :
      Moves config isDetached s (.unlock outside) .unlock (.outside outside)
  | submitLock :
      Moves config isDetached s (.outside .executeDetached) .lock .submitPush
  | submitPush {events : List ε} :
      Moves config isDetached s .submitPush (.push events) .submitUnlock
  | submitUnlock :
      Moves config isDetached s .submitUnlock .unlock (.readPoolCount .submitDetached)
  | relock {outside : Outside} :
      Moves config isDetached s (.outside outside) .lock (.relocked outside)
  | executedDetached :
      Moves config isDetached s (.relocked .executeDetached) (.addDetached (-1))
        (.incrWaiters (.comeBack .executeDetached))
  | calledBlocking :
      Moves config isDetached s (.relocked .blockingCall) .none
        (.incrWaiters (.comeBack .blockingCall))
  -- `wake_another_thread`
  | poolEmpty {caller : Caller} :
      s.waiterCount .waitingInPool = 0 →
      Moves config isDetached s (.readPoolCount caller) .none (.readThreadCount caller)
  | poolNonempty {caller : Caller} :
      s.waiterCount .waitingInPool ≠ 0 →
      Moves config isDetached s (.readPoolCount caller) .none (.readWaitingToRun caller)
  | canThreadMore {caller : Caller} :
      s.canThreadMore config = true →
      Moves config isDetached s (.readThreadCount caller) .none (.loadThreadCount caller)
  | cannotThreadMore {caller : Caller} :
      s.canThreadMore config = false →
      Moves config isDetached s (.readThreadCount caller) .none (.readWaitingToRun caller)
  | loadThreadCount {caller : Caller} :
      Moves config isDetached s (.loadThreadCount caller) .none
        (.storeThreadCount caller s.threadCount)
  | create {caller : Caller} {count : Int} :
      Moves config isDetached s (.storeThreadCount caller count) (.create count) caller.resume
  | wakeToRun {caller : Caller} :
      0 < s.waiterCount .waitingToRun →
      Moves config isDetached s (.readWaitingToRun caller) .none
        (.readWaiterCount .waitingToRun (.wake caller))
  | noneToRun {caller : Caller} :
      ¬ 0 < s.waiterCount .waitingToRun →
      Moves config isDetached s (.readWaitingToRun caller) .none (.readWaitingInPool caller)
  | wakeInPool {caller : Caller} :
      0 < s.waiterCount .waitingInPool →
      Moves config isDetached s (.readWaitingInPool caller) .none
        (.readWaiterCount .waitingInPool (.wake caller))
  | noneInPool {caller : Caller} :
      ¬ 0 < s.waiterCount .waitingInPool →
      Moves config isDetached s (.readWaitingInPool caller) .none
        (.readWaiterCount .waitingToRun (.wake caller))
  -- `ConditionVariable::signal`
  | noWaiter {c : Condition} {signal : Signal} :
      s.waiterCount c = 0 →
      Moves config isDetached s (.readWaiterCount c signal) .none (.allowSkip c signal)
  | someWaiter {c : Condition} {signal : Signal} :
      s.waiterCount c ≠ 0 →
      Moves config isDetached s (.readWaiterCount c signal) .none (.condSignal c signal)
  | allowSkip {c : Condition} {signal : Signal} :
      Moves config isDetached s (.allowSkip c signal) (.setSkip c true) (.condSignal c signal)
  | condSignal {c : Condition} {signal : Signal} {target : Option Nat} :
      Moves config isDetached s (.condSignal c signal) (.condSignal c target) signal.resume
  -- `ConditionVariable::wait`; a blocked thread may wake without a signal
  | incrWaiters {wait : Wait} :
      Moves config isDetached s (.incrWaiters wait) (.addWaiters wait.condition 1)
        (.readSkip wait)
  | skip {wait : Wait} :
      s.allowSkipCond wait.condition = true →
      Moves config isDetached s (.readSkip wait) .none (.clearSkip wait)
  | noSkip {wait : Wait} :
      s.allowSkipCond wait.condition = false →
      Moves config isDetached s (.readSkip wait) .none (.condWait wait)
  | clearSkip {wait : Wait} :
      Moves config isDetached s (.clearSkip wait) (.setSkip wait.condition false)
        (.decrWaiters wait)
  | condWait {wait : Wait} :
      Moves config isDetached s (.condWait wait) .unlock (.blocked wait)
  | spuriousWakeUp {wait : Wait} :
      Moves config isDetached s (.blocked wait) .none (.woken wait)
  | woken {wait : Wait} :
      Moves config isDetached s (.woken wait) .lock (.decrWaiters wait)
  | decrWaiters {wait : Wait} :
      Moves config isDetached s (.decrWaiters wait) (.addWaiters wait.condition (-1))
        wait.resume

/-- Thread {lit}`i` makes its next access. -/
inductive Step (config : Configuration) (isDetached : ε → Bool) (s : Threads ε) :
    Nat → Threads ε → Prop where
  | intro {i : Nat} {p q : Position ε} {e : Effect ε} :
      s.positions[i]? = some p → Moves config isDetached s p e q → e.Enabled s →
      Step config isDetached s i (e.apply i (s.move i q))

/-- One thread, which has yet to get the lock, and the first events. -/
structure Initial (s : Threads ε) : Prop where
  managerLock : s.managerLock = none
  conditions : ∀ c, s.conditions c = {}
  threadCount : s.threadCount = 1
  detachedCount : s.detachedCount = 0
  positions : s.positions = [.created]

/-- The threads of a run time with a configuration, over any flow. -/
def system (config : Configuration) (isDetached : ε → Bool) :
    TransitionSystem (Threads ε) Nat where
  init := Initial
  step := Step config isDetached

/-! ## Who holds the lock -/

/-- All but a detached call hold the lock. -/
def Caller.holdsLock : Caller → Bool
  | .submitDetached => false
  | _ => true

/-- A signal is given under the lock. -/
def Signal.holdsLock : Signal → Bool
  | .wake caller => caller.holdsLock
  | _ => true

/-- Where a thread holds the lock. -/
def Position.holdsLock : Position ε → Bool
  | .created => false
  | .outside _ => false
  | .blocked _ => false
  | .woken _ => false
  | .readPoolCount caller => caller.holdsLock
  | .readThreadCount caller => caller.holdsLock
  | .loadThreadCount caller => caller.holdsLock
  | .storeThreadCount caller _ => caller.holdsLock
  | .readWaitingToRun caller => caller.holdsLock
  | .readWaitingInPool caller => caller.holdsLock
  | .readWaiterCount _ signal => signal.holdsLock
  | .allowSkip _ signal => signal.holdsLock
  | .condSignal _ signal => signal.holdsLock
  | _ => true

/-- Whether a thread holds the lock after an access, when it did or did not before. -/
def Effect.holdsLock : Effect ε → Bool → Bool
  | .lock, _ => true
  | .unlock, _ => false
  | _, held => held

/-- The accesses that only a thread with the lock makes. -/
def Effect.NeedsLock : Effect ε → Prop
  | .unlock => True
  | .push _ => True
  | .pop => True
  | .addDetached _ => True
  | .addWaiters _ _ => True
  | .setSkip _ skip => skip = false
  | _ => False

@[simp]
theorem Wait.resume_holdsLock (wait : Wait) :
    (wait.resume : Position ε).holdsLock = true := by
  rcases wait with _ | _ | _ | _ <;> rfl

@[simp]
theorem Caller.resume_holdsLock (caller : Caller) :
    (caller.resume : Position ε).holdsLock = caller.holdsLock := by
  cases caller <;> rfl

@[simp]
theorem Signal.resume_holdsLock (signal : Signal) :
    (signal.resume : Position ε).holdsLock = signal.holdsLock := by
  cases signal with
  | wake caller => exact caller.resume_holdsLock
  | _ => rfl

section

variable {config : Configuration} {isDetached : ε → Bool} {s : Threads ε}
  {p q : Position ε} {e : Effect ε}

/-- A thread holds the lock from the access that takes it to the one that gives it up. -/
theorem Moves.holdsLock (h : Moves config isDetached s p e q) :
    q.holdsLock = e.holdsLock p.holdsLock := by
  cases h with
  | create => exact Caller.resume_holdsLock _
  | condSignal => exact Signal.resume_holdsLock _
  | decrWaiters => exact Wait.resume_holdsLock _
  | _ => rfl

/-- An effect that needs the lock is had under the lock. -/
theorem Moves.holdsLock_of_needsLock (h : Moves config isDetached s p e q) (he : e.NeedsLock) :
    p.holdsLock = true := by
  cases h <;> first | rfl | simp [Effect.NeedsLock] at he

/-! ## Who counts as a waiter -/

/-- Where a thread counts as a waiter of a condition variable. -/
def Position.waitsIn (c : Condition) : Position ε → Bool
  | .readSkip wait => wait.condition = c
  | .clearSkip wait => wait.condition = c
  | .condWait wait => wait.condition = c
  | .blocked wait => wait.condition = c
  | .woken wait => wait.condition = c
  | .decrWaiters wait => wait.condition = c
  | _ => false

/-- What an access adds to the waiters of a condition variable. -/
def Effect.addsWaiters (c : Condition) : Effect ε → Int
  | .addWaiters d change => if d = c then change else 0
  | _ => 0

@[simp]
theorem Wait.resume_waitsIn (wait : Wait) (c : Condition) :
    (wait.resume : Position ε).waitsIn c = false := by
  rcases wait with _ | _ | _ | _ <;> rfl

@[simp]
theorem Caller.resume_waitsIn (caller : Caller) (c : Condition) :
    (caller.resume : Position ε).waitsIn c = false := by
  cases caller <;> rfl

@[simp]
theorem Signal.resume_waitsIn (signal : Signal) (c : Condition) :
    (signal.resume : Position ε).waitsIn c = false := by
  cases signal with
  | wake caller => exact caller.resume_waitsIn c
  | _ => rfl

/-- A thread counts as a waiter between the two updates of the count. -/
theorem Moves.waitsIn (h : Moves config isDetached s p e q) (c : Condition) :
    ((q.waitsIn c).toNat : Int) = (p.waitsIn c).toNat + e.addsWaiters c := by
  cases h with
  | create =>
      rw [Caller.resume_waitsIn]
      rfl
  | condSignal =>
      rw [Signal.resume_waitsIn]
      rfl
  | @incrWaiters wait =>
      by_cases hwait : wait.condition = c <;>
        simp [hwait, Position.waitsIn, Effect.addsWaiters]
  | @decrWaiters wait =>
      rw [Wait.resume_waitsIn]
      by_cases hwait : wait.condition = c <;>
        simp [hwait, Position.waitsIn, Effect.addsWaiters]
  | _ => simp [Position.waitsIn, Effect.addsWaiters]

/-! ## What an access changes -/

@[simp]
theorem Threads.wakeUp_managerLock (s : Threads ε) (j : Nat) :
    (s.wakeUp j).managerLock = s.managerLock := by
  unfold wakeUp
  split <;> rfl

@[simp]
theorem Threads.wakeUp_queue (s : Threads ε) (j : Nat) : (s.wakeUp j).queue = s.queue := by
  unfold wakeUp
  split <;> rfl

@[simp]
theorem Threads.wakeUp_conditions (s : Threads ε) (j : Nat) :
    (s.wakeUp j).conditions = s.conditions := by
  unfold wakeUp
  split <;> rfl

/-- What an effect adds to the waiters. -/
theorem Effect.apply_waiterCount (e : Effect ε) (i : Nat) (s : Threads ε) (c : Condition) :
    (e.apply i s).waiterCount c = s.waiterCount c + e.addsWaiters c := by
  cases e with
  | addWaiters d change =>
      by_cases hd : d = c
      · subst hd
        simp [apply, addsWaiters, Threads.waiterCount, Threads.updateCondition]
      · have hne : c ≠ d := fun h => hd h.symm
        simp [apply, addsWaiters, Threads.waiterCount, Threads.updateCondition, hd, hne]
  | setSkip d skip =>
      by_cases hd : d = c
      · subst hd
        simp [apply, addsWaiters, Threads.waiterCount, Threads.updateCondition]
      · have hne : c ≠ d := fun h => hd h.symm
        simp [apply, addsWaiters, Threads.waiterCount, Threads.updateCondition, hne]
  | condSignal d target =>
      cases target <;> simp [apply, addsWaiters, Threads.waiterCount]
  | _ => simp [apply, addsWaiters, Threads.waiterCount]

/-- Only clearing it takes a saved signal away. -/
theorem Effect.apply_allowSkipCond {e : Effect ε} {i : Nat} {s : Threads ε} {c : Condition}
    (he : e ≠ .setSkip c false) (h : s.allowSkipCond c = true) :
    (e.apply i s).allowSkipCond c = true := by
  cases e with
  | addWaiters d change =>
      by_cases hd : c = d
      · subst hd
        simpa [apply, Threads.allowSkipCond, Threads.updateCondition] using h
      · simpa [apply, Threads.allowSkipCond, Threads.updateCondition, hd] using h
  | setSkip d skip =>
      by_cases hd : c = d
      · subst hd
        cases skip with
        | false => exact absurd rfl he
        | true => simp [apply, Threads.allowSkipCond, Threads.updateCondition]
      · simpa [apply, Threads.allowSkipCond, Threads.updateCondition, hd] using h
  | condSignal d target =>
      cases target <;> simpa [apply, Threads.allowSkipCond] using h
  | _ => simpa [apply, Threads.allowSkipCond] using h

/-- The queue changes under the lock only. -/
theorem Effect.apply_queue {e : Effect ε} (he : ¬ e.NeedsLock) (i : Nat) (s : Threads ε) :
    (e.apply i s).queue = s.queue := by
  cases e with
  | push => exact absurd trivial he
  | pop => exact absurd trivial he
  | condSignal c target => cases target <;> simp [apply]
  | _ => rfl

section

variable {i k : Nat}

/-- The thread that makes an access is afterwards where its program says. -/
theorem positions_self (hp : s.positions[i]? = some p) (h : Moves config isDetached s p e q)
    (he : e.Enabled s) : (e.apply i (s.move i q)).positions[i]? = some q := by
  have hlt : i < s.positions.length := (List.getElem?_eq_some_iff.mp hp).1
  have hset : (s.move i q).positions[i]? = some q := by
    simp [Threads.move, hlt]
  cases e with
  | create count =>
      have hmoved : i < (s.move i q).positions.length := by simpa [Threads.move] using hlt
      simp only [Effect.apply]
      rw [List.getElem?_append_left hmoved, hset]
  | condSignal c target =>
      cases target with
      | none => exact hset
      | some j =>
          obtain ⟨wait, _, hj⟩ := he
          have hne : j ≠ i := by
            rintro rfl
            rw [hp, Option.some.injEq] at hj
            subst hj
            cases h
          have hmoved : (s.move i q).positions[j]? = some (.blocked wait) := by
            simpa [Threads.move, List.getElem?_set_ne hne.symm] using hj
          simp only [Effect.apply, Threads.wakeUp, hmoved]
          simpa [Threads.move, List.getElem?_set_ne hne] using hset
  | _ => exact hset

/-- Another thread stays where it is, or a signal wakes it. -/
theorem positions_other (hk : k ≠ i) {r : Position ε} (hr : s.positions[k]? = some r) :
    (e.apply i (s.move i q)).positions[k]? = some r ∨
      ∃ wait, r = .blocked wait ∧
        (e.apply i (s.move i q)).positions[k]? = some (.woken wait) := by
  have hlt : k < s.positions.length := (List.getElem?_eq_some_iff.mp hr).1
  have hset : (s.move i q).positions[k]? = some r := by
    simpa [Threads.move, List.getElem?_set_ne hk.symm] using hr
  cases e with
  | create count =>
      have hmoved : k < (s.move i q).positions.length := by simpa [Threads.move] using hlt
      simp only [Effect.apply]
      rw [List.getElem?_append_left hmoved, hset]
      exact Or.inl rfl
  | condSignal c target =>
      cases target with
      | none => exact Or.inl hset
      | some j =>
          simp only [Effect.apply, Threads.wakeUp]
          split
          next wait hj =>
            by_cases hjk : j = k
            · subst hjk
              rw [hset, Option.some.injEq] at hj
              have hmoved : j < (s.move i q).positions.length := by
                simpa [Threads.move] using hlt
              exact Or.inr ⟨wait, hj, List.getElem?_set_self hmoved⟩
            · left
              simpa [Threads.move, List.getElem?_set_ne hjk] using hset
          · exact Or.inl hset
  | _ => exact Or.inl hset

/-- A thread is where it was, woken by a signal, or new. -/
theorem positions_other_cases (hk : k ≠ i) {r : Position ε}
    (hr : (e.apply i (s.move i q)).positions[k]? = some r) :
    s.positions[k]? = some r ∨
      (∃ wait, r = .woken wait ∧ s.positions[k]? = some (.blocked wait)) ∨
      (r = .created ∧ k = s.positions.length) := by
  by_cases hlt : k < s.positions.length
  · obtain ⟨r', hr'⟩ : ∃ r', s.positions[k]? = some r' := ⟨_, List.getElem?_eq_getElem hlt⟩
    rcases positions_other (e := e) (q := q) hk hr' with hsame | ⟨wait, rfl, hwoken⟩
    · rw [hr, Option.some.injEq] at hsame
      exact Or.inl (hsame ▸ hr')
    · rw [hr, Option.some.injEq] at hwoken
      exact Or.inr (Or.inl ⟨wait, hwoken, hr'⟩)
  · have hnone : (s.move i q).positions[k]? = none := by
      simp [Threads.move, Nat.le_of_not_lt hlt]
    cases e with
    | create count =>
        simp only [Effect.apply] at hr
        have hge : (s.move i q).positions.length ≤ k := List.getElem?_eq_none_iff.mp hnone
        rw [List.getElem?_append_right hge] at hr
        obtain ⟨hzero, hcreated⟩ := List.getElem?_eq_some_iff.mp hr
        have hlength : (s.move i q).positions.length = s.positions.length := by
          simp [Threads.move]
        simp only [List.length_singleton] at hzero
        right; right
        refine ⟨?_, by omega⟩
        simpa using hcreated.symm
    | condSignal c target =>
        cases target with
        | none => cases hr.symm.trans hnone
        | some j =>
            simp only [Effect.apply, Threads.wakeUp] at hr
            split at hr
            · simp [Threads.move, Nat.le_of_not_lt hlt] at hr
            · cases hr.symm.trans hnone
    | _ => cases hr.symm.trans hnone

end

end

end ManagerLock
end Runtime
end OFlux
