import OFlux.Runtime.ManagerLock
import Mathlib.Data.List.Count

/-!
# The baton of the run time

A thread that leaves the lock or waits hands the right to run on: to a thread that it
wakes or creates, or to a signal saved in {lit}`waiting_to_run`.  A thread is awake when it
runs or will run once it gets the lock; it is outside when it left the lock and has yet to
wait to run.

Main results:

- Theorem {lit}`Invariant.step`: what one step keeps.
- Theorem {lit}`baton_never_lost`: when every thread is blocked, no event is in the queue
  and no thread waits to run.
-/

namespace OFlux
namespace Runtime
namespace ManagerLock

open Library

variable {ε : Type}

/-! ## Awake, outside and blocked threads -/

/-- A thread is awake, outside of the lock for a while, or blocked until it is signalled. -/
inductive Status where
  | awake
  | outside
  | blocked
deriving DecidableEq

/-- A wait that has to come back for the lock is outside of it. -/
def Wait.status : Wait → Status
  | .comeBack _ => .outside
  | _ => .awake

/-- A detached call runs outside of the lock. -/
def Caller.status : Caller → Status
  | .submitDetached => .outside
  | _ => .awake

/-- A signal that has been given goes on with its caller. -/
def Signal.status : Signal → Status
  | .wake caller => caller.status
  | _ => .awake

/-- A thread that comes back is awake once it found a saved signal or was woken. -/
def Position.status : Position ε → Status
  | .outside _ => .outside
  | .submitPush => .outside
  | .submitUnlock => .outside
  | .relocked _ => .outside
  | .readPoolCount caller => caller.status
  | .readThreadCount caller => caller.status
  | .loadThreadCount caller => caller.status
  | .storeThreadCount caller _ => caller.status
  | .readWaitingToRun caller => caller.status
  | .readWaitingInPool caller => caller.status
  | .readWaiterCount _ signal => signal.status
  | .allowSkip _ signal => signal.status
  | .condSignal _ signal => signal.status
  | .incrWaiters wait => wait.status
  | .readSkip wait => wait.status
  | .condWait wait => wait.status
  | .blocked _ => .blocked
  | _ => .awake

@[simp]
theorem Wait.resume_status (wait : Wait) : (wait.resume : Position ε).status = .awake := by
  rcases wait with _ | _ | _ | _ <;> rfl

@[simp]
theorem Caller.resume_status (caller : Caller) :
    (caller.resume : Position ε).status = caller.status := by
  cases caller <;> rfl

@[simp]
theorem Signal.resume_status (signal : Signal) :
    (signal.resume : Position ε).status = signal.status := by
  cases signal with
  | wake caller => exact caller.resume_status
  | _ => rfl

section

variable {config : Configuration} {isDetached : ε → Bool} {s : Threads ε}
  {p q : Position ε} {e : Effect ε}

/-- An awake caller holds the lock. -/
theorem Caller.holdsLock_of_awake {caller : Caller} (h : caller.status = .awake) :
    caller.holdsLock = true := by
  cases caller with
  | submitDetached => cases h
  | _ => rfl

/-- An awake signaller holds the lock. -/
theorem Signal.holdsLock_of_awake {signal : Signal} (h : signal.status = .awake) :
    signal.holdsLock = true := by
  cases signal with
  | wake caller => exact Caller.holdsLock_of_awake h
  | _ => rfl

/-- An awake thread without the lock is a new one or a woken one. -/
theorem Position.eq_of_awake (hp : p.status = .awake) (hlock : p.holdsLock = false) :
    p = .created ∨ ∃ wait, p = .woken wait := by
  have hcaller : ∀ caller : Caller, caller.status = .awake → caller.holdsLock ≠ false := by
    intro caller hawake
    simp [Caller.holdsLock_of_awake hawake]
  have hsignal : ∀ signal : Signal, signal.status = .awake → signal.holdsLock ≠ false := by
    intro signal hawake
    simp [Signal.holdsLock_of_awake hawake]
  cases p with
  | created => exact Or.inl rfl
  | woken wait => exact Or.inr ⟨wait, rfl⟩
  | _ => first
    | exact absurd hlock (hcaller _ hp)
    | exact absurd hlock (hsignal _ hp)
    | (cases hlock; done)
    | cases hp

/-- It does nothing before it gets the lock. -/
theorem Moves.eq_lock_of_awake (h : Moves config isDetached s p e q)
    (hp : p.status = .awake) (hlock : p.holdsLock = false) : e = .lock := by
  rcases Position.eq_of_awake hp hlock with rfl | ⟨wait, rfl⟩ <;> cases h <;> rfl

/-- Who takes a saved signal is awake. -/
theorem Moves.awake_of_clear {c : Condition}
    (h : Moves config isDetached s p (.setSkip c false) q) : q.status = .awake := by
  cases h
  rfl

/-- No caller is blocked. -/
theorem Caller.status_ne_blocked (caller : Caller) : caller.status ≠ .blocked := by
  intro h
  cases caller <;> cases h

/-- No signaller is blocked. -/
theorem Signal.status_ne_blocked (signal : Signal) : signal.status ≠ .blocked := by
  intro h
  cases signal with
  | wake caller => exact caller.status_ne_blocked h
  | _ => cases h

/-- A thread resumed from a wait is not blocked. -/
theorem Wait.status_ne_blocked (wait : Wait) : wait.status ≠ .blocked := by
  intro h
  cases wait <;> cases h

/-- A blocked thread waits on a condition. -/
theorem Position.eq_of_blocked (hp : p.status = .blocked) : ∃ wait, p = .blocked wait := by
  cases p with
  | blocked wait => exact ⟨wait, rfl⟩
  | _ => first
    | exact absurd hp (Caller.status_ne_blocked _)
    | exact absurd hp (Signal.status_ne_blocked _)
    | exact absurd hp (Wait.status_ne_blocked _)
    | cases hp

/-- A thread blocks in {lit}`cond_wait` only. -/
theorem Moves.eq_condWait_of_blocked (h : Moves config isDetached s p e q)
    (hq : q.status = .blocked) :
    ∃ wait, p = .condWait wait ∧ e = .unlock ∧ q = .blocked wait := by
  obtain ⟨wait, hwait⟩ := Position.eq_of_blocked hq
  cases h with
  | condWait => exact ⟨_, rfl, rfl, rfl⟩
  | create =>
      rw [Caller.resume_status] at hq
      exact absurd hq (Caller.status_ne_blocked _)
  | condSignal =>
      rw [Signal.resume_status] at hq
      exact absurd hq (Signal.status_ne_blocked _)
  | decrWaiters =>
      rw [Wait.resume_status] at hq
      cases hq
  | _ => cases hwait

/-- An awake thread goes outside when it gives up the lock. -/
theorem Moves.eq_unlock_of_outside (h : Moves config isDetached s p e q)
    (hp : p.status = .awake) (hq : q.status = .outside) :
    ∃ outside, p = .unlock outside ∧ e = .unlock := by
  cases h with
  | unlock => exact ⟨_, rfl, rfl⟩
  | create =>
      rw [Caller.resume_status] at hq
      exact absurd (hq.symm.trans hp) (by decide)
  | condSignal =>
      rw [Signal.resume_status] at hq
      exact absurd (hq.symm.trans hp) (by decide)
  | decrWaiters =>
      rw [Wait.resume_status] at hq
      cases hq
  | _ => first
    | (cases hq; done)
    | cases hp
    | exact absurd (hq.symm.trans hp) (by decide)

/-! ## What is known while a thread holds the lock -/

namespace Threads

/-- Some thread other than {lit}`i` is awake. -/
def OthersAwake (s : Threads ε) (i : Nat) : Prop :=
  ∃ j p, j ≠ i ∧ s.positions[j]? = some p ∧ p.status = .awake

/-- A signal is saved for the next thread that waits to run. -/
def Saved (s : Threads ε) : Prop :=
  s.allowSkipCond .waitingToRun = true

/-- There is nothing to run. -/
def AtRest (s : Threads ε) : Prop :=
  s.queue = [] ∧ s.waiterCount .waitingToRun = 0

end Threads

/-- When a signal may be saved instead of waking a thread. -/
def Signal.CanSave (s : Threads ε) (c : Condition) : Signal → Prop
  | .wake _ => c = .waitingToRun
  | .handOver => False
  | .emptyQueue => c = .waitingToRun ∧ s.AtRest

/-- What holds when a thread goes to the pool. -/
def Threads.Relieved (s : Threads ε) (i : Nat) : Prop :=
  s.OthersAwake i ∨ s.Saved ∧ s.AtRest

/-- What thread {lit}`i` has made sure of where it stands, while it holds the lock. -/
def Position.Knows (s : Threads ε) (i : Nat) : Position ε → Prop
  | .readWaiterCount c signal =>
      signal.holdsLock = true → 0 < s.waiterCount c ∨ signal.CanSave s c
  | .allowSkip c signal => signal.holdsLock = true → signal.CanSave s c
  | .condSignal c signal =>
      signal.holdsLock = true → 0 < s.waiterCount c ∨ signal.CanSave s c ∧ s.Saved
  | .unlock _ => s.OthersAwake i ∨ s.Saved
  | .incrWaiters wait => wait.condition = .waitingInPool → s.Relieved i
  | .readSkip wait => wait.condition = .waitingInPool → s.Relieved i
  | .condWait wait =>
      s.OthersAwake i ∨ wait.condition = .waitingInPool ∧ s.Saved ∧ s.AtRest
  | _ => True

/-- Some thread is awake; or a signal is saved for a thread outside, or nothing is left to
run. -/
def Threads.HasBaton (s : Threads ε) : Prop :=
  (∃ p ∈ s.positions, p.status = .awake) ∨
    s.Saved ∧ ((∃ p ∈ s.positions, p.status = .outside) ∨ s.AtRest)

/-- The invariant of the threads. -/
structure Invariant (s : Threads ε) : Prop where
  lockHolder : ∀ i, s.managerLock = some i ↔
    ∃ p, s.positions[i]? = some p ∧ p.holdsLock = true
  waiters : ∀ c, s.waiterCount c = s.positions.countP (Position.waitsIn c)
  hasBaton : s.HasBaton
  knows : ∀ i (p : Position ε), s.positions[i]? = some p → p.Knows s i

theorem Initial.invariant (h : Initial s) : Invariant s where
  lockHolder := by
    intro i
    rw [h.managerLock, h.positions]
    constructor
    · intro hi
      cases hi
    · rintro ⟨p, hp, hlock⟩
      cases i with
      | zero =>
          cases hp
          cases hlock
      | succ i => cases hp
  waiters := by
    intro c
    simp [Threads.waiterCount, h.conditions, h.positions, Position.waitsIn]
  hasBaton := by
    left
    rw [h.positions]
    exact ⟨.created, List.mem_singleton_self _, rfl⟩
  knows := by
    intro i p hp
    rw [h.positions] at hp
    cases i with
    | zero =>
        cases hp
        trivial
    | succ i => cases hp

/-! ## The lock and the waiters in one step -/

variable {i k : Nat}

/-- Only locking and unlocking change the holder. -/
theorem Effect.apply_managerLock (e : Effect ε) (i : Nat) (s : Threads ε) :
    (e.apply i s).managerLock =
      match e with
      | .lock => some i
      | .unlock => Option.none
      | _ => s.managerLock := by
  cases e with
  | condSignal c target => cases target <;> simp [apply]
  | _ => rfl

/-- Only thread {lit}`i` takes or gives up the lock. -/
theorem holdsLock_step_iff (hk : k ≠ i) :
    (∃ r, (e.apply i (s.move i q)).positions[k]? = some r ∧ r.holdsLock = true) ↔
      ∃ r, s.positions[k]? = some r ∧ r.holdsLock = true := by
  constructor
  · rintro ⟨r, hr, hlock⟩
    rcases positions_other_cases hk hr with hsame | ⟨wait, rfl, _⟩ | ⟨rfl, _⟩
    · exact ⟨r, hsame, hlock⟩
    · cases hlock
    · cases hlock
  · rintro ⟨r, hr, hlock⟩
    rcases positions_other hk hr with hsame | ⟨wait, rfl, _⟩
    · exact ⟨r, hsame, hlock⟩
    · cases hlock

/-- The holder of the lock is where its position says. -/
theorem Invariant.managerLock_iff (hs : Invariant s) (hp : s.positions[i]? = some p) :
    s.managerLock = some i ↔ p.holdsLock = true := by
  rw [hs.lockHolder i]
  constructor
  · rintro ⟨r, hr, hlock⟩
    rw [hp, Option.some.injEq] at hr
    exact hr ▸ hlock
  · intro hlock
    exact ⟨p, hp, hlock⟩

theorem Invariant.lockHolder_step (hs : Invariant s) (hp : s.positions[i]? = some p)
    (h : Moves config isDetached s p e q) (he : e.Enabled s) (k : Nat) :
    (e.apply i (s.move i q)).managerLock = some k ↔
      ∃ r, (e.apply i (s.move i q)).positions[k]? = some r ∧ r.holdsLock = true := by
  have hself := hs.managerLock_iff hp
  rw [Effect.apply_managerLock]
  by_cases hk : k = i
  · subst hk
    simp only [positions_self hp h he, Option.some.injEq, exists_eq_left', h.holdsLock]
    cases e <;> simp [Effect.holdsLock, Threads.move, hself]
  · rw [holdsLock_step_iff hk, ← hs.lockHolder k]
    cases e with
    | lock =>
        have hfree : s.managerLock = none := he
        simp [hfree, Ne.symm hk]
    | unlock =>
        have hheld := hself.mpr (h.holdsLock_of_needsLock trivial)
        simp [hheld, Ne.symm hk]
    | _ => rfl

/-- A list counts alike before and after a change, up to the two items. -/
theorem countP_set_add {f : Position ε → Bool} {l : List (Position ε)}
    (hp : l[i]? = some p) :
    (l.set i q).countP f + (f p).toNat = l.countP f + (f q).toNat := by
  induction l generalizing i with
  | nil => cases hp
  | cons r rest ih =>
      cases i with
      | zero =>
          cases hp
          rw [List.set_cons_zero, List.countP_cons, List.countP_cons]
          cases f p <;> cases f q <;> simp
      | succ i =>
          have hrest := ih hp
          rw [List.set_cons_succ, List.countP_cons, List.countP_cons]
          omega

/-- A signal or a creation changes no waiter. -/
theorem Effect.countP_apply (c : Condition) (e : Effect ε) (i : Nat) (s : Threads ε) :
    (e.apply i s).positions.countP (Position.waitsIn c) =
      s.positions.countP (Position.waitsIn c) := by
  cases e with
  | create count => simp [apply, Position.waitsIn]
  | condSignal d target =>
      cases target with
      | none => rfl
      | some j =>
          simp only [apply, Threads.wakeUp]
          split
          next wait hj =>
            have hsame : (Position.woken wait : Position ε).waitsIn c =
                (Position.blocked wait : Position ε).waitsIn c := rfl
            have hset := countP_set_add (f := Position.waitsIn c) (q := .woken wait) hj
            rw [hsame] at hset
            exact Nat.add_right_cancel hset
          · rfl
  | _ => rfl

theorem Invariant.waiters_step (hs : Invariant s) (hp : s.positions[i]? = some p)
    (h : Moves config isDetached s p e q) (c : Condition) :
    (e.apply i (s.move i q)).waiterCount c =
      (e.apply i (s.move i q)).positions.countP (Position.waitsIn c) := by
  have hwaits := h.waitsIn c
  have hcount : s.waiterCount c = s.positions.countP (Position.waitsIn c) := hs.waiters c
  have hset : (s.move i q).positions.countP (Position.waitsIn c) + (p.waitsIn c).toNat =
      s.positions.countP (Position.waitsIn c) + (q.waitsIn c).toNat := countP_set_add hp
  have hmoved : (s.move i q).waiterCount c = s.waiterCount c := rfl
  rw [Effect.apply_waiterCount, Effect.countP_apply, hmoved, hcount]
  omega

/-- No count of waiters is negative. -/
theorem Invariant.waiterCount_nonneg (hs : Invariant s) (c : Condition) :
    0 ≤ s.waiterCount c := by
  rw [hs.waiters c]
  exact Int.natCast_nonneg _

/-! ## Awake threads in one step -/

/-- Threads stay awake, up to the one that makes the step. -/
theorem othersAwake_step (hp : s.positions[i]? = some p)
    (h : Moves config isDetached s p e q) (he : e.Enabled s)
    (hk : i ≠ k → p.status = .awake → q.status = .awake) (hawake : s.OthersAwake k) :
    (e.apply i (s.move i q)).OthersAwake k := by
  obtain ⟨j, r, hj, hr, hstatus⟩ := hawake
  by_cases hji : j = i
  · subst hji
    rw [hp, Option.some.injEq] at hr
    exact ⟨j, q, hj, positions_self hp h he, hk hj (hr ▸ hstatus)⟩
  · rcases positions_other (e := e) (q := q) hji hr with hsame | ⟨wait, rfl, _⟩
    · exact ⟨j, r, hj, hsame, hstatus⟩
    · cases hstatus

/-- A new thread is awake. -/
theorem othersAwake_of_create {count : Int} (hp : s.positions[i]? = some p) :
    ((Effect.create count).apply i (s.move i q)).OthersAwake i := by
  have hlt : i < s.positions.length := (List.getElem?_eq_some_iff.mp hp).1
  refine ⟨s.positions.length, .created, by omega, ?_, rfl⟩
  have hlength : s.positions.length = (s.move i q).positions.length := by
    simp [Threads.move]
  rw [hlength]
  exact List.getElem?_concat_length

/-- A waiter that does not hold the lock is blocked or woken. -/
theorem Position.eq_of_waitsIn {c : Condition} (hp : p.waitsIn c = true)
    (hlock : p.holdsLock = false) :
    ∃ wait : Wait, wait.condition = c ∧ (p = .blocked wait ∨ p = .woken wait) := by
  cases p with
  | blocked wait => exact ⟨wait, of_decide_eq_true hp, Or.inl rfl⟩
  | woken wait => exact ⟨wait, of_decide_eq_true hp, Or.inr rfl⟩
  | _ => first
    | cases hp
    | cases hlock

/-- A signal to a condition variable with waiters leaves one of them awake. -/
theorem Invariant.othersAwake_of_condSignal (hs : Invariant s) {c : Condition} {signal : Signal}
    {target : Option Nat} (hp : s.positions[i]? = some (.condSignal c signal))
    (h : Moves config isDetached s (.condSignal c signal) (.condSignal c target) q)
    (hlock : signal.holdsLock = true) (he : (Effect.condSignal c target : Effect ε).Enabled s)
    (hcount : 0 < s.waiterCount c) :
    ((Effect.condSignal c target).apply i (s.move i q)).OthersAwake i := by
  cases target with
  | some j =>
      obtain ⟨wait, _, hj⟩ := he
      have hji : j ≠ i := by
        rintro rfl
        rw [hp] at hj
        cases hj
      have hmoved : (s.move i q).positions[j]? = some (.blocked wait) := by
        simpa [Threads.move, List.getElem?_set_ne hji.symm] using hj
      have hlt := (List.getElem?_eq_some_iff.mp hmoved).1
      refine ⟨j, .woken wait, hji, ?_, rfl⟩
      simp only [Effect.apply, Threads.wakeUp, hmoved]
      exact List.getElem?_set_self hlt
  | none =>
      rw [hs.waiters c] at hcount
      obtain ⟨r, hr, hwaits⟩ := List.countP_pos_iff.mp (Int.natCast_pos.mp hcount)
      obtain ⟨j, hj⟩ := List.mem_iff_getElem?.mp hr
      have hji : j ≠ i := by
        rintro rfl
        rw [hp, Option.some.injEq] at hj
        subst hj
        cases hwaits
      have hheld : s.managerLock = some i := (hs.managerLock_iff hp).mpr hlock
      have hfree : r.holdsLock = false := by
        by_contra hr'
        rw [Bool.not_eq_false] at hr'
        have hother := (hs.managerLock_iff hj).mpr hr'
        rw [hheld, Option.some.injEq] at hother
        exact hji hother.symm
      obtain ⟨wait, hwait, rfl | rfl⟩ := Position.eq_of_waitsIn hwaits hfree
      · exact absurd hr (he wait hwait)
      · have hawake : s.OthersAwake i := ⟨j, .woken wait, hji, hj, rfl⟩
        exact othersAwake_step hp h he (fun hne => absurd rfl hne) hawake

/-! ## What one step keeps -/

/-- What the thread with the lock relies on. -/
structure Undisturbed (s t : Threads ε) (i : Nat) : Prop where
  queue : t.queue = s.queue
  waiterCount : ∀ c, t.waiterCount c = s.waiterCount c
  saved : s.Saved → t.Saved
  othersAwake : s.OthersAwake i → t.OthersAwake i

namespace Undisturbed

variable {t : Threads ε}

/-- The others at rest stay at rest. -/
theorem atRest (h : Undisturbed s t i) (hs : s.AtRest) : t.AtRest :=
  ⟨h.queue.trans hs.1, (h.waiterCount _).trans hs.2⟩

/-- Whoever was relieved stays relieved. -/
theorem relieved (h : Undisturbed s t i) (hs : s.Relieved i) : t.Relieved i :=
  hs.imp h.othersAwake fun hrest => ⟨h.saved hrest.1, h.atRest hrest.2⟩

/-- A signal that can be saved still can. -/
theorem canSave (h : Undisturbed s t i) {c : Condition} {signal : Signal}
    (hs : signal.CanSave s c) : signal.CanSave t c := by
  cases signal with
  | wake caller => exact hs
  | handOver => exact hs
  | emptyQueue => exact ⟨hs.1, h.atRest hs.2⟩

/-- What a thread knows stays true. -/
theorem knows (h : Undisturbed s t i) {r : Position ε} (hr : r.Knows s i) : r.Knows t i := by
  cases r with
  | readWaiterCount c signal =>
      intro hlock
      rw [h.waiterCount]
      exact (hr hlock).imp_right h.canSave
  | allowSkip c signal =>
      intro hlock
      exact h.canSave (hr hlock)
  | condSignal c signal =>
      intro hlock
      rw [h.waiterCount]
      exact (hr hlock).imp_right fun hsaved => ⟨h.canSave hsaved.1, h.saved hsaved.2⟩
  | unlock outside => exact hr.imp h.othersAwake h.saved
  | incrWaiters wait =>
      intro hpool
      exact h.relieved (hr hpool)
  | readSkip wait =>
      intro hpool
      exact h.relieved (hr hpool)
  | condWait wait =>
      exact hr.imp h.othersAwake fun hrest => ⟨hrest.1, h.saved hrest.2.1, h.atRest hrest.2.2⟩
  | _ => trivial

end Undisturbed

/-- An access that does not need the lock disturbs no thread that stays awake. -/
theorem undisturbed_step (hp : s.positions[i]? = some p)
    (h : Moves config isDetached s p e q) (he : e.Enabled s) (hlock : ¬ e.NeedsLock)
    (hk : i ≠ k → p.status = .awake → q.status = .awake) :
    Undisturbed s (e.apply i (s.move i q)) k where
  queue := Effect.apply_queue hlock i _
  waiterCount := by
    intro c
    rw [Effect.apply_waiterCount]
    have hadds : e.addsWaiters c = 0 := by
      cases e with
      | addWaiters => exact absurd trivial hlock
      | _ => rfl
    rw [hadds, Int.add_zero]
    rfl
  saved := by
    intro hsaved
    refine Effect.apply_allowSkipCond ?_ hsaved
    rintro rfl
    exact hlock rfl
  othersAwake := othersAwake_step hp h he hk

/-- Where a thread does not hold the lock it relies on nothing. -/
theorem Position.knows_of_not_holdsLock (hlock : p.holdsLock = false) : p.Knows s i := by
  cases p with
  | readWaiterCount c signal => exact fun h => absurd (h.symm.trans hlock) (by decide)
  | allowSkip c signal => exact fun h => absurd (h.symm.trans hlock) (by decide)
  | condSignal c signal => exact fun h => absurd (h.symm.trans hlock) (by decide)
  | _ => trivial

/-- The other threads lose nothing that they rely on. -/
theorem Invariant.knows_other (hs : Invariant s) (hp : s.positions[i]? = some p)
    (h : Moves config isDetached s p e q) (he : e.Enabled s) (hk : k ≠ i) {r : Position ε}
    (hr : (e.apply i (s.move i q)).positions[k]? = some r) :
    r.Knows (e.apply i (s.move i q)) k := by
  rcases positions_other_cases hk hr with hsame | ⟨wait, rfl, _⟩ | ⟨rfl, _⟩
  · cases hlock : r.holdsLock with
    | false => exact Position.knows_of_not_holdsLock hlock
    | true =>
        have hheld : s.managerLock = some k := (hs.managerLock_iff hsame).mpr hlock
        have hfree : p.holdsLock = false := by
          by_contra hp'
          rw [Bool.not_eq_false] at hp'
          have hself := (hs.managerLock_iff hp).mpr hp'
          rw [hheld, Option.some.injEq] at hself
          exact hk hself
        have hneeds : ¬ e.NeedsLock := by
          intro hneeds
          rw [h.holdsLock_of_needsLock hneeds] at hfree
          cases hfree
        refine (undisturbed_step hp h he hneeds ?_).knows (hs.knows k r hsame)
        intro _ hawake
        -- an awake thread without the lock would take it, but it is held
        have hlocks := h.eq_lock_of_awake hawake hfree
        rw [hlocks] at he
        have hnone : s.managerLock = none := he
        rw [hheld] at hnone
        cases hnone
  · trivial
  · trivial

/-- Only the signal of runnable threads is saved. -/
theorem Signal.CanSave.eq_waitingToRun {c : Condition} {signal : Signal}
    (h : signal.CanSave s c) : c = .waitingToRun := by
  cases signal with
  | wake caller => exact h
  | handOver => exact h.elim
  | emptyQueue => exact h.1

/-- After a signal under the lock, another thread is awake or the signal is saved. -/
theorem Invariant.knows_condSignal (hs : Invariant s) {c : Condition} {signal : Signal}
    {target : Option Nat} (hp : s.positions[i]? = some (.condSignal c signal))
    (h : Moves config isDetached s (.condSignal c signal) (.condSignal c target) signal.resume)
    (he : (Effect.condSignal c target : Effect ε).Enabled s) :
    (signal.resume : Position ε).Knows
      ((Effect.condSignal c target).apply i (s.move i signal.resume)) i := by
  have hundisturbed := undisturbed_step (k := i) hp h he (fun hneeds => hneeds)
    (fun hne => absurd rfl hne)
  have hrelieved : signal.holdsLock = true →
      ((Effect.condSignal c target).apply i (s.move i signal.resume)).OthersAwake i ∨
        signal.CanSave s c ∧ s.Saved := by
    intro hlock
    rcases hs.knows i _ hp hlock with hcount | hsaved
    · exact Or.inl (hs.othersAwake_of_condSignal hp h hlock he hcount)
    · exact Or.inr hsaved
  cases signal with
  | wake caller =>
      cases caller with
      | leave outside =>
          exact (hrelieved rfl).imp_right fun hsaved => hundisturbed.saved hsaved.2
      | submitEvents => trivial
      | submitDetached => trivial
  | handOver =>
      intro _
      exact (hrelieved rfl).imp_right fun hsaved => hsaved.1.elim
  | emptyQueue =>
      intro _
      exact (hrelieved rfl).imp_right fun hsaved =>
        ⟨hundisturbed.saved hsaved.2, hundisturbed.atRest hsaved.1.2⟩

/-- Where no signal is saved, another thread is awake while this one comes back. -/
theorem Invariant.othersAwake_of_not_saved (hs : Invariant s) (hp : s.positions[i]? = some p)
    (hstatus : p.status ≠ .awake) (hsaved : ¬ s.Saved) : s.OthersAwake i := by
  rcases hs.hasBaton with ⟨r, hr, hawake⟩ | hrest
  · obtain ⟨j, hj⟩ := List.mem_iff_getElem?.mp hr
    refine ⟨j, r, ?_, hj, hawake⟩
    rintro rfl
    rw [hp, Option.some.injEq] at hj
    exact hstatus (hj ▸ hawake)
  · exact absurd hrest.1 hsaved

/-- The thread that makes the step knows what its new position asks for. -/
theorem Invariant.knows_self (hs : Invariant s) (hp : s.positions[i]? = some p)
    (h : Moves config isDetached s p e q) (he : e.Enabled s) :
    q.Knows (e.apply i (s.move i q)) i := by
  have hknows := hs.knows i p hp
  have hundisturbed : ¬ e.NeedsLock → Undisturbed s (e.apply i (s.move i q)) i :=
    fun hneeds => undisturbed_step hp h he hneeds fun hne => absurd rfl hne
  have hmoves := h
  cases h with
  | someWaitToRun hcount => exact fun _ => Or.inl hcount
  | popEmpty hqueue =>
      intro _
      by_cases hcount : 0 < s.waiterCount .waitingToRun
      · exact Or.inl hcount
      · have hnonneg := hs.waiterCount_nonneg .waitingToRun
        have hzero : s.waiterCount .waitingToRun = 0 := by omega
        exact Or.inr ⟨rfl, hqueue, hzero⟩
  | executedDetached => exact fun hpool => by cases hpool
  | calledBlocking => exact fun hpool => by cases hpool
  | wakeToRun => exact fun _ => Or.inr rfl
  | wakeInPool hcount => exact fun _ => Or.inl hcount
  | noneInPool => exact fun _ => Or.inr rfl
  | noWaiter hcount =>
      intro hlock
      rcases hknows hlock with hpos | hsave
      · omega
      · exact (hundisturbed fun hneeds => hneeds).canSave hsave
  | @someWaiter c _ hcount =>
      intro _
      have hnonneg := hs.waiterCount_nonneg c
      have hpos : 0 < s.waiterCount c := by omega
      exact Or.inl hpos
  | @allowSkip c _ =>
      intro hlock
      have hsave := hknows hlock
      refine Or.inr ⟨(hundisturbed (by simp [Effect.NeedsLock])).canSave hsave, ?_⟩
      obtain rfl := hsave.eq_waitingToRun
      simp [Threads.Saved, Threads.allowSkipCond, Effect.apply, Threads.updateCondition]
  | condSignal => exact hs.knows_condSignal hp hmoves he
  | @create caller _ =>
      cases caller with
      | leave outside => exact Or.inl (othersAwake_of_create hp)
      | submitEvents => trivial
      | submitDetached => trivial
  | @incrWaiters wait =>
      intro hpool
      rcases hknows hpool with hawake | ⟨hsaved, hqueue, hcount⟩
      · exact Or.inl (othersAwake_step hp hmoves he (fun hne => absurd rfl hne) hawake)
      · refine Or.inr ⟨Effect.apply_allowSkipCond (fun hskip => by cases hskip) hsaved, hqueue, ?_⟩
        have hadds : (Effect.addWaiters .waitingInPool 1 : Effect ε).addsWaiters
            .waitingToRun = 0 := rfl
        rw [Effect.apply_waiterCount, hpool, hadds, Int.add_zero]
        exact hcount
  | @noSkip wait hskip =>
      have hkept := hundisturbed fun hneeds => hneeds
      have hrelieved : wait.condition = .waitingInPool → s.Relieved i := hknows
      cases wait with
      | comeBack outside =>
          -- the saved signal is read by the thread alone, so a missing one shows another awake
          have hsaved : ¬ s.Saved := by
            intro hsaved
            exact absurd (hsaved.symm.trans hskip) (by decide)
          exact Or.inl (hkept.othersAwake
            (hs.othersAwake_of_not_saved hp (fun houtside => by cases houtside) hsaved))
      | handOver =>
          exact (hkept.relieved (hrelieved rfl)).imp_right fun hrest => ⟨rfl, hrest⟩
      | emptyQueue =>
          exact (hkept.relieved (hrelieved rfl)).imp_right fun hrest => ⟨rfl, hrest⟩
  | @decrWaiters wait => rcases wait with _ | _ | _ | _ <;> trivial
  | _ => trivial

/-- The baton is kept: who stops running hands it on first. -/
theorem Invariant.hasBaton_step (hs : Invariant s) (hp : s.positions[i]? = some p)
    (h : Moves config isDetached s p e q) (he : e.Enabled s) :
    (e.apply i (s.move i q)).HasBaton := by
  have hself := positions_self hp h he
  have hmem : q ∈ (e.apply i (s.move i q)).positions := List.mem_of_getElem? hself
  have hknows := hs.knows i p hp
  have hothers : s.OthersAwake i → (e.apply i (s.move i q)).HasBaton := by
    intro hawake
    obtain ⟨j, r, _, hr, hstatus⟩ :=
      othersAwake_step hp h he (fun hne => absurd rfl hne) hawake
    exact Or.inl ⟨r, List.mem_of_getElem? hr, hstatus⟩
  cases hq : q.status with
  | awake => exact Or.inl ⟨q, hmem, hq⟩
  | blocked =>
      obtain ⟨wait, rfl, rfl, rfl⟩ := h.eq_condWait_of_blocked hq
      rcases hknows with hawake | ⟨_, hsaved, hrest⟩
      · exact hothers hawake
      · exact Or.inr ⟨hsaved, Or.inr hrest⟩
  | outside =>
      have hkept : s.Saved → (e.apply i (s.move i q)).HasBaton := by
        intro hsaved
        refine Or.inr ⟨Effect.apply_allowSkipCond ?_ hsaved, Or.inl ⟨q, hmem, hq⟩⟩
        rintro rfl
        rw [h.awake_of_clear] at hq
        cases hq
      by_cases hawake : p.status = .awake
      · obtain ⟨outside, rfl, rfl⟩ := h.eq_unlock_of_outside hawake hq
        exact hknows.elim hothers hkept
      · by_cases hsaved : s.Saved
        · exact hkept hsaved
        · exact hothers (hs.othersAwake_of_not_saved hp hawake hsaved)

/-- What one step keeps. -/
theorem Invariant.step {t : Threads ε} (hs : Invariant s)
    (h : Step config isDetached s i t) : Invariant t := by
  obtain ⟨hp, hmoves, he⟩ := h
  refine ⟨hs.lockHolder_step hp hmoves he, hs.waiters_step hp hmoves,
    hs.hasBaton_step hp hmoves he, fun k r hr => ?_⟩
  by_cases hk : k = i
  · subst hk
    rw [positions_self hp hmoves he, Option.some.injEq] at hr
    exact hr ▸ hs.knows_self hp hmoves he
  · exact hs.knows_other hp hmoves he hk hr

end

/-! ## Whole runs -/

/-- Every thread is blocked in one of the two condition variables, and there is an event in
the queue or a thread that waits to run.  A thread that a signal has reached is not
blocked. -/
def BatonLost (s : Threads ε) : Prop :=
  (∀ p ∈ s.positions, ∃ wait, p = .blocked wait) ∧
    (s.queue ≠ [] ∨ ∃ outside, Position.blocked (.comeBack outside) ∈ s.positions)

/-- Under the invariant the baton is not lost. -/
theorem Invariant.not_batonLost {s : Threads ε} (hs : Invariant s) : ¬ BatonLost s := by
  rintro ⟨hblocked, hwork⟩
  have hstatus : ∀ p ∈ s.positions, p.status = .blocked := by
    intro p hp
    obtain ⟨wait, rfl⟩ := hblocked p hp
    rfl
  rcases hs.hasBaton with ⟨p, hp, hawake⟩ | ⟨_, ⟨p, hp, houtside⟩ | ⟨hqueue, hcount⟩⟩
  · exact absurd ((hstatus p hp).symm.trans hawake) (by decide)
  · exact absurd ((hstatus p hp).symm.trans houtside) (by decide)
  · rcases hwork with hqueue' | ⟨outside, hwaits⟩
    · exact hqueue' hqueue
    · rw [hs.waiters, Int.natCast_eq_zero, List.countP_eq_zero] at hcount
      exact hcount _ hwaits rfl

/-- The run time never loses the baton. -/
theorem baton_never_lost {config : Configuration} {isDetached : ε → Bool} {s : Threads ε}
    (h : (system config isDetached).Reachable s) : ¬ BatonLost s := by
  have hinit : ∀ s : Threads ε, Initial s → Invariant s := fun _ hs => hs.invariant
  have hstep : ∀ (s : Threads ε) (i : Nat) (t : Threads ε), Invariant s →
      Step config isDetached s i t → Invariant t := fun _ _ _ hs h => hs.step h
  exact (h.invariant hinit hstep).not_batonLost

/-! ## A run time without work -/

/-- The only thread is about to take the lock, and no event is in the queue. -/
def starting : Threads Unit where
  managerLock := none
  conditions := fun _ => {}
  queue := []
  threadCount := 1
  detachedCount := 0
  positions := [.created]

/-- The thread finds no work, saves a signal and goes to the pool. -/
def goToPool : List (Position Unit × Effect Unit) := [
  (.loopHead, .lock),
  (.pop, .none),
  (.readWaiterCount .waitingToRun .emptyQueue, .none),
  (.allowSkip .waitingToRun .emptyQueue, .none),
  (.condSignal .waitingToRun .emptyQueue, .setSkip .waitingToRun true),
  (.incrWaiters .emptyQueue, .condSignal .waitingToRun none),
  (.readSkip .emptyQueue, .addWaiters .waitingInPool 1),
  (.condWait .emptyQueue, .none),
  (.blocked .emptyQueue, .unlock)]

/-- Its only thread is blocked in the pool. -/
def inPool : Threads Unit :=
  goToPool.foldl (fun s a => a.2.apply 0 (s.move 0 a.1)) starting

theorem reachable_inPool (config : Configuration) :
    (system config fun _ : Unit => true).Reachable inPool := by
  have hstart : (system config fun _ : Unit => true).Reachable starting :=
    .init ⟨rfl, fun _ => rfl, rfl, rfl, rfl⟩
  have hpop := (hstart.step (.intro (i := 0) rfl .start rfl)).step
    (.intro (i := 0) rfl (.noneWaitsToRun (by decide)) trivial)
  have hskip := (hpop.step (.intro (i := 0) rfl (.popEmpty rfl) trivial)).step
    (.intro (i := 0) rfl (.noWaiter rfl) trivial)
  have hsignal := hskip.step (.intro (i := 0) rfl .allowSkip trivial)
  have hnone : ∀ wait : Wait, wait.condition = .waitingToRun →
      Position.blocked wait ∉
        [(.condSignal .waitingToRun .emptyQueue : Position Unit)] := by
    intro wait _ hmem
    cases List.mem_singleton.mp hmem
  have hpool := hsignal.step
    (.intro (i := 0) (e := .condSignal .waitingToRun none) rfl .condSignal hnone)
  have hwait := hpool.step (.intro (i := 0) rfl .incrWaiters trivial)
  exact (hwait.step (.intro (i := 0) rfl (.noSkip rfl) trivial)).step
    (.intro (i := 0) rfl .condWait trivial)

theorem baton_never_lost_inPool : inPool.positions = [.blocked .emptyQueue] ∧
    ¬ BatonLost inPool :=
  ⟨rfl, baton_never_lost (reachable_inPool ⟨4, 2⟩)⟩

end ManagerLock
end Runtime
end OFlux
