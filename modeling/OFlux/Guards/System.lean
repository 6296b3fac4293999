import OFlux.Guards.ReleaseEffect
import OFlux.Library.Location
import OFlux.Library.TransitionSystem

/-!
# Events acquiring and releasing guards

The classic run time as far as guards are concerned.  An event is created and calls
{lit}`acquire_all_or_wait`; with everything held it is runnable; it executes, may
release early, and releases at the end; an event that a release hands back calls
{lit}`acquire_all_or_wait` again.  A step is one turn of a loop, so acquisitions and
releases of different events interleave freely; the run time itself, which holds its
lock during a whole call, is among these interleavings.

Main definitions:

- {lit}`Step`: one constructor for each thing that can happen.
- {lit}`system`: the transition system, from a state without events.
- {lit}`State.contents`: the places where events can be.
-/

namespace OFlux
namespace Guards

open Library

variable {I K D : Type}

/-! ## Nodes -/

/-- The guard references of a node, sorted by {lit}`sortGuards`. -/
structure Node (guards : GuardId → Guard) (I K D : Type) where
  guardRefs : List (GuardReference I K D)
  ascending : guardRefs.Pairwise fun left right =>
    (guards left.guard).magicNumber ≤ (guards right.guard).magicNumber
  poolMode : ∀ ref ∈ guardRefs, (guards ref.guard).amap = .pool → ref.wtype = WType.pool

/-- The loop of {lit}`sortGuards` over the magic numbers. -/
def completelySortedFrom (last : Int) : List Nat → Bool
  | [] => true
  | mn :: rest => if last ≥ mn then false else completelySortedFrom mn rest

/-- The mark that {lit}`sortGuards` leaves on a node. -/
def Node.isGuardsCompletelySorted {guards : GuardId → Guard} (node : Node guards I K D) :
    Bool :=
  completelySortedFrom (-1) (node.guardRefs.map fun ref => (guards ref.guard).magicNumber)

/-- A new event of a node, with one held atomic for each guard reference. -/
def Node.newEvent {guards : GuardId → Guard} (node : Node guards I K D) (input : I) :
    Event I K D where
  input := input
  holders := node.guardRefs.map fun ref => { ref := ref }
  isCompletelySorted := node.isGuardsCompletelySorted

/-! ## States and steps -/

/-- An event that executes; {lit}`releasing` counts the positions that are left of a
release in progress. -/
structure Execution where
  event : EventId
  releasing : Option Nat := none
  /-- The release is that of {lit}`handle`, after the execution. -/
  isLast : Bool := false
  /-- A history variable: a release has been completed before. -/
  released : Bool := false
deriving DecidableEq

/-- The store, and where the events are.  {lit}`acquiring` has the calls of
{lit}`acquire_all_or_wait` in progress, each with the position that it has reached. -/
structure State (I K D : Type) where
  store : Store I K D
  created : EventId := 0
  acquiring : List (EventId × Nat) := []
  runnable : List EventId := []
  executing : List Execution := []
  finished : List EventId := []

/-- What a step is about. -/
inductive Action where
  | create
  | getKeysSort (e : EventId)
  | visit (e : EventId) (i : Nat)
  | ready (e : EventId)
  | start (e : EventId)
  | write (e : EventId) (i : Nat)
  | beginRelease (e : EventId)
  | releaseAt (e : EventId) (i : Nat)
  | endRelease (e : EventId)
deriving DecidableEq

variable [LinearOrder K] [Inhabited K] (guards : GuardId → Guard)

/-- The steps of the events, one for each turn of a loop of the source. -/
inductive Step : State I K D → Action → State I K D → Prop where
  | create (s : State I K D) (node : Node guards I K D) (input : I) :
      Step s .create { s with
        store := s.store.setEvent s.created (node.newEvent input),
        created := s.created + 1,
        acquiring := (s.created, 0) :: s.acquiring }
  | getKeysSort {s : State I K D} {e : EventId} {st : Store I K D}
      {sorted : List (HeldAtomic I K D)} (hcall : (e, 0) ∈ s.acquiring)
      (hnew : (s.store.events e).isSortedAndKeyed = false)
      (hkeys : s.store.getKeys guards e (List.range (s.store.events e).holders.length) = .ok st)
      (hsort : if (st.events e).isCompletelySorted then sorted = (st.events e).holders
        else Store.SortedOrder guards (st.events e).holders sorted) :
      Step s (.getKeysSort e) { s with store := st.setSorted e sorted }
  | acquired {s : State I K D} {e : EventId} {i : Nat} {st : Store I K D}
      (hcall : (e, i) ∈ s.acquiring) (hsorted : (s.store.events e).isSortedAndKeyed = true)
      (hlt : i < (s.store.events e).holders.length)
      (hvisit : s.store.visit guards e i = .ok (st, true)) :
      Step s (.visit e i) { s with
        store := st,
        acquiring := (e, i + 1) :: s.acquiring.erase (e, i) }
  | queued {s : State I K D} {e : EventId} {i : Nat} {st : Store I K D}
      (hcall : (e, i) ∈ s.acquiring) (hsorted : (s.store.events e).isSortedAndKeyed = true)
      (hlt : i < (s.store.events e).holders.length)
      (hvisit : s.store.visit guards e i = .ok (st, false)) :
      Step s (.visit e i) { s with
        store := st,
        acquiring := s.acquiring.erase (e, i) }
  | ready {s : State I K D} {e : EventId} {i : Nat} (hcall : (e, i) ∈ s.acquiring)
      (hsorted : (s.store.events e).isSortedAndKeyed = true)
      (hend : (s.store.events e).holders.length ≤ i) :
      Step s (.ready e) { s with
        acquiring := s.acquiring.erase (e, i),
        runnable := s.runnable ++ [e] }
  | start {s : State I K D} {e : EventId} (hrunnable : e ∈ s.runnable) :
      Step s (.start e) { s with
        runnable := s.runnable.erase e,
        executing := { event := e } :: s.executing }
  | write {s : State I K D} {x : Execution} {i : Nat} {ha : HeldAtomic I K D}
      {p : AtomicPtr} (hx : x ∈ s.executing) (hrunning : x.releasing = none)
      (hi : (s.store.events x.event).holders[i]? = some ha) (hheld : ha.haveit = true)
      (hp : ha.atom = some p) (d : Option D) :
      Step s (.write x.event i) { s with store := s.store.setData p d }
  | beginRelease {s : State I K D} {x : Execution} (hx : x ∈ s.executing)
      (hrunning : x.releasing = none) (isLast : Bool) :
      Step s (.beginRelease x.event) { s with
        executing := { x with
          releasing := some (s.store.events x.event).holders.length,
          isLast := isLast } :: s.executing.erase x }
  | releaseAt {s : State I K D} {x : Execution} {i : Nat} {st : Store I K D}
      {released : List EventId} (hx : x ∈ s.executing) (hleft : x.releasing = some (i + 1))
      (hrelease : s.store.releaseAt guards x.event i = .ok (st, released)) :
      Step s (.releaseAt x.event i) { s with
        store := st,
        executing := { x with releasing := some i } :: s.executing.erase x,
        acquiring := released.map (fun r => (r, (st.events r).workingOn)) ++ s.acquiring }
  | releasedEarly {s : State I K D} {x : Execution} (hx : x ∈ s.executing)
      (hleft : x.releasing = some 0) (hlast : x.isLast = false) :
      Step s (.endRelease x.event) { s with
        executing := { x with releasing := none, released := true } :: s.executing.erase x }
  | finish {s : State I K D} {x : Execution} (hx : x ∈ s.executing)
      (hleft : x.releasing = some 0) (hlast : x.isLast = true) :
      Step s (.endRelease x.event) { s with
        executing := s.executing.erase x,
        finished := x.event :: s.finished }

/-- Before the first event: the atomics are as the guard initializers left them. -/
structure Initial (s : State I K D) : Prop where
  wellFormed : Store.WellFormed guards s.store
  queues : ∀ q, s.store.queue q = []
  collected : s.store.collected = []
  events : ∀ e, (s.store.events e).holders = []
  created : s.created = 0
  acquiring : s.acquiring = []
  runnable : s.runnable = []
  executing : s.executing = []
  finished : s.finished = []

/-- The events on their guards as a transition system. -/
def system (I K D : Type) [LinearOrder K] [Inhabited K] (guards : GuardId → Guard) :
    TransitionSystem (State I K D) Action where
  init := Initial guards
  step := Step guards

/-! ## Places -/

/-- Where an event can be. -/
inductive Place where
  | acquiring
  | runnable
  | executing
  | finished
  | queue (q : Queue)
deriving DecidableEq

namespace State

omit [LinearOrder K] [Inhabited K]

/-- The events at each place. -/
def contents (s : State I K D) : Place → List EventId
  | .acquiring => s.acquiring.map Prod.fst
  | .runnable => s.runnable
  | .executing => s.executing.map Execution.event
  | .finished => s.finished
  | .queue q => s.store.queue q

end State

end Guards
end OFlux
