import OFlux.Guards.WellFormed
import Mathlib.Data.List.Sort

/-!
# The atomics holder of an event

{lit}`AtomicsHolder` acquires what an event needs in sorted order, keeping what it
holds when it has to wait, and releases it in the reverse order, handing each atomic
over to the events that waited for it.  Each loop has its body as a function of its
own: {lit}`visit` for an acquisition and {lit}`releaseAt` for a release.

Main definitions:

- {lit}`build`, {lit}`getKeysSort`: keys and the order of acquisition.
- {lit}`acquireAllOrWait`: the loop of {lit}`visit` from the working position on.
- {lit}`release`: the loop of {lit}`releaseAt` from the last position down.
-/

namespace OFlux
namespace Guards
namespace Store

variable {I K D : Type} [LinearOrder K] [Inhabited K] (guards : GuardId → Guard)

/-! ## Keys and sorting -/

/-- {lit}`HeldAtomic::build`: find the key and the atomic of a reference.  Without
{lit}`allowLate` the late references are left for later. -/
def build (st : Store I K D) (e : EventId) (i : Nat) (allowLate : Bool) :
    Except Assertion (Store I K D) :=
  match (st.events e).holders[i]? with
  | none => .ok st
  | some ha =>
      if ha.atom.isSome && !allowLate then .error .builtTwice
      else if (allowLate || !ha.ref.late guards) && ha.atom.isNone then
        match ha.ref.resolve (st.events e).input (st.getDataLexical e) with
        | none => .ok (st.setHeld e i { ha with key := none })
        | some key =>
            match st.getAtomic guards ha.ref.guard key with
            | .error err => .error err
            | .ok (st', atom, key') =>
                .ok (st'.setHeld e i { ha with
                  atom := some atom, key := some key', keyOwner := some atom })
      else .ok st

/-- The first loop of {lit}`get_keys_sort`, over the positions of a list. -/
def getKeys (st : Store I K D) (e : EventId) : List Nat → Except Assertion (Store I K D)
  | [] => .ok st
  | i :: rest =>
      match st.build guards e i false with
      | .error err => .error err
      | .ok st' => st'.getKeys e rest

/-- A sorted order of held atomics, as {lit}`qsort` may leave it. -/
def SortedOrder (holders sorted : List (HeldAtomic I K D)) : Prop :=
  sorted.Perm holders ∧ sorted.Pairwise fun left right => left.compare guards right false ≤ 0

/-- What follows the sort: the order is fixed and the keys are in. -/
def setSorted (st : Store I K D) (e : EventId) (sorted : List (HeldAtomic I K D)) :
    Store I K D :=
  st.setEvent e { st.events e with holders := sorted, isSortedAndKeyed := true }

/-- The order in which an event acquires, by a stable sort unless the node has sorted
its references once and for all. -/
def acquisitionOrder (event : Event I K D) : List (HeldAtomic I K D) :=
  if event.isCompletelySorted then event.holders
  else event.holders.insertionSort fun left right => left.compare guards right false ≤ 0

/-- {lit}`get_keys_sort`. -/
def getKeysSort (st : Store I K D) (e : EventId) : Except Assertion (Store I K D) :=
  match st.getKeys guards e (List.range (st.events e).holders.length) with
  | .error err => .error err
  | .ok st' => .ok (st'.setSorted e (acquisitionOrder guards (st'.events e)))

/-! ## Acquisition -/

/-- {lit}`HeldAtomic::acquire_or_wait` -/
def acquireOrWait (st : Store I K D) (e : EventId) (i : Nat) (ha : HeldAtomic I K D) :
    Except Assertion (Store I K D × Bool) :=
  match ha.key, ha.atom with
  | none, _ => .error .keyIsNull
  | some _, none => .error .atomIsNull
  | some _, some p =>
      let result := (st.setHeld e i { ha with haveit := false }).acquireAtomic p e ha.ref.wtype
      .ok (if result.2 then result.1.setHeld e i { ha with haveit := true } else result.1,
        result.2)

/-- {lit}`_working_on` never goes back. -/
def raiseWorkingOn (st : Store I K D) (e : EventId) (i : Nat) : Store I K D :=
  st.setEvent e { st.events e with workingOn := max (st.events e).workingOn i }

/-- One turn of the loop of {lit}`acquire_all_or_wait`; false when the event is queued.
The atomics of the predecessor that the loop also walks over are never taken. -/
def visit (st : Store I K D) (e : EventId) (i : Nat) :
    Except Assertion (Store I K D × Bool) :=
  match st.build guards e i true with
  | .error err => .error err
  | .ok st1 =>
      let st2 := st1.raiseWorkingOn e i
      match (st2.events e).holders[i]? with
      | none => .ok (st2, true)
      | some ha =>
          if ha.haveit || ha.skipit then .ok (st2, true)
          else st2.acquireOrWait e i ha

/-- The loop of {lit}`acquire_all_or_wait` from position {lit}`i`, with the number of
positions that are left. -/
def acquireFrom (st : Store I K D) (e : EventId) (i : Nat) :
    Nat → Except Assertion (Store I K D × Bool)
  | 0 => .ok (st, true)
  | left + 1 =>
      match st.visit guards e i with
      | .error err => .error err
      | .ok (st', true) => st'.acquireFrom e (i + 1) left
      | .ok (st', false) => .ok (st', false)

/-- {lit}`acquire_all_or_wait`: true when everything is held. -/
def acquireAllOrWait (st : Store I K D) (e : EventId) :
    Except Assertion (Store I K D × Bool) :=
  if (st.events e).isSortedAndKeyed then
    st.acquireFrom guards e (st.events e).workingOn
      ((st.events e).holders.length - (st.events e).workingOn)
  else
    match st.getKeysSort guards e with
    | .error err => .error err
    | .ok st' =>
        st'.acquireFrom guards e (st'.events e).workingOn
          ((st'.events e).holders.length - (st'.events e).workingOn)

/-! ## Release -/

/-- Is this the held atomic for which a released event waited? -/
def waitsThere (ha : HeldAtomic I K D) (p : AtomicPtr) (rel : HeldAtomic I K D) : Bool :=
  rel.atom = some p || (p.isPoolLike && rel.compare guards ha true = 0)

/-- The position of the first held atomic from {lit}`_working_on` that fits. -/
def waitingPosition (event : Event I K D) (ha : HeldAtomic I K D) (p : AtomicPtr) :
    Option Nat :=
  ((event.holders.drop event.workingOn).findIdx? (waitsThere guards ha p)).map
    fun j => event.workingOn + j

/-- The assertion on the position below {lit}`_working_on` of the releasing event. -/
def workingOnHeld (event : Event I K D) : Bool :=
  event.workingOn = 0 ||
    match event.holders[event.workingOn - 1]? with
    | some ha => ha.haveit || ha.skipit
    | none => false

/-- One released event takes the atomic over: {lit}`halftakeit`. -/
def handOver (st : Store I K D) (e : EventId) (ha : HeldAtomic I K D) (p : AtomicPtr)
    (rel : EventId) : Except Assertion (Store I K D) :=
  let event := st.events rel
  match waitingPosition guards event ha p with
  | none => .error .shouldHaveFoundHeldAtomic
  | some j =>
      match event.holders[j]? with
      | none => .error .shouldHaveFoundHeldAtomic
      | some relHa =>
          let st := st.setHeld rel j { relHa with haveit := true }
          if j = event.workingOn then
            let st := st.raiseWorkingOn rel (j + 1)
            if workingOnHeld (st.events e) then .ok st else .error .workingOnNotHeld
          else .ok st

/-- The loop over the released events. -/
def handOverAll (st : Store I K D) (e : EventId) (ha : HeldAtomic I K D) (p : AtomicPtr) :
    List EventId → Except Assertion (Store I K D)
  | [] => .ok st
  | rel :: rest =>
      match st.handOver guards e ha p rel with
      | .error err => .error err
      | .ok st' => st'.handOverAll e ha p rest

/-- {lit}`HeldAtomic::garbage_collect`, on an atomic without holder or waiting event. -/
def collect (st : Store I K D) (ha : HeldAtomic I K D) (p : AtomicPtr)
    (released : List EventId) : Except Assertion (Option (Store I K D)) :=
  if released = [] ∧ st.queue (st.queueOf p) = [] ∧ st.heldCount p = 0 ∧
      st.dataOf p = none then
    st.garbageCollect guards ha.ref.guard ha.key ha.keyOwner p
  else .ok none

/-- One turn of the loop of {lit}`release`, with the events that it hands back. -/
def releaseAt (st : Store I K D) (e : EventId) (i : Nat) :
    Except Assertion (Store I K D × List EventId) :=
  match (st.events e).holders[i]? with
  | none => .ok (st, [])
  | some ha =>
      if !ha.haveit && !ha.skipit then .error .notHeldOrSkipped
      else
        match ha.haveit, ha.atom with
        | true, some p =>
            match st.releaseAtomic p with
            | .error err => .error err
            | .ok (st1, released) =>
                match st1.handOverAll guards e ha p released with
                | .error err => .error err
                | .ok st2 =>
                    match st2.collect guards ha p released with
                    | .error err => .error err
                    | .ok (some st3) =>
                        .ok (st3.setHeld e i { ha with atom := none, key := none }, released)
                    | .ok none =>
                        match (st2.setHeld e i { ha with atom := none }).relinquish p
                          !released.isEmpty with
                        | .error err => .error err
                        | .ok st3 => .ok (st3, released)
        | _, _ => .ok (st, [])

/-- The loop of {lit}`release`, from the last position down. -/
def releaseFrom (st : Store I K D) (e : EventId) :
    Nat → Except Assertion (Store I K D × List EventId)
  | 0 => .ok (st, [])
  | i + 1 =>
      match st.releaseAt guards e i with
      | .error err => .error err
      | .ok (st', released) =>
          match st'.releaseFrom e i with
          | .error err => .error err
          | .ok (st'', more) => .ok (st'', released ++ more)

/-- {lit}`release`: give everything back, with the events to acquire the rest. -/
def release (st : Store I K D) (e : EventId) :
    Except Assertion (Store I K D × List EventId) :=
  st.releaseFrom guards e (st.events e).holders.length

end Store
end Guards
end OFlux
