import Mathlib.Data.List.Basic

/-!
# Atomics

An atomic is one instance of a guard: the data pointer that persists with it, the
count of its holders and the queue of the events that wait for it.  This module
has the classes of {lit}`OFluxAtomic.h` whose state is all their own; the pooled
atomics share theirs and follow with the store.

The data pointer is a value of {lit}`D`, absent when the pointer is null.

Main results:

- Theorem {lit}`Atomic.waiting_acquireOrWait`: a request is granted or queued at
  the end.
- Theorem {lit}`Atomic.waiting_release`: the events that a release hands back are
  the front of the queue.
-/

namespace OFlux
namespace Guards

/-- Events are numbered in the order of their creation. -/
abbrev EventId := Nat

variable {D : Type}

/-! ## The modes of a request -/

namespace WType

def none : Nat := 0
def read : Nat := 1
def write : Nat := 2
def exclusive : Nat := 3
def upgradeable : Nat := 4
def pool : Nat := 5
def free : Nat := 6

end WType

/-- An event in the queue of an atomic, with the mode that it asked for. -/
structure AtomicQueueEntry where
  event : EventId
  wtype : Nat
deriving DecidableEq, Repr

/-- What the atomics with a queue have in common: data, holders and waiting events. -/
structure AtomicCommon (D : Type) where
  data : Option D
  held : Nat := 0
  waiters : List AtomicQueueEntry := []

/-! ## Exclusive atomics -/

/-- {lit}`AtomicExclusive`: one holder at a time. -/
structure AtomicExclusive (D : Type) extends AtomicCommon D

namespace AtomicExclusive

/-- Held from now on in any case; who finds it held waits. -/
def acquireOrWait (atom : AtomicExclusive D) (ev : EventId) (_wtype : Nat) :
    AtomicExclusive D × Bool :=
  if atom.held = 0 then ({ atom with held := 1 }, true)
  else ({ atom with held := 1,
                    waiters := atom.waiters ++ [⟨ev, WType.exclusive⟩] }, false)

/-- The first waiting event becomes the holder. -/
def release (atom : AtomicExclusive D) : AtomicExclusive D × List EventId :=
  match atom.waiters with
  | [] => ({ atom with held := 0 }, [])
  | entry :: rest => ({ atom with held := 1, waiters := rest }, [entry.event])

end AtomicExclusive

/-! ## Read/write atomics -/

/-- {lit}`AtomicReadWrite`: several readers or one writer. -/
structure AtomicReadWrite (D : Type) extends AtomicCommon D where
  mode : Nat := WType.none

namespace AtomicReadWrite

/-- Does a request share the atomic with readers? -/
def joinsReaders (atom : AtomicReadWrite D) (wtype : Nat) : Bool :=
  wtype == WType.read || (atom.data.isSome && wtype == WType.upgradeable)

/-- Readers join readers as long as nobody waits. -/
def acquireOrWait (atom : AtomicReadWrite D) (ev : EventId) (wtype : Nat) :
    AtomicReadWrite D × Bool :=
  if atom.held = 0 then
    -- the mode worked out for an upgradeable request is assigned over
    ({ atom with held := 1, mode := wtype }, true)
  else if atom.mode = WType.read ∧ atom.waiters = [] ∧ atom.joinsReaders wtype = true then
    ({ atom with held := atom.held + 1 }, true)
  else
    ({ atom with waiters := atom.waiters ++ [⟨ev, wtype⟩] }, false)

/-- The last release hands over to the first waiting event and, when that one
reads, to the readers right behind it. -/
def release (atom : AtomicReadWrite D) : AtomicReadWrite D × List EventId :=
  if atom.held - 1 = 0 then
    match atom.waiters with
    | [] => ({ atom with held := 0, mode := WType.none }, [])
    | entry :: rest =>
        if entry.wtype = WType.read then
          let readers := rest.takeWhile fun next => atom.joinsReaders next.wtype
          ({ atom with held := 1 + readers.length,
                       mode := entry.wtype,
                       waiters := rest.dropWhile fun next => atom.joinsReaders next.wtype },
            entry.event :: readers.map AtomicQueueEntry.event)
        else
          ({ atom with held := 1, mode := entry.wtype, waiters := rest }, [entry.event])
  else ({ atom with held := atom.held - 1 }, [])

end AtomicReadWrite

/-! ## The classes that an atomic map holds -/

/-- The atomics that are not pooled. -/
inductive Atomic (D : Type) where
  | free (data : Option D)
  | exclusive (atom : AtomicExclusive D)
  | readWrite (atom : AtomicReadWrite D)

/-- The class parameter of an atomic map. -/
inductive AtomicClass where
  | free
  | exclusive
  | readWrite
deriving DecidableEq

/-- A new atomic, with a null data pointer. -/
def AtomicClass.new : AtomicClass → Atomic D
  | .free => .free none
  | .exclusive => .exclusive { data := none }
  | .readWrite => .readWrite { data := none }

namespace Atomic

/-- What {lit}`data` points to. -/
def data : Atomic D → Option D
  | .free d => d
  | .exclusive atom => atom.data
  | .readWrite atom => atom.data

/-- The holder writes through {lit}`data`. -/
def setData (d : Option D) : Atomic D → Atomic D
  | .free _ => .free d
  | .exclusive atom => .exclusive { atom with data := d }
  | .readWrite atom => .readWrite { atom with data := d }

/-- A free atomic is always available and says that it is held. -/
def held : Atomic D → Nat
  | .free _ => 1
  | .exclusive atom => atom.held
  | .readWrite atom => atom.held

/-- The events in the queue, the first one first. -/
def waiting : Atomic D → List EventId
  | .free _ => []
  | .exclusive atom => atom.waiters.map AtomicQueueEntry.event
  | .readWrite atom => atom.waiters.map AtomicQueueEntry.event

/-- {lit}`acquire_or_wait`, with whether the event holds the atomic. -/
def acquireOrWait (ev : EventId) (wtype : Nat) : Atomic D → Atomic D × Bool
  | .free d => (.free d, true)
  | .exclusive atom => ((atom.acquireOrWait ev wtype).map Atomic.exclusive id)
  | .readWrite atom => ((atom.acquireOrWait ev wtype).map Atomic.readWrite id)

/-- {lit}`release`, with the events that hold the atomic next. -/
def release : Atomic D → Atomic D × List EventId
  | .free d => (.free d, [])
  | .exclusive atom => (atom.release.map Atomic.exclusive id)
  | .readWrite atom => (atom.release.map Atomic.readWrite id)

@[simp]
theorem waiting_new (cls : AtomicClass) : (cls.new : Atomic D).waiting = [] := by
  cases cls <;> rfl

@[simp]
theorem waiting_setData (d : Option D) (atom : Atomic D) :
    (atom.setData d).waiting = atom.waiting := by
  cases atom <;> rfl

@[simp]
theorem data_release (atom : Atomic D) : atom.release.1.data = atom.data := by
  cases atom with
  | free d => rfl
  | exclusive atom =>
      simp only [release, AtomicExclusive.release]
      split <;> rfl
  | readWrite atom =>
      simp only [release, AtomicReadWrite.release]
      split
      · split
        · rfl
        · split <;> rfl
      · rfl

/-- A request is granted, or queued at the end. -/
theorem waiting_acquireOrWait (ev : EventId) (wtype : Nat) (atom : Atomic D) :
    (atom.acquireOrWait ev wtype).1.waiting =
      if (atom.acquireOrWait ev wtype).2 then atom.waiting else atom.waiting ++ [ev] := by
  cases atom with
  | free d => rfl
  | exclusive atom =>
      simp only [acquireOrWait, AtomicExclusive.acquireOrWait]
      split <;> simp [waiting]
  | readWrite atom =>
      simp only [acquireOrWait, AtomicReadWrite.acquireOrWait]
      split
      · simp [waiting]
      · split <;> simp [waiting]

/-- The events that a release hands back are the front of the queue. -/
theorem waiting_release (atom : Atomic D) :
    atom.waiting = atom.release.2 ++ atom.release.1.waiting := by
  cases atom with
  | free d => rfl
  | exclusive atom =>
      simp only [release, AtomicExclusive.release]
      split
      next h => simp [waiting, h]
      next entry rest h => simp [waiting, h]
  | readWrite atom =>
      simp only [release, AtomicReadWrite.release]
      split
      · split
        next h => simp [waiting, h]
        next entry rest h =>
          split
          · -- the readers behind the first one leave with it
            simp only [waiting, h, Prod.map, id, List.map_cons, List.cons_append, ← List.map_append,
              List.takeWhile_append_dropWhile]
          · simp [waiting, h]
      · simp [waiting]

end Atomic

end Guards
end OFlux
