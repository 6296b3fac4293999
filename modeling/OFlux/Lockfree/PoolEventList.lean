import OFlux.Library.Location
import OFlux.Library.Loop
import OFlux.Library.Machine
import OFlux.Lockfree.GrowableCircularArray

/-!
# The lock-free pool

Waiting events and available resources stand in two growable circular arrays.  How many
there are is told by two pairs of indices of 32 bits, so that all tests go by unsigned
differences.  Calls are taken one after another; the loops around the compare-and-swaps
are kept, so that a call could go around for ever.

Main results:

- Theorem {lit}`Represents.acquireOrWait`, {lit}`Represents.release`: what a call does to
  the two queues.
- Theorem {lit}`PoolEventList.answersFifoPool_iff`: the pool answers as a FIFO pool and conserves
  its resources as long as no queue has to hold 2^30 things.
-/

namespace OFlux
namespace Lockfree

open Library

variable {E R : Type}

/-! ## The circular arrays as queues -/

namespace CircularArray

variable {α : Type}

/-- The test of a pop: the thing in front, if there is one.  The index of the entry is
unsigned and never negative. -/
def front (q : CircularArray α) (out : BitVec 32) : Except Failure (Option α) :=
  match q.get out.toNat false with
  | .error err => .error err
  | .ok (_, { ptr := .thing x, .. }) => .ok (some x)
  | .ok _ => .ok none

/-- Null is written over a popped thing. -/
def popAt [DecidableEq α] (q : CircularArray α) (out : BitVec 32) (x : α) :
    Except Failure (CircularArray α) :=
  match q.casToNull out.toNat x with
  | .error err => .error err
  | .ok (q, true) => .ok q
  | .ok (_, false) => .error .assertion

/-- Grow if needed. -/
def makeRoom (limit : Nat) (q : CircularArray α) (count : BitVec 32) :
    Except Failure (CircularArray α) :=
  if (count + 1).toNat ≥ q.implSize then q.grow limit else .ok q

/-- A push; false when the entry behind the last one is in use. -/
def pushAt (limit : Nat) (q : CircularArray α) (count qIn : BitVec 32) (x : α) :
    Except Failure (CircularArray α × Bool) :=
  match q.makeRoom limit count with
  | .error err => .error err
  | .ok q =>
      match q.get qIn.toNat true with
      | .error err => .error err
      | .ok (q, { ptr := .null, .. }) =>
          match q.casFromNull qIn.toNat x with
          | .error err => .error err
          | .ok (q, true) => .ok (q, true)
          | .ok (_, false) => .error .assertion
      | .ok (q, _) => .ok (q, false)

namespace Stores

variable {q : CircularArray α} {out : BitVec 32} {xs : List α} {x : α}

/-- What is there can be popped. -/
theorem popAt [DecidableEq α] (h : Stores q out (x :: xs)) :
    q.front out = .ok (some x) ∧ ∃ q', q.popAt out x = .ok q' ∧ Stores q' (out + 1) xs := by
  obtain ⟨q', hget, hcas, hstores⟩ := h.pop
  refine ⟨?_, q', ?_, hstores⟩
  · rw [front, hget]
  · rw [CircularArray.popAt, hcas]

/-- A push ends with the thing behind the last one, unless the memory is used up. -/
theorem pushAt {limit : Nat} (hlimit : limit ≤ 30) (h : Stores q out xs) {qIn : BitVec 32}
    (hin : qIn = out + BitVec.ofNat 32 xs.length) (x : α) :
    (∃ q', q.pushAt limit (qIn - out) qIn x = .ok (q', true) ∧ Stores q' out (xs ++ [x])) ∨
      q.pushAt limit (qIn - out) qIn x = .error .badAlloc ∧ 2 ^ limit ≤ xs.length + 1 := by
  have hbounded := h.bounded
  have hsize := h.implSize_le
  have hcount : qIn - out = BitVec.ofNat 32 xs.length := by
    rw [hin, BitVec.add_comm, BitVec.add_sub_cancel]
  have hnext : (qIn - out + 1).toNat = xs.length + 1 := by
    rw [hcount, BitVec.toNat_add, BitVec.toNat_ofNat]
    show (xs.length % 2 ^ 32 + 1) % 2 ^ 32 = xs.length + 1
    omega
  have hnth : qIn.toNat = nth out xs.length := by rw [hin, nth]
  have hfits : ∀ q1, q.makeRoom limit (qIn - out) = .ok q1 → Stores q1 out xs →
      xs.length + 1 < q1.implSize →
      ∃ q', q.pushAt limit (qIn - out) qIn x = .ok (q', true) ∧ Stores q' out (xs ++ [x]) := by
    intro q1 hmake hstores hroom
    obtain ⟨q2, q3, hget, hcas, hpushed, -⟩ := hstores.push x hroom
    refine ⟨q3, ?_, hpushed⟩
    simp [CircularArray.pushAt, hmake, hnth, hget, hcas]
  by_cases hfull : xs.length + 1 ≥ q.implSize
  · have hmake : q.makeRoom limit (qIn - out) = q.grow limit := by
      rw [makeRoom, hnext, if_pos hfull]
    rcases h.grow hlimit with ⟨q1, hgrow, hstores, hdouble⟩ | ⟨hfail, hlarge⟩
    · exact Or.inl (hfits q1 (hmake.trans hgrow) hstores (by omega))
    · refine Or.inr ⟨?_, hlarge.trans hfull⟩
      rw [CircularArray.pushAt, hmake, hfail]
  · have hmake : q.makeRoom limit (qIn - out) = .ok q := by
      rw [makeRoom, hnext, if_neg hfull]
    exact Or.inl (hfits q hmake h (by omega))

end Stores

end CircularArray

/-! ## The pool -/

/-- The two circular arrays; {lit}`evQIn` and {lit}`rsQIn` are the halves of the union
that is swapped as one word. -/
structure PoolEventList (E R : Type) where
  evQ : CircularArray E := .new
  rsQ : CircularArray R := .new
  evQOut : BitVec 32 := 0
  rsQOut : BitVec 32 := 0
  evQIn : BitVec 32 := 0
  rsQIn : BitVec 32 := 0

/-- The pool and the data pointers of its wrappers. -/
structure PoolState (E R : Type) where
  list : PoolEventList E R := {}
  data : E → Option R := fun _ => none

namespace PoolEventList

variable [DecidableEq E] [DecidableEq R]

/-- One turn of the loop of {lit}`acquire_or_wait`; true when a resource was there. -/
def acquireTurn (limit : Nat) (ev : E) (s : PoolState E R) : Turn Failure (PoolState E R) Bool :=
  let l := s.list
  let waiters := l.evQIn - l.evQOut
  let resources := l.rsQIn - l.rsQOut
  -- an unsigned difference is at most 0 when it is 0
  match if waiters = 0 ∧ resources ≠ 0 then l.rsQ.front l.rsQOut else .ok none with
  | .error err => .fail err
  | .ok (some resource) =>
      match l.rsQ.popAt l.rsQOut resource with
      | .error err => .fail err
      | .ok rsQ =>
          if (s.data ev).isNone then
            .done { list := { l with rsQ := rsQ, rsQOut := l.rsQOut + 1 },
                    data := Function.update s.data ev (some resource) } true
          else .fail .assertion
  | .ok none =>
      if resources = 0 then
        match l.evQ.pushAt limit waiters l.evQIn ev with
        | .error err => .fail err
        | .ok (evQ, true) =>
            .done { s with list := { l with evQ := evQ, evQIn := l.evQIn + 1 } } false
        | .ok (evQ, false) => .again { s with list := { l with evQ := evQ } }
      else .again s

/-- One turn of the loop of {lit}`release`, with the event that takes the resource. -/
def releaseTurn (limit : Nat) (resource : R) (s : PoolState E R) :
    Turn Failure (PoolState E R) (Option E) :=
  let l := s.list
  let waiters := l.evQIn - l.evQOut
  match if waiters ≠ 0 then l.evQ.front l.evQOut else .ok none with
  | .error err => .fail err
  | .ok (some evOut) =>
      match l.evQ.popAt l.evQOut evOut with
      | .error err => .fail err
      | .ok evQ =>
          if (s.data evOut).isNone then
            .done { list := { l with evQ := evQ, evQOut := l.evQOut + 1 },
                    data := Function.update s.data evOut (some resource) } (some evOut)
          else .fail .assertion
  | .ok none =>
      if waiters = 0 then
        match l.rsQ.pushAt limit (l.rsQIn - l.rsQOut) l.rsQIn resource with
        | .error err => .fail err
        | .ok (rsQ, true) =>
            .done { s with list := { l with rsQ := rsQ, rsQIn := l.rsQIn + 1 } } none
        | .ok (rsQ, false) => .again { s with list := { l with rsQ := rsQ } }
      else .again s

/-- A call of {lit}`acquire_or_wait` ends so. -/
def AcquireOrWait (limit : Nat) (s : PoolState E R) (ev : E)
    (r : Except Failure (PoolState E R × Bool)) : Prop :=
  Returns (acquireTurn limit ev) { s with data := Function.update s.data ev none } r

/-- A call of {lit}`release` by an event with a resource ends so. -/
def Release (limit : Nat) (s : PoolState E R) (byEv : E)
    (r : Except Failure (PoolState E R × Option E)) : Prop :=
  ∃ resource, s.data byEv = some resource ∧
    Returns (releaseTurn limit resource) { s with data := Function.update s.data byEv none } r

end PoolEventList

/-! ## The FIFO pool -/

/-- Two queues, and what each event holds. -/
structure FifoPool (E R : Type) where
  available : List R := []
  waiting : List E := []
  holds : E → Option R := fun _ => none

namespace FifoPool

/-- Where a resource can be. -/
inductive Place (E : Type) where
  | available
  | heldBy (e : E)
deriving DecidableEq

/-- The references at a place. -/
def contents (p : FifoPool E R) : Place E → List R
  | .available => p.available
  | .heldBy e => (p.holds e).toList

variable [DecidableEq E]

/-- Take the resource that has been available longest, or wait. -/
def acquire (p : FifoPool E R) (e : E) : FifoPool E R × Bool :=
  match p.available with
  | r :: rest => ({ p with available := rest, holds := Function.update p.holds e (some r) }, true)
  | [] => ({ p with waiting := p.waiting ++ [e] }, false)

/-- Give a resource to the event that has waited longest, or back to the pool. -/
def release (p : FifoPool E R) (e : E) (r : R) : FifoPool E R × Option E :=
  match p.waiting with
  | w :: rest =>
      ({ p with
          waiting := rest,
          holds := Function.update (Function.update p.holds e none) w (some r) }, some w)
  | [] =>
      ({ p with
          available := p.available ++ [r],
          holds := Function.update p.holds e none }, none)

end FifoPool

/-! ## What a call does to the two queues -/

/-- The state of a FIFO pool as the lock-free one has it. -/
structure Represents (s : PoolState E R) (p : FifoPool E R) : Prop where
  waiting : CircularArray.Stores s.list.evQ s.list.evQOut p.waiting
  evQIn : s.list.evQIn = s.list.evQOut + BitVec.ofNat 32 p.waiting.length
  available : CircularArray.Stores s.list.rsQ s.list.rsQOut p.available
  rsQIn : s.list.rsQIn = s.list.rsQOut + BitVec.ofNat 32 p.available.length
  data : s.data = p.holds
  apart : p.waiting = [] ∨ p.available = []
  nodup : p.waiting.Nodup
  holdsNone : ∀ e ∈ p.waiting, p.holds e = none

namespace Represents

open CircularArray PoolEventList

variable {s : PoolState E R} {p : FifoPool E R}

/-- A difference of indices is null when the queue is empty. -/
theorem sub_eq_zero_iff {α : Type} {q : CircularArray α} {xs : List α} {qIn out : BitVec 32}
    (h : Stores q out xs) (hin : qIn = out + BitVec.ofNat 32 xs.length) :
    qIn - out = 0 ↔ xs = [] := by
  have hbounded := h.bounded
  have hsize := h.implSize_le
  rw [hin, BitVec.add_comm, BitVec.add_sub_cancel, ← List.length_eq_zero_iff]
  constructor
  · intro hzero
    have hnat := congrArg BitVec.toNat hzero
    rw [BitVec.toNat_ofNat] at hnat
    change xs.length % 2 ^ 32 = 0 at hnat
    omega
  · intro hzero
    rw [hzero]
    rfl

/-- The index behind a push. -/
theorem index_succ {α : Type} {xs : List α} {qIn out : BitVec 32} (x : α)
    (hin : qIn = out + BitVec.ofNat 32 xs.length) :
    qIn + 1 = out + BitVec.ofNat 32 (xs ++ [x]).length := by
  rw [hin, List.length_append, List.length_singleton, BitVec.ofNat_add, ← BitVec.add_assoc]
  rfl

/-- The index behind a pop. -/
theorem index_tail {α : Type} {x : α} {xs : List α} {qIn out : BitVec 32}
    (hin : qIn = out + BitVec.ofNat 32 (x :: xs).length) :
    qIn = out + 1 + BitVec.ofNat 32 xs.length := by
  rw [hin, List.length_cons, Nat.add_comm, BitVec.ofNat_add, ← BitVec.add_assoc]
  rfl

/-- The new list is the empty pool. -/
theorem empty : Represents ({} : PoolState E R) {} where
  waiting := .new
  evQIn := rfl
  available := .new
  rsQIn := rfl
  data := rfl
  apart := Or.inl rfl
  nodup := List.nodup_nil
  holdsNone _ h := nomatch h

variable [DecidableEq E] [DecidableEq R] {limit : Nat}

/-- An event without a resource is put into a waiting state or gets the first resource;
only the memory can run out. -/
theorem acquireOrWait (hlimit : limit ≤ 30) (h : Represents s p) {ev : E}
    (hnone : s.data ev = none) (hnot : ev ∉ p.waiting) :
    (∃ t, AcquireOrWait limit s ev (.ok (t, (p.acquire ev).2)) ∧
      Represents t (p.acquire ev).1) ∨
    AcquireOrWait limit s ev (.error .badAlloc) ∧ 2 ^ limit ≤ p.waiting.length + 1 := by
  have hsame : ({ s with data := Function.update s.data ev none } : PoolState E R) = s := by
    rw [← hnone, Function.update_eq_self]
  simp only [AcquireOrWait, hsame]
  cases havailable : p.available with
  | cons r rest =>
      have hwaiting : p.waiting = [] := by
        rcases h.apart with hempty | hempty
        · exact hempty
        · rw [havailable] at hempty
          cases hempty
      have hstores := h.available
      have hin := h.rsQIn
      rw [havailable] at hstores hin
      obtain ⟨hfront, q', hpop, hpopped⟩ := hstores.popAt
      have hwaiters := (sub_eq_zero_iff h.waiting h.evQIn).mpr hwaiting
      have hresources := mt (sub_eq_zero_iff hstores hin).mp (List.cons_ne_nil r rest)
      refine Or.inl ⟨{
        list := { s.list with rsQ := q', rsQOut := s.list.rsQOut + 1 },
        data := Function.update s.data ev (some r) }, ?_, ?_⟩
      · apply Returns.done
        simp only [acquireTurn, ne_eq, hwaiters, hresources, not_false_eq_true, and_self, if_true,
          hfront, hpop, hnone, FifoPool.acquire, havailable]
        simp
      · simp only [FifoPool.acquire, havailable]
        exact ⟨h.waiting, h.evQIn, hpopped, index_tail hin, by rw [h.data], Or.inl hwaiting,
          h.nodup, fun e he => by simp [hwaiting] at he⟩
  | nil =>
      have hstores := h.available
      have hresources := (sub_eq_zero_iff h.available h.rsQIn).mpr havailable
      have hturn : acquireTurn limit ev s =
          match s.list.evQ.pushAt limit (s.list.evQIn - s.list.evQOut) s.list.evQIn ev with
          | .error err => .fail err
          | .ok (evQ, true) =>
              .done { s with list := { s.list with evQ := evQ, evQIn := s.list.evQIn + 1 } } false
          | .ok (evQ, false) => .again { s with list := { s.list with evQ := evQ } } := by
        simp [acquireTurn, hresources]
      rcases h.waiting.pushAt hlimit h.evQIn ev with ⟨q', hpush, hpushed⟩ | ⟨hfail, hlarge⟩
      · refine Or.inl ⟨{ s with list := { s.list with evQ := q', evQIn := s.list.evQIn + 1 } },
          ?_, ?_⟩
        · apply Returns.done
          rw [hturn, hpush]
          simp [FifoPool.acquire, havailable]
        · simp only [FifoPool.acquire, havailable]
          refine ⟨hpushed, index_succ ev h.evQIn, ?_, ?_, h.data, Or.inr rfl, ?_, fun e he => ?_⟩
          · simpa [havailable] using h.available
          · simpa [havailable] using h.rsQIn
          · exact List.nodup_append.mpr ⟨h.nodup, List.nodup_singleton ev, fun a ha b hb => by
              rw [List.mem_singleton.mp hb]
              exact fun heq => hnot (heq ▸ ha)⟩
          · rcases List.mem_append.mp he with hold | hnew
            · exact h.holdsNone e hold
            · rw [List.mem_singleton.mp hnew, ← h.data]
              exact hnone
      · refine Or.inr ⟨Returns.fail ?_, hlarge⟩
        rw [hturn, hfail]

omit [DecidableEq R] in
/-- A resource goes to the first waiting event or back into the pool; only the memory can
run out. -/
theorem release (hlimit : limit ≤ 30) (h : Represents s p) {byEv : E} {r : R}
    (hdata : s.data byEv = some r) :
    (∃ t, Release limit s byEv (.ok (t, (p.release byEv r).2)) ∧
      Represents t (p.release byEv r).1) ∨
    Release limit s byEv (.error .badAlloc) ∧ 2 ^ limit ≤ p.available.length + 1 := by
  have hkept : ∀ e ∈ p.waiting, Function.update s.data byEv none e = none := by
    intro e he
    by_cases heq : e = byEv
    · simp [heq]
    · rw [Function.update_of_ne heq, h.data]
      exact h.holdsNone e he
  cases hwaiting : p.waiting with
  | cons w rest =>
      have havailable : p.available = [] := by
        rcases h.apart with hempty | hempty
        · rw [hwaiting] at hempty
          cases hempty
        · exact hempty
      have hstores := h.waiting
      have hin := h.evQIn
      rw [hwaiting] at hstores hin
      obtain ⟨hfront, q', hpop, hpopped⟩ := hstores.popAt
      have hwaiters := mt (sub_eq_zero_iff hstores hin).mp (List.cons_ne_nil w rest)
      have hnone := hkept w (by simp [hwaiting])
      have hnodup := h.nodup
      rw [hwaiting, List.nodup_cons] at hnodup
      refine Or.inl ⟨{
        list := { s.list with evQ := q', evQOut := s.list.evQOut + 1 },
        data := Function.update (Function.update s.data byEv none) w (some r) },
        ⟨r, hdata, ?_⟩, ?_⟩
      · apply Returns.done
        simp only [releaseTurn, ne_eq, hwaiters, not_false_eq_true, if_true, hfront, hpop, hnone,
          FifoPool.release, hwaiting]
        simp
      · simp only [FifoPool.release, hwaiting]
        refine ⟨hpopped, index_tail hin, ?_, ?_, by rw [h.data], Or.inr havailable, hnodup.2,
          fun e he => ?_⟩
        · simpa [havailable] using h.available
        · simpa [havailable] using h.rsQIn
        · have hne : e ≠ w := fun heq => hnodup.1 (heq ▸ he)
          show Function.update (Function.update p.holds byEv none) w (some r) e = none
          rw [Function.update_of_ne hne, ← h.data]
          exact hkept e (by simpa [hwaiting] using Or.inr he)
  | nil =>
      have hwaiters := (sub_eq_zero_iff h.waiting h.evQIn).mpr hwaiting
      have hturn : ∀ data : E → Option R, releaseTurn limit r { s with data := data } =
          match s.list.rsQ.pushAt limit (s.list.rsQIn - s.list.rsQOut) s.list.rsQIn r with
          | .error err => .fail err
          | .ok (rsQ, true) =>
              .done { list := { s.list with rsQ := rsQ, rsQIn := s.list.rsQIn + 1 },
                      data := data } none
          | .ok (rsQ, false) => .again { list := { s.list with rsQ := rsQ }, data := data } := by
        intro data
        simp [releaseTurn, hwaiters]
      rcases h.available.pushAt hlimit h.rsQIn r with ⟨q', hpush, hpushed⟩ | ⟨hfail, hlarge⟩
      · refine Or.inl ⟨{
          list := { s.list with rsQ := q', rsQIn := s.list.rsQIn + 1 },
          data := Function.update s.data byEv none }, ⟨r, hdata, ?_⟩, ?_⟩
        · apply Returns.done
          rw [hturn, hpush]
          simp [FifoPool.release, hwaiting]
        · simp only [FifoPool.release, hwaiting]
          refine ⟨?_, ?_, hpushed, index_succ r h.rsQIn, by rw [h.data], Or.inl rfl,
            List.nodup_nil, fun e he => nomatch he⟩
          · simpa [hwaiting] using h.waiting
          · simpa [hwaiting] using h.evQIn
      · refine Or.inr ⟨⟨r, hdata, Returns.fail ?_⟩, hlarge⟩
        rw [hturn, hfail]

end Represents

/-! ## Sequences of calls -/

/-- A resource is put in through the wrapper of an initializer, an event asks for one, or
gives its own back. -/
inductive PoolCall (E R : Type) where
  | insert (e : E) (r : R)
  | acquire (e : E)
  | release (e : E)

/-- What a call on the pool returns. -/
inductive PoolAnswer (E : Type) where
  | inserted
  | granted (res : Bool)
  | released (taker : Option E)
deriving DecidableEq

/-- The pool in use.  History variables: the events that were told to wait and not yet
handed a resource, and the resources that were put in. -/
structure PoolUse (E R : Type) where
  pool : PoolState E R := {}
  waits : E → Bool := fun _ => false
  filled : List R := []

/-- The event neither has a resource nor waits for one. -/
def PoolUse.Idle (s : PoolUse E R) (e : E) : Prop :=
  s.pool.data e = none ∧ s.waits e = false

variable [DecidableEq E] [DecidableEq R]

/-- The calls on the pool that return; only idle events ask, and only an event with a
resource releases. -/
def PoolEventList.machine (limit : Nat) (E R : Type) [DecidableEq E] [DecidableEq R] :
    Machine (PoolUse E R) (PoolCall E R) (PoolAnswer E) where
  init s := s = {}
  call s k a t :=
    match k with
    | .insert e r => s.Idle e ∧ r ∉ s.filled ∧ a = .inserted ∧ t = { s with
        pool := { s.pool with data := Function.update s.pool.data e (some r) },
        filled := r :: s.filled }
    | .acquire e => s.Idle e ∧ ∃ pool res, AcquireOrWait limit s.pool e (.ok (pool, res)) ∧
        a = .granted res ∧ t = { s with
          pool := pool,
          waits := Function.update s.waits e (!res) }
    | .release e => ∃ pool taker, Release limit s.pool e (.ok (pool, taker)) ∧
        a = .released taker ∧ t = { s with
          pool := pool,
          waits := match taker with
            | some w => Function.update s.waits w false
            | none => s.waits }

namespace FifoPool

/-- The event neither has a resource nor waits for one. -/
def Idle (p : FifoPool E R) (e : E) : Prop :=
  p.holds e = none ∧ e ∉ p.waiting

/-- The answer of a FIFO pool to a call, and the pool after it. -/
def next (p : FifoPool E R) : PoolCall E R → PoolAnswer E × FifoPool E R
  | .insert e r => (.inserted, { p with holds := Function.update p.holds e (some r) })
  | .acquire e => (.granted (p.acquire e).2, (p.acquire e).1)
  | .release e =>
      match p.holds e with
      | some r => (.released (p.release e r).2, (p.release e r).1)
      | none => (.released none, p)

/-- The pool after some calls. -/
def after (p : FifoPool E R) (calls : List (PoolCall E R)) : FifoPool E R :=
  calls.foldl (fun p k => (p.next k).2) p

/-- Only idle events ask, a resource is put in once, and an event with a resource releases it. -/
def Allowed (p : FifoPool E R) : PoolCall E R → Prop
  | .insert e r => p.Idle e ∧ ∀ place, r ∉ p.contents place
  | .acquire e => p.Idle e
  | .release e => p.holds e ≠ none

/-- An array of 2^30 entries, which is the largest one, has room behind what is stored. -/
def Fits (p : FifoPool E R) : PoolCall E R → Prop
  | .insert _ _ => True
  | .acquire _ => p.waiting.length + 1 < 2 ^ 30
  | .release _ => p.available.length + 1 < 2 ^ 30

/-- No event waits while a resource is available, and each resource that was put in is available
once or held by one event. -/
structure Conserves (p : FifoPool E R) (filled : List R) : Prop where
  apart : p.waiting = [] ∨ p.available = []
  once : ∀ r ∈ filled, ∃! place, r ∈ p.contents place
  nodup : ∀ place, (p.contents place).Nodup
  filled : ∀ place, ∀ r ∈ p.contents place, r ∈ filled

end FifoPool

/-- The pool returns from every call with the answer of a FIFO pool, has its queues and its
holders then, and has kept its resources. -/
def PoolEventList.AnswersFifoPool (calls : List (PoolCall E R)) : Prop :=
  ∃ s, (PoolEventList.machine 30 E R).Trace {} (Machine.traceOf FifoPool.next {} calls) s ∧
    Represents s.pool (FifoPool.after {} calls) ∧ (FifoPool.after {} calls).Conserves s.filled

/-- What every sequence of calls keeps. -/
structure PoolUse.Invariant (s : PoolUse E R) (p : FifoPool E R) : Prop where
  represents : Represents s.pool p
  waits : ∀ e, s.waits e = true ↔ e ∈ p.waiting
  located : ∃ place, Located p.contents place ∧ ∀ r, place r ≠ none ↔ r ∈ s.filled

/-! ## Where the resources are -/

namespace FifoPool

variable {p : FifoPool E R} {place : R → Option (Place E)} {e : E} {r : R}

/-- An insertion keeps the references located. -/
theorem located_insert (h : Located p.contents place) (hnone : p.holds e = none)
    (hr : place r = none) :
    Located ({ p with holds := Function.update p.holds e (some r) } : FifoPool E R).contents
      (Function.update place r (some (.heldBy e))) := by
  refine h.enter hr ?_ fun q hq => ?_
  · simp [contents, hnone]
  · cases q with
    | available => exact List.Perm.refl _
    | heldBy e' =>
        have hne : e' ≠ e := fun heq => hq (by rw [heq])
        simp [contents, hne]

/-- An acquire keeps the references located. -/
theorem located_acquire (h : Located p.contents place) (hnone : p.holds e = none) :
    ∃ place', Located (p.acquire e).1.contents place' ∧
      ∀ r, place' r ≠ none ↔ place r ≠ none := by
  cases havailable : p.available with
  | nil =>
      refine ⟨place, h.congr fun q => ?_, fun _ => Iff.rfl⟩
      cases q <;> simp [contents, acquire, havailable]
  | cons r rest =>
      have hat : place r = some .available := h.mem_iff.mp (by simp [contents, havailable])
      refine ⟨_, h.move (x := r) (p := .available) (q := .heldBy e) (by simp) ?_ ?_
        fun q hq hqe => ?_, fun r' => ?_⟩
      · simp [contents, acquire, havailable]
      · simp [contents, acquire, havailable, hnone]
      · cases q with
        | available => exact absurd rfl hq
        | heldBy e' =>
            have hne : e' ≠ e := fun heq => hqe (by rw [heq])
            simp [contents, acquire, havailable, hne]
      · by_cases hr : r' = r <;> simp [hr, hat]

/-- A release keeps the references located. -/
theorem located_release (h : Located p.contents place) (hheld : p.holds e = some r)
    (hnone : ∀ w ∈ p.waiting, p.holds w = none) :
    ∃ place', Located (p.release e r).1.contents place' ∧
      ∀ r, place' r ≠ none ↔ place r ≠ none := by
  have hat : place r = some (.heldBy e) := h.mem_iff.mp (by simp [contents, hheld])
  have hstays : ∀ r' (q : Place E),
      (if r' ∈ [r] then some q else place r') ≠ none ↔ place r' ≠ none := by
    intro r' q
    by_cases hr : r' = r <;> simp [hr, hat]
  cases hwaiting : p.waiting with
  | nil =>
      refine ⟨_, h.move (x := r) (p := .heldBy e) (q := .available) (by simp) ?_ ?_
        fun q hq hqa => ?_, fun r' => hstays r' _⟩
      · simp [contents, release, hwaiting, hheld]
      · simp only [contents, release, hwaiting]
        exact List.perm_append_singleton r _
      · cases q with
        | available => exact absurd rfl hqa
        | heldBy e' =>
            have hne : e' ≠ e := fun heq => hq (by rw [heq])
            simp [contents, release, hwaiting, hne]
  | cons w rest =>
      have hw : p.holds w = none := hnone w (by simp [hwaiting])
      have hne : e ≠ w := fun heq => by
        rw [heq, hw] at hheld
        cases hheld
      refine ⟨_, h.move (x := r) (p := .heldBy e) (q := .heldBy w) (by simpa using hne) ?_ ?_
        fun q hq hqw => ?_, fun r' => hstays r' _⟩
      · simp [contents, release, hwaiting, hheld, hne]
      · simp [contents, release, hwaiting, hw]
      · cases q with
        | available => simp [contents, release, hwaiting]
        | heldBy e' =>
            have he : e' ≠ e := fun heq => hq (by rw [heq])
            have hw' : e' ≠ w := fun heq => hqw (by rw [heq])
            simp [contents, release, hwaiting, he, hw']

end FifoPool

namespace PoolUse.Invariant

variable {s t : PoolUse E R} {p : FifoPool E R} {k : PoolCall E R} {a : PoolAnswer E}
  {limit : Nat}

/-- An idle event does not wait. -/
theorem not_mem_waiting (h : s.Invariant p) {e : E} (hidle : s.Idle e) : e ∉ p.waiting := by
  intro hmem
  rw [← h.waits e, hidle.2] at hmem
  cases hmem

/-- A filled reference is one more in the pool. -/
theorem insert (h : s.Invariant p) {e : E} {r : R}
    (hcall : (PoolEventList.machine 30 E R).call s (.insert e r) a t) :
    a = (p.next (.insert e r)).1 ∧ t.Invariant (p.next (.insert e r)).2 := by
  obtain ⟨place, hlocated, hplace⟩ := h.located
  obtain ⟨hidle, hnew, rfl, rfl⟩ := hcall
  have hnone : p.holds e = none := by
    rw [← h.represents.data]
    exact hidle.1
  have hnowhere : place r = none := by
    by_contra hsome
    exact hnew ((hplace r).mp hsome)
  refine ⟨rfl, ⟨h.represents.waiting, h.represents.evQIn, h.represents.available,
    h.represents.rsQIn, ?_, h.represents.apart, h.represents.nodup,
    fun w hw => ?_⟩, h.waits, _, FifoPool.located_insert hlocated hnone hnowhere,
    fun r' => ?_⟩
  · exact congrArg (Function.update · e (some r)) h.represents.data
  · have hne : w ≠ e := fun heq => h.not_mem_waiting hidle (heq ▸ hw)
    show Function.update p.holds e (some r) w = none
    rw [Function.update_of_ne hne]
    exact h.represents.holdsNone w hw
  · by_cases hr : r' = r
    · simp [hr]
    · simp [hr, ← hplace r']

/-- An acquire that returns answers as that of the FIFO pool. -/
theorem acquire (h : s.Invariant p) {e : E}
    (hcall : (PoolEventList.machine 30 E R).call s (.acquire e) a t) :
    a = (p.next (.acquire e)).1 ∧ t.Invariant (p.next (.acquire e)).2 := by
  obtain ⟨place, hlocated, hplace⟩ := h.located
  obtain ⟨hidle, pool, res, hreturns, rfl, rfl⟩ := hcall
  have hnot := h.not_mem_waiting hidle
  have hnone : p.holds e = none := by
    rw [← h.represents.data]
    exact hidle.1
  rcases h.represents.acquireOrWait le_rfl hidle.1 hnot with
    ⟨pool', hreturns', hrepresents⟩ | ⟨hfails, -⟩
  · cases hreturns.unique hreturns'
    obtain ⟨place', hlocated', hsame⟩ := FifoPool.located_acquire hlocated hnone
    refine ⟨rfl, hrepresents, fun e' => ?_, place', hlocated',
      fun r => (hsame r).trans (hplace r)⟩
    by_cases he : e' = e
    · subst he
      cases havailable : p.available <;>
        simp [FifoPool.next, FifoPool.acquire, havailable, hnot]
    · have hold := h.waits e'
      cases havailable : p.available <;>
        simp [FifoPool.next, FifoPool.acquire, havailable, he, hold]
  · cases hreturns.unique hfails

/-- A release that returns answers as that of the FIFO pool. -/
theorem release (h : s.Invariant p) {e : E}
    (hcall : (PoolEventList.machine 30 E R).call s (.release e) a t) :
    a = (p.next (.release e)).1 ∧ t.Invariant (p.next (.release e)).2 := by
  obtain ⟨place, hlocated, hplace⟩ := h.located
  obtain ⟨pool, taker, ⟨r, hdata, hreturns⟩, rfl, rfl⟩ := hcall
  have hheld : p.holds e = some r := by
    rw [← h.represents.data]
    exact hdata
  rw [FifoPool.next, hheld]
  rcases h.represents.release le_rfl hdata with
    ⟨pool', ⟨r', hdata', hreturns'⟩, hrepresents⟩ | ⟨⟨r', hdata', hfails⟩, -⟩
  · cases hdata.symm.trans hdata'
    cases hreturns.unique hreturns'
    obtain ⟨place', hlocated', hsame⟩ :=
      FifoPool.located_release hlocated hheld h.represents.holdsNone
    refine ⟨rfl, hrepresents, fun e' => ?_, place', hlocated',
      fun r => (hsame r).trans (hplace r)⟩
    have hold := h.waits e'
    cases hwaiting : p.waiting with
    | nil => simpa [FifoPool.release, hwaiting] using hold
    | cons w rest =>
        have hnodup := h.represents.nodup
        rw [hwaiting, List.nodup_cons] at hnodup
        by_cases he : e' = w
        · subst he
          simp [FifoPool.release, hwaiting, hnodup.1]
        · simpa [FifoPool.release, hwaiting, he] using hold
  · cases hdata.symm.trans hdata'
    cases hreturns.unique hfails

/-- A call that returns answers as the FIFO pool does. -/
theorem step (h : s.Invariant p) (hcall : (PoolEventList.machine 30 E R).call s k a t) :
    a = (p.next k).1 ∧ t.Invariant (p.next k).2 := by
  cases k with
  | insert e r => exact h.insert hcall
  | acquire e => exact h.acquire hcall
  | release e => exact h.release hcall

/-- A pool that has its resources keeps them. -/
theorem conserves (h : s.Invariant p) : p.Conserves s.filled := by
  obtain ⟨place, hlocated, hplace⟩ := h.located
  refine ⟨h.represents.apart, fun r hr => hlocated.existsUnique ((hplace r).mpr hr),
    hlocated.nodup, fun q r hr => (hplace r).mp ?_⟩
  rw [hlocated.mem_iff.mp hr]
  exact Option.some_ne_none q

/-- Both pools have the same idle events. -/
theorem idle_iff (h : s.Invariant p) {e : E} : s.Idle e ↔ p.Idle e := by
  rw [PoolUse.Idle, FifoPool.Idle, h.represents.data, ← h.waits e, Bool.not_eq_true]

/-- The references of the pool are somewhere in it. -/
theorem mem_filled_iff (h : s.Invariant p) {r : R} :
    r ∈ s.filled ↔ ∃ place, r ∈ p.contents place := by
  obtain ⟨place, hlocated, hplace⟩ := h.located
  rw [← hplace r, Option.ne_none_iff_exists']
  simp only [hlocated.mem_iff]

/-- What is stored behind a call found room. -/
theorem fits (h : s.Invariant p) (hcall : (PoolEventList.machine 30 E R).call s k a t) :
    p.Fits k := by
  have hafter := (h.step hcall).2.represents
  have hwaiting := hafter.waiting.bounded
  have hwaitingSize := hafter.waiting.implSize_le
  have havailable := hafter.available.bounded
  have havailableSize := hafter.available.implSize_le
  cases k with
  | insert e r => trivial
  | acquire e =>
      rw [FifoPool.Fits]
      rcases h.represents.apart with hnone | hnone
      · simp [hnone]
      · simp only [FifoPool.next, FifoPool.acquire, hnone, List.length_append,
          List.length_singleton] at hwaiting
        omega
  | release e =>
      obtain ⟨-, -, ⟨r, hdata, -⟩, -⟩ := hcall
      rw [FifoPool.Fits]
      rcases h.represents.apart with hnone | hnone
      · rw [h.represents.data] at hdata
        simp only [FifoPool.next, hdata, FifoPool.release, hnone, List.length_append,
          List.length_singleton] at havailable
        omega
      · simp [hnone]

/-- The calls that return are those that may be made and fit. -/
theorem exists_call_iff (h : s.Invariant p) :
    (∃ a t, (PoolEventList.machine 30 E R).call s k a t) ↔ p.Allowed k ∧ p.Fits k := by
  constructor
  · rintro ⟨a, t, hcall⟩
    refine ⟨?_, h.fits hcall⟩
    cases k with
    | insert e r =>
        refine ⟨h.idle_iff.mp hcall.1, fun place hr => hcall.2.1 ?_⟩
        exact h.mem_filled_iff.mpr ⟨place, hr⟩
    | acquire e => exact h.idle_iff.mp hcall.1
    | release e =>
        obtain ⟨-, -, ⟨r, hdata, -⟩, -⟩ := hcall
        rw [h.represents.data] at hdata
        rw [FifoPool.Allowed, hdata]
        exact Option.some_ne_none r
  · rintro ⟨hallowed, hfits⟩
    cases k with
    | insert e r =>
        refine ⟨_, _, h.idle_iff.mpr hallowed.1, fun hr => ?_, rfl, rfl⟩
        obtain ⟨place, hplace⟩ := h.mem_filled_iff.mp hr
        exact hallowed.2 place hplace
    | acquire e =>
        have hidle := h.idle_iff.mpr hallowed
        rcases h.represents.acquireOrWait le_rfl hidle.1 hallowed.2 with
          ⟨pool, hreturns, -⟩ | ⟨-, hlarge⟩
        · exact ⟨_, _, hidle, pool, _, hreturns, rfl, rfl⟩
        · exact absurd hfits (Nat.not_lt.mpr hlarge)
    | release e =>
        obtain ⟨r, hr⟩ := Option.ne_none_iff_exists'.mp hallowed
        rw [← h.represents.data] at hr
        rcases h.represents.release le_rfl hr with ⟨pool, hreturns, -⟩ | ⟨-, hlarge⟩
        · exact ⟨_, _, pool, _, hreturns, rfl, rfl⟩
        · exact absurd hfits (Nat.not_lt.mpr hlarge)

end PoolUse.Invariant

namespace PoolEventList

/-- The list has one answer to each call. -/
theorem machine_deterministic (limit : Nat) : (machine limit E R).Deterministic := by
  intro s k a b t u ha hb
  cases k with
  | insert e r =>
      obtain ⟨-, -, rfl, rfl⟩ := ha
      obtain ⟨-, -, rfl, rfl⟩ := hb
      exact ⟨rfl, rfl⟩
  | acquire e =>
      obtain ⟨-, pool, res, hreturns, rfl, rfl⟩ := ha
      obtain ⟨-, pool', res', hreturns', rfl, rfl⟩ := hb
      cases hreturns.unique hreturns'
      exact ⟨rfl, rfl⟩
  | release e =>
      obtain ⟨pool, taker, ⟨r, hdata, hreturns⟩, rfl, rfl⟩ := ha
      obtain ⟨pool', taker', ⟨r', hdata', hreturns'⟩, rfl, rfl⟩ := hb
      cases hdata.symm.trans hdata'
      cases hreturns.unique hreturns'
      exact ⟨rfl, rfl⟩

theorem invariant_empty :
    PoolUse.Invariant ({} : PoolUse E R) {} := by
  refine ⟨.empty, by simp, fun _ => none, fun r place => ?_, by simp⟩
  cases place <;> simp [FifoPool.contents]

/-- The calls of a sequence return as those of a FIFO pool exactly when each of them may be made
and fits. -/
theorem exists_trace_iff {calls : List (PoolCall E R)} :
    (∃ s, (machine 30 E R).Trace {} (Machine.traceOf FifoPool.next {} calls) s) ↔
      TransitionSystem.AllAllowed (fun p k => FifoPool.Allowed p k ∧ FifoPool.Fits p k)
        (fun p k => (FifoPool.next p k).2) {} calls := by
  refine Machine.exists_trace_iff (R := fun _ s p => PoolUse.Invariant s p)
    (machine_deterministic 30) ?_ ?_ invariant_empty le_rfl
  · intro n s p k hR hfits
    obtain ⟨a, t, hcall⟩ := hR.exists_call_iff.mpr hfits
    obtain ⟨rfl, ht⟩ := hR.step hcall
    exact ⟨t, hcall, ht⟩
  · intro n s p k t hR hno hcall
    exact hno (hR.exists_call_iff.mp ⟨_, t, hcall⟩)

/-- The lock-free pool is a FIFO pool for a sequence of calls if and only if each call to acquire
finds fewer than 2^30 - 1 events waiting and each release fewer than 2^30 - 1 resources available. -/
theorem answersFifoPool_iff {calls : List (PoolCall E R)}
    (hallowed : TransitionSystem.AllAllowed FifoPool.Allowed
      (fun p k => (FifoPool.next p k).2) {} calls) :
    AnswersFifoPool calls ↔ TransitionSystem.AllAllowed FifoPool.Fits
      (fun p k => (FifoPool.next p k).2) {} calls := by
  constructor
  · rintro ⟨s, htrace, -⟩
    exact (TransitionSystem.allAllowed_and.mp (exists_trace_iff.mp ⟨s, htrace⟩)).2
  · intro hfits
    obtain ⟨s, htrace⟩ :=
      exists_trace_iff.mpr (TransitionSystem.allAllowed_and.mpr ⟨hallowed, hfits⟩)
    have hinv : s.Invariant (FifoPool.after {} calls) :=
      htrace.related (fun hR hcall => (hR.step hcall).2) invariant_empty
    exact ⟨s, htrace, hinv.represents, hinv.conserves⟩

/-- A resource is put in, taken by one event and handed on to the next one. -/
def handOverCalls : List (PoolCall Nat Nat) :=
  [.insert 0 7, .release 0, .acquire 1, .acquire 2, .release 1]

theorem answersFifoPool_iff_handOver :
    Machine.traceOf FifoPool.next {} handOverCalls = [
      (.insert 0 7, .inserted), (.release 0, .released none), (.acquire 1, .granted true),
      (.acquire 2, .granted false), (.release 1, .released (some 2))] ∧
    AnswersFifoPool handOverCalls := by
  refine ⟨rfl, (answersFifoPool_iff ?_).mpr ?_⟩
  · simp [TransitionSystem.AllAllowed, FifoPool.Allowed, FifoPool.next, FifoPool.Idle,
      FifoPool.acquire, FifoPool.release, handOverCalls]
    rintro (_ | _) <;> simp [FifoPool.contents]
  · simp [TransitionSystem.AllAllowed, FifoPool.Fits, FifoPool.next, FifoPool.acquire,
      FifoPool.release, handOverCalls]

/-! ## Too many waiting events -/

section Waiting

variable {p : FifoPool E R} {es : List E}

omit [DecidableEq R] in
/-- Events that all wait may ask one after another. -/
theorem allAllowed_acquire (havailable : p.available = []) (hidle : ∀ e ∈ es, p.Idle e)
    (hes : es.Nodup) :
    TransitionSystem.AllAllowed FifoPool.Allowed (fun p k => (FifoPool.next p k).2) p
      (es.map PoolCall.acquire) := by
  induction es generalizing p with
  | nil => trivial
  | cons e es ih =>
      rw [List.nodup_cons] at hes
      refine ⟨hidle e List.mem_cons_self, ih ?_ (fun e' he' => ?_) hes.2⟩
      · simp [FifoPool.next, FifoPool.acquire, havailable]
      · have hne : e' ≠ e := fun heq => hes.1 (heq ▸ he')
        have hold := hidle e' (List.mem_cons_of_mem _ he')
        simpa [FifoPool.next, FifoPool.acquire, FifoPool.Idle, havailable, hne] using hold

omit [DecidableEq R] in
/-- Acquires that fit leave room among the waiting. -/
theorem length_lt_of_fits (havailable : p.available = [])
    (h : TransitionSystem.AllAllowed FifoPool.Fits (fun p k => (FifoPool.next p k).2) p
      (es.map PoolCall.acquire)) (hes : es ≠ []) : p.waiting.length + es.length < 2 ^ 30 := by
  induction es generalizing p with
  | nil => exact absurd rfl hes
  | cons e es ih =>
      obtain ⟨hfits, hrest⟩ := h
      cases es with
      | nil => exact hfits
      | cons e' es =>
          have hlt := ih (by simp [FifoPool.next, FifoPool.acquire, havailable]) hrest (by simp)
          simp only [FifoPool.next, FifoPool.acquire, havailable, List.length_append,
            List.length_cons] at hlt ⊢
          omega

end Waiting

/-- The 2^30-th event that asks an empty pool cannot be put into the queue. -/
theorem exists_not_answersFifoPool :
    ∃ calls : List (PoolCall Nat Nat), TransitionSystem.AllAllowed FifoPool.Allowed
      (fun p k => (FifoPool.next p k).2) {} calls ∧ ¬ AnswersFifoPool calls := by
  obtain ⟨es, hnodup, hlen⟩ : ∃ es : List Nat, es.Nodup ∧ es.length = 2 ^ 30 :=
    ⟨List.range (2 ^ 30), List.nodup_range, List.length_range⟩
  have hallowed := allAllowed_acquire (p := ({} : FifoPool Nat Nat)) rfl
    (fun e _ => ⟨rfl, List.not_mem_nil⟩) hnodup
  refine ⟨es.map PoolCall.acquire, hallowed, ?_⟩
  rintro ⟨s, htrace, -⟩
  have hfits := (TransitionSystem.allAllowed_and.mp (exists_trace_iff.mp ⟨s, htrace⟩)).2
  have hne : es ≠ [] := by
    rintro rfl
    cases hlen
  have hlt := length_lt_of_fits rfl hfits hne
  rw [hlen] at hlt
  exact absurd hlt (by simp)

end PoolEventList

end Lockfree
end OFlux
