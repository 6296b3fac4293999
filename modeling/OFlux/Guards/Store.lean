import OFlux.Guards.Atomic
import Mathlib.Order.Lattice
import Mathlib.Logic.Function.Basic

/-!
# Guards, guard references and the store

The memory that the guards of a flow live in: the atomic maps with the atomics
that they have made, the pools with their wrappers, and for every event the
atomics holder with one held atomic for each guard reference of its node.

The guard translator functions are generated code; they are parameters.  One of
them maps the input of the event and the data of the guards that the event already
refers to, to the key, or says that the guard is not to be acquired.

Main results:

- Theorem {lit}`WellFormed.getAtomic`: a lookup in an atomic map gives an atomic
  that was made for that guard and key.
- Theorem {lit}`queue_acquireAtomic`, {lit}`queue_releaseAtomic`: what a request
  and a release do to the queues.
-/

namespace OFlux
namespace Guards

/-- Guards are numbered. -/
abbrev GuardId := Nat
/-- Atomics are numbered as they are allocated. -/
abbrev AtomicId := Nat
/-- Wrappers are numbered as they are allocated. -/
abbrev PooledId := Nat

variable {I K D : Type}

/-! ## Guards and references -/

/-- What an atomic map does with a key: nothing, look it up, or take a wrapper. -/
inductive AtomicMapKind where
  | trivial (atom : AtomicId)
  | std (cls : AtomicClass)
  | pool
deriving DecidableEq

/-- {lit}`Guard`: its magic number, its map and whether its atomics are collected. -/
structure Guard where
  magicNumber : Nat
  amap : AtomicMapKind
  isGC : Bool

/-- {lit}`GuardReference`: which guard, how the key comes from the input and from earlier guards,
the mode, and its place in the source of the node. -/
structure GuardReference (I K D : Type) where
  guard : GuardId
  guardFn : Option (I → (Nat → Option D) → Option K)
  wtype : Nat
  isLate : Bool
  lexicalIndex : Nat

/-- A key is built late also when the guard is garbage collected. -/
def GuardReference.late (guards : GuardId → Guard) (ref : GuardReference I K D) : Bool :=
  ref.isLate || (guards ref.guard).isGC

/-- The key that a reference asks for: a new key when there is no translator, and
none when the translator says so or throws. -/
def GuardReference.resolve [Inhabited K] (ref : GuardReference I K D) (input : I)
    (data : Nat → Option D) : Option K :=
  match ref.guardFn with
  | none => some default
  | some guardFn => guardFn input data

/-! ## Held atomics -/

/-- A pointer to an atomic; the pooled ones are a class of their own. -/
inductive AtomicPtr where
  | plain (atom : AtomicId)
  | pooled (wrapper : PooledId)
deriving DecidableEq

/-- {lit}`is_pool_like` -/
def AtomicPtr.isPoolLike : AtomicPtr → Bool
  | .plain _ => false
  | .pooled _ => true

/-- {lit}`HeldAtomic`: a reference of an event, with the atomic and the key that it has found. -/
structure HeldAtomic (I K D : Type) where
  ref : GuardReference I K D
  atom : Option AtomicPtr := none
  key : Option K := none
  haveit : Bool := false
  /-- Which object the key pointer points to: the key that was allocated with this
  atomic. -/
  keyOwner : Option AtomicPtr := none

/-- A reference without an atomic is skipped. -/
def HeldAtomic.skipit (ha : HeldAtomic I K D) : Bool :=
  ha.atom.isNone

/-- {lit}`k_compare`: null keys come first. -/
def kCompare [LinearOrder K] : Option K → Option K → Int
  | some k1, some k2 => if k1 < k2 then -1 else if k2 < k1 then 1 else 0
  | none, some _ => -1
  | some _, none => 1
  | none, none => 0

/-- Only the keyed maps tell keys apart. -/
def Guard.compareKeys [LinearOrder K] (guard : Guard) (k1 k2 : Option K) : Int :=
  match guard.amap with
  | .std _ => kCompare k1 k2
  | .trivial _ | .pool => 0

/-- References that are looked up early come first. -/
def compareLates (a b : Bool) : Int :=
  if a = b then 0 else if !a && b then -1 else 1

/-- The order of acquisition: by guard, then by mode, then by key unless one of the
two is late. -/
def HeldAtomic.compare [LinearOrder K] (guards : GuardId → Guard)
    (left right : HeldAtomic I K D) (ignoreLates : Bool) : Int :=
  let gt1 := (guards left.ref.guard).magicNumber
  let gt2 := (guards right.ref.guard).magicNumber
  let wt1 := left.ref.wtype
  let wt2 := right.ref.wtype
  let lt1 := left.ref.late guards
  let lt2 := right.ref.late guards
  if gt1 = gt2 ∧ wt1 = wt2 then
    if (!lt1 && !lt2) || ignoreLates then
      (guards left.ref.guard).compareKeys left.key right.key
    else compareLates lt1 lt2
  else if gt1 = gt2 then (if wt1 < wt2 then -1 else 1)
  else (if gt1 < gt2 then -1 else 1)

/-! ## The store -/

/-- An event, as far as guards are concerned: its input and its atomics holder.  The
list of held atomics is in the order of {lit}`_sorted` once that is filled. -/
structure Event (I K D : Type) where
  input : I
  holders : List (HeldAtomic I K D)
  isSortedAndKeyed : Bool := false
  isCompletelySorted : Bool
  workingOn : Nat := 0

/-- The wrapper through which one event holds a resource of a pool. -/
structure AtomicPooled (D : Type) where
  data : Option D
  pool : GuardId
  next : Option PooledId := none

/-- {lit}`AtomicPool`: waiting events, free resources, and the list of idle wrappers. -/
structure AtomicPool (D : Type) where
  q : List EventId := []
  dq : List D := []
  apList : Option PooledId := none
  apLast : Option PooledId := none

/-- All that guards and events live in. -/
structure Store (I K D : Type) where
  atomics : AtomicId → Atomic D
  allocated : AtomicId
  wrappers : PooledId → AtomicPooled D
  wrapped : PooledId
  maps : GuardId → List (K × AtomicId)
  pools : GuardId → AtomicPool D
  events : EventId → Event I K D
  /-- The atomics that were deleted. -/
  collected : List AtomicId := []
  /-- A history variable that nothing reads: the guard and key an atomic was made for. -/
  madeFor : AtomicPtr → GuardId × K

/-- A queue that events wait in. -/
inductive Queue where
  | atomic (atom : AtomicId)
  | pool (guard : GuardId)
deriving DecidableEq

/-- The assertions on the way of an acquisition or a release. -/
inductive Assertion where
  | builtTwice
  | idleWrapperHasData
  | keyIsNull
  | atomIsNull
  | notHeldOrSkipped
  | waiterWithoutAtomic
  | shouldHaveFoundHeldAtomic
  | workingOnNotHeld
  | pooledHasData
  | collectsOtherAtomic
deriving DecidableEq

namespace Store

/-- Assign one atomic. -/
def setAtomic (st : Store I K D) (a : AtomicId) (atom : Atomic D) : Store I K D :=
  { st with atomics := Function.update st.atomics a atom }

/-- Assign one wrapper. -/
def setWrapper (st : Store I K D) (w : PooledId) (wrapper : AtomicPooled D) : Store I K D :=
  { st with wrappers := Function.update st.wrappers w wrapper }

/-- Assign one pool. -/
def setPool (st : Store I K D) (g : GuardId) (pool : AtomicPool D) : Store I K D :=
  { st with pools := Function.update st.pools g pool }

/-- Assign the entries of one guard. -/
def setMap (st : Store I K D) (g : GuardId) (entries : List (K × AtomicId)) : Store I K D :=
  { st with maps := Function.update st.maps g entries }

/-- Assign one event. -/
def setEvent (st : Store I K D) (e : EventId) (event : Event I K D) : Store I K D :=
  { st with events := Function.update st.events e event }

/-- Assign one held atomic of an event. -/
def setHeld (st : Store I K D) (e : EventId) (i : Nat) (ha : HeldAtomic I K D) :
    Store I K D :=
  st.setEvent e { st.events e with holders := (st.events e).holders.set i ha }

/-- The events in a queue, the first one to be served in front. -/
def queue (st : Store I K D) : Queue → List EventId
  | .atomic a => (st.atomics a).waiting
  | .pool g => (st.pools g).q

/-- The queue that a request on an atomic waits in. -/
def queueOf (st : Store I K D) : AtomicPtr → Queue
  | .plain a => .atomic a
  | .pooled w => .pool (st.wrappers w).pool

/-- What the data pointer of an atomic points to. -/
def dataOf (st : Store I K D) : AtomicPtr → Option D
  | .plain a => (st.atomics a).data
  | .pooled w => (st.wrappers w).data

/-- {lit}`held`; a wrapper is held while it has a resource. -/
def heldCount (st : Store I K D) : AtomicPtr → Nat
  | .plain a => (st.atomics a).held
  | .pooled w => if (st.wrappers w).data.isSome then 1 else 0

/-- The holder of an atomic writes through its data pointer. -/
def setData (st : Store I K D) (p : AtomicPtr) (d : Option D) : Store I K D :=
  match p with
  | .plain a => st.setAtomic a ((st.atomics a).setData d)
  | .pooled w => st.setWrapper w { st.wrappers w with data := d }

/-- {lit}`getDataLexical`: the data of the reference with that lexical index. -/
def getDataLexical (st : Store I K D) (e : EventId) (index : Nat) : Option D :=
  ((st.events e).holders.find? fun ha => ha.ref.lexicalIndex == index).bind fun ha =>
    ha.atom.bind st.dataOf

/-! ## Atomic maps and pools -/

/-- Take an idle wrapper of a pool, or make one. -/
def poolGet [Inhabited K] (st : Store I K D) (g : GuardId) :
    Except Assertion (Store I K D × PooledId) :=
  let pool := st.pools g
  match pool.apList with
  | some w =>
      let wrapper := st.wrappers w
      if wrapper.data.isSome then .error .idleWrapperHasData
      else .ok ((st.setPool g { pool with
          apList := wrapper.next,
          apLast := if wrapper.next.isNone then none else pool.apLast }).setWrapper w
        { wrapper with next := none }, w)
  | none =>
      let w := st.wrapped
      .ok ({ st.setWrapper w { data := none, pool := g } with
        wrapped := w + 1,
        madeFor := Function.update st.madeFor (.pooled w) (g, default) }, w)

/-- Put a wrapper back into the list of idle ones, unless it is in there. -/
def poolPut (st : Store I K D) (w : PooledId) : Except Assertion (Store I K D) :=
  let wrapper := st.wrappers w
  let pool := st.pools wrapper.pool
  if wrapper.next = none ∧ pool.apLast ≠ some w then
    if wrapper.data.isSome then .error .pooledHasData
    else .ok ((st.setWrapper w { wrapper with next := pool.apList }).setPool wrapper.pool
      { pool with
        apLast := if pool.apList.isNone then some w else pool.apLast,
        apList := some w })
  else .ok st

/-- A new atomic for a key that the map does not have. -/
def newAtomic (st : Store I K D) (g : GuardId) (cls : AtomicClass) (key : K) :
    Store I K D :=
  { (st.setAtomic st.allocated cls.new).setMap g ((key, st.allocated) :: st.maps g) with
    allocated := st.allocated + 1,
    madeFor := Function.update st.madeFor (.plain st.allocated) (g, key) }

variable [LinearOrder K] [Inhabited K] (guards : GuardId → Guard)

/-- {lit}`Guard::get`: the atomic for a key, and the key that stays with it. -/
def getAtomic (st : Store I K D) (g : GuardId) (key : K) :
    Except Assertion (Store I K D × AtomicPtr × K) :=
  match (guards g).amap with
  | .trivial a => .ok (st, .plain a, default)
  | .std cls =>
      match (st.maps g).lookup key with
      | some a => .ok (st, .plain a, key)
      | none => .ok (st.newAtomic g cls key, .plain st.allocated, key)
  | .pool => (st.poolGet g).map fun (st', w) => (st', .pooled w, default)

/-- {lit}`Guard::garbage_collect`: drop the entry of a key and delete its atomic and its
key object, which have to be the ones of the entry. -/
def garbageCollect (st : Store I K D) (g : GuardId) (key : Option K)
    (keyOwner : Option AtomicPtr) (p : AtomicPtr) :
    Except Assertion (Option (Store I K D)) :=
  match (guards g).amap, key with
  | .std _, some k =>
      if (guards g).isGC then
        match (st.maps g).lookup k with
        | some a =>
            if p = .plain a ∧ keyOwner = some (.plain a) then
              .ok (some { st.setMap g ((st.maps g).filter fun entry => entry.1 ≠ k) with
                collected := a :: st.collected })
            else .error .collectsOtherAtomic
        | none => .ok none
      else .ok none
  | _, _ => .ok none

/-! ## Requests and releases -/

omit [LinearOrder K] [Inhabited K]

/-- {lit}`Atomic::acquire_or_wait`. -/
def acquireAtomic (st : Store I K D) (p : AtomicPtr) (ev : EventId) (wtype : Nat) :
    Store I K D × Bool :=
  match p with
  | .plain a =>
      let result := (st.atomics a).acquireOrWait ev wtype
      (st.setAtomic a result.1, result.2)
  | .pooled w =>
      let wrapper := st.wrappers w
      let pool := st.pools wrapper.pool
      match pool.dq with
      | d :: rest =>
          ((st.setPool wrapper.pool { pool with dq := rest }).setWrapper w
            { wrapper with data := some d }, true)
      | [] =>
          ((st.setPool wrapper.pool { pool with q := pool.q ++ [ev] }).setWrapper w
            { wrapper with data := none }, false)

/-- {lit}`AtomicPooled::release`: the resource goes to the wrapper of the first
waiting event, or back into the pool. -/
def releasePooled (st : Store I K D) (w : PooledId) :
    Except Assertion (Store I K D × List EventId) :=
  let wrapper := st.wrappers w
  let pool := st.pools wrapper.pool
  match pool.q with
  | ev :: rest =>
      match (st.events ev).holders[(st.events ev).workingOn]?.bind HeldAtomic.atom with
      | none => .error .waiterWithoutAtomic
      | some p =>
          let st := (st.setPool wrapper.pool { pool with q := rest }).setData p wrapper.data
          .ok (st.setWrapper w { st.wrappers w with data := none }, [ev])
  | [] =>
      let st := st.setPool wrapper.pool { pool with dq := pool.dq ++ wrapper.data.toList }
      ((st.setWrapper w { wrapper with data := none }).poolPut w).map fun st' => (st', [])

/-- {lit}`Atomic::release`, with the events that it hands back. -/
def releaseAtomic (st : Store I K D) (p : AtomicPtr) :
    Except Assertion (Store I K D × List EventId) :=
  match p with
  | .plain a =>
      let result := (st.atomics a).release
      .ok (st.setAtomic a result.1, result.2)
  | .pooled w => st.releasePooled w

/-- {lit}`Atomic::relinquish`: only wrappers of a pool do something. -/
def relinquish (st : Store I K D) (p : AtomicPtr) (should : Bool) :
    Except Assertion (Store I K D) :=
  match p, should with
  | .pooled w, true =>
      let wrapper := st.wrappers w
      let pool := st.pools wrapper.pool
      ((st.setPool wrapper.pool { pool with dq := pool.dq ++ wrapper.data.toList }).setWrapper w
        { wrapper with data := none }).poolPut w
  | _, _ => .ok st

/-! ## Queues -/

section Queues

variable (st : Store I K D)

@[simp]
theorem queue_setAtomic (a : AtomicId) (atom : Atomic D) (q : Queue) :
    (st.setAtomic a atom).queue q = if q = .atomic a then atom.waiting else st.queue q := by
  cases q with
  | atomic b => by_cases h : b = a <;> simp [queue, setAtomic, h]
  | pool g => simp [queue, setAtomic]

@[simp]
theorem queue_setPool (g : GuardId) (pool : AtomicPool D) (q : Queue) :
    (st.setPool g pool).queue q = if q = .pool g then pool.q else st.queue q := by
  cases q with
  | atomic a => simp [queue, setPool]
  | pool h => by_cases hg : h = g <;> simp [queue, setPool, hg]

@[simp]
theorem queue_setWrapper (w : PooledId) (wrapper : AtomicPooled D) (q : Queue) :
    (st.setWrapper w wrapper).queue q = st.queue q := by
  cases q <;> rfl

@[simp]
theorem queue_setMap (g : GuardId) (entries : List (K × AtomicId)) (q : Queue) :
    (st.setMap g entries).queue q = st.queue q := by
  cases q <;> rfl

@[simp]
theorem queue_setEvent (e : EventId) (event : Event I K D) (q : Queue) :
    (st.setEvent e event).queue q = st.queue q := by
  cases q <;> rfl

@[simp]
theorem queue_setHeld (e : EventId) (i : Nat) (ha : HeldAtomic I K D) (q : Queue) :
    (st.setHeld e i ha).queue q = st.queue q :=
  queue_setEvent st e _ q

@[simp]
theorem queue_setData (p : AtomicPtr) (d : Option D) (q : Queue) :
    (st.setData p d).queue q = st.queue q := by
  cases p with
  | plain a =>
      simp only [setData, queue_setAtomic, Atomic.waiting_setData]
      split
      next h => rw [h, queue]
      · rfl
  | pooled w => simp [setData]

variable {st} {st' : Store I K D}

/-- Returning a wrapper changes no queue. -/
theorem queue_poolPut {w : PooledId} (h : st.poolPut w = .ok st') (q : Queue) :
    st'.queue q = st.queue q := by
  simp only [poolPut] at h
  split at h
  · split at h
    · cases h
    · cases h
      simp only [queue_setPool, queue_setWrapper]
      split
      next hq => rw [hq, queue]
      · rfl
  · cases h
    rfl

/-- A request leaves the queues alone or joins its own at the end. -/
theorem queue_acquireAtomic (p : AtomicPtr) (ev : EventId) (wtype : Nat) (q : Queue) :
    (st.acquireAtomic p ev wtype).1.queue q =
      if (st.acquireAtomic p ev wtype).2 = false ∧ q = st.queueOf p then st.queue q ++ [ev]
      else st.queue q := by
  cases p with
  | plain a =>
      simp only [acquireAtomic, queueOf, queue_setAtomic]
      by_cases hq : q = .atomic a
      · subst hq
        simp only [if_true, and_true, Atomic.waiting_acquireOrWait, queue]
        split <;> simp_all
      · simp [hq]
  | pooled w =>
      rw [acquireAtomic]
      cases hdq : (st.pools (st.wrappers w).pool).dq with
      | cons d rest =>
          simp only [queue_setPool, queue_setWrapper]
          by_cases hq : q = .pool (st.wrappers w).pool
          · rw [if_pos hq, hq]
            simp [queue]
          · simp [hq]
      | nil =>
          simp only [queue_setPool, queue_setWrapper, queueOf]
          by_cases hq : q = .pool (st.wrappers w).pool
          · rw [if_pos hq, hq]
            simp [queue]
          · simp [hq]

/-- The events that a release hands back are the front of its queue, and the other
queues stay as they are. -/
theorem queue_releaseAtomic {p : AtomicPtr} {evs : List EventId}
    (h : st.releaseAtomic p = .ok (st', evs)) :
    st.queue (st.queueOf p) = evs ++ st'.queue (st.queueOf p) ∧
      ∀ q, q ≠ st.queueOf p → st'.queue q = st.queue q := by
  cases p with
  | plain a =>
      cases h
      have hwaiting := Atomic.waiting_release (st.atomics a)
      refine ⟨?_, fun q hq => ?_⟩
      · rw [queueOf, queue_setAtomic, if_pos rfl]
        exact hwaiting
      · rw [queue_setAtomic]
        exact if_neg hq
  | pooled w =>
      simp only [releaseAtomic, releasePooled] at h
      split at h
      next ev rest hq =>
        split at h
        · cases h
        next p hp =>
          cases h
          simp only [queueOf, queue_setWrapper, queue_setData, queue_setPool, if_true]
          exact ⟨hq, fun r hr => if_neg hr⟩
      next hq =>
        cases hput : ((st.setPool (st.wrappers w).pool
            { st.pools (st.wrappers w).pool with
              dq := (st.pools (st.wrappers w).pool).dq ++ (st.wrappers w).data.toList }).setWrapper
            w { st.wrappers w with data := none }).poolPut w with
        | error err => rw [hput] at h; cases h
        | ok st1 =>
            rw [hput] at h
            cases h
            simp only [queueOf, queue_poolPut hput, queue_setWrapper, queue_setPool, if_true]
            exact ⟨rfl, fun r hr => if_neg hr⟩

/-- Giving an atomic up changes no queue. -/
theorem queue_relinquish {p : AtomicPtr} {should : Bool}
    (h : st.relinquish p should = .ok st') (q : Queue) : st'.queue q = st.queue q := by
  cases p with
  | plain a =>
      cases h
      rfl
  | pooled w =>
      cases should with
      | false =>
          cases h
          rfl
      | true =>
          simp only [queue_poolPut h, queue_setWrapper, queue_setPool]
          split
          next hq => rw [hq, queue]
          · rfl

end Queues

end Store

end Guards
end OFlux
