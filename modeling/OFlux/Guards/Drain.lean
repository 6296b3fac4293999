import OFlux.Guards.Collection
import OFlux.Guards.PoolConservation
import OFlux.Library.Loop
import Mathlib.Data.List.TakeWhile

/-!
# Draining a guard

{lit}`Guard::drain` walks over the atomics of a guard and releases each of them once, without an
event that holds it.  The events that a release hands back are thrown away.  A release hands the
atomic over to the next events in its queue, so that those behind them are still waiting.

Main results:

- Theorem {lit}`Atomic.waiting_release_eq_nil_iff`: when one release empties the queue of an atomic.
- Theorem {lit}`Store.returns_drainEntries`, {lit}`Store.returns_drainPool`: what the walk leaves.
- Theorem {lit}`Store.drained_iff`: when no event of a guard is left waiting.
- Theorem {lit}`drainable_of_run`: the states of a run are as the walk needs them.
-/

namespace OFlux
namespace Guards

open Library

variable {I K D : Type}

/-! ## One release -/

namespace Atomic

/-- One release empties the queue: at most one event waits for an exclusive atomic; for a read/write
atomic with several holders none waits, and otherwise the first one and the readers behind it are
all that wait. -/
def OneRelease : Atomic D → Prop
  | .free _ => True
  | .exclusive atom => atom.waiters.length ≤ 1
  | .readWrite atom =>
      if atom.held ≤ 1 then
        match atom.waiters with
        | [] => True
        | entry :: rest => rest = [] ∨
            entry.wtype = WType.read ∧ ∀ next ∈ rest, atom.joinsReaders next.wtype = true
      else atom.waiters = []

/-- A release leaves no event waiting exactly then. -/
theorem waiting_release_eq_nil_iff (atom : Atomic D) :
    atom.release.1.waiting = [] ↔ atom.OneRelease := by
  cases atom with
  | free d => simp [release, waiting, OneRelease]
  | exclusive atom =>
      simp only [release, AtomicExclusive.release, OneRelease]
      cases hw : atom.waiters with
      | nil => simp [waiting]
      | cons entry rest => simp [waiting]
  | readWrite atom =>
      simp only [release, AtomicReadWrite.release, OneRelease, Nat.sub_eq_zero_iff_le]
      by_cases hheld : atom.held ≤ 1
      · rw [if_pos hheld, if_pos hheld]
        cases hw : atom.waiters with
        | nil => simp [waiting]
        | cons entry rest =>
            by_cases hread : entry.wtype = WType.read
            · have hnil : rest.dropWhile (fun next => atom.joinsReaders next.wtype) = [] ↔
                  ∀ next ∈ rest, atom.joinsReaders next.wtype = true :=
                List.dropWhile_eq_nil_iff
              simp only [hread, if_true, waiting, Prod.map, List.map_eq_nil_iff, hnil, true_and]
              constructor
              · exact Or.inr
              · rintro (rfl | hall)
                · simp
                · exact hall
            · simp [waiting, hread]
      · rw [if_neg hheld, if_neg hheld]
        simp [waiting]

end Atomic

namespace Store

/-! ## The walk -/

/-- Where a walk over an atomic map is: at the rest of its entries, or at an idle wrapper. -/
inductive AtomicMapWalker where
  | entries (rest : List AtomicPtr)
  | pool (n : Option PooledId)

/-- {lit}`next`: the atomic that it stands at, with the place behind it. -/
def AtomicMapWalker.next (st : Store I K D) :
    AtomicMapWalker → Option (AtomicPtr × AtomicMapWalker)
  | .entries [] => none
  | .entries (p :: rest) => some (p, .entries rest)
  | .pool none => none
  | .pool (some w) => some (.pooled w, .pool (st.wrappers w).next)

/-- A new walker of the map of a guard, in some order of the keys. -/
def walker (guards : GuardId → Guard) (st : Store I K D) (g : GuardId) : AtomicMapWalker :=
  match (guards g).amap with
  | .trivial a => .entries [.plain a]
  | .std _ => .entries ((st.maps g).map fun entry => .plain entry.2)
  | .pool => .pool (st.pools g).apList

/-- The state of {lit}`drain`. -/
structure Draining (I K D : Type) where
  st : Store I K D
  walker : AtomicMapWalker
  rel : List EventId

/-- One turn of the loop of {lit}`drain`. -/
def drainTurn (s : Draining I K D) : Turn Assertion (Draining I K D) Unit :=
  match s.walker.next s.st with
  | none => .done s ()
  | some (p, walker) =>
      match s.st.releaseAtomic p with
      | .error err => .fail err
      | .ok (st, released) => .again ⟨st, walker, s.rel ++ released⟩

/-- {lit}`Guard::drain`: what it leaves, when it returns.  The events that were released are lost
with the walker. -/
def Drains (guards : GuardId → Guard) (st : Store I K D) (g : GuardId) (st' : Store I K D) : Prop :=
  ∃ walker rel, Returns drainTurn ⟨st, st.walker guards g, []⟩ (.ok (⟨st', walker, rel⟩, ()))

/-- The queues of the atomics of a guard. -/
def QueueOfGuard (guards : GuardId → Guard) (st : Store I K D) (g : GuardId) (q : Queue) : Prop :=
  match (guards g).amap with
  | .trivial a => q = .atomic a
  | .std _ => ∃ entry ∈ st.maps g, q = .atomic entry.2
  | .pool => q = .pool g

/-- Draining the guard returns, and leaves no event waiting. -/
def Drained (guards : GuardId → Guard) (st : Store I K D) (g : GuardId) : Prop :=
  ∃ st', st.Drains guards g st' ∧ ∀ q, st.QueueOfGuard guards g q → st'.queue q = []

/-- What the walk relies on: keys have atomics of their own, the idle wrappers of a pool are a list,
and every event that waits for a resource has the wrapper to put it into. -/
structure Drainable (st : Store I K D) (g : GuardId) (idle : List PooledId) : Prop where
  entries : ((st.maps g).map Prod.snd).Nodup
  chain : Chain (fun w => (st.wrappers w).next) (st.pools g).apList idle
  last : (st.pools g).apLast = idle.getLast?
  pool : ∀ w ∈ idle, (st.wrappers w).pool = g
  waiting : ∀ e ∈ (st.pools g).q, ∃ p,
    (st.events e).holders[(st.events e).workingOn]?.bind HeldAtomic.atom = some p

/-- One release for each atomic, and one event for each idle wrapper, are enough. -/
def OneReleaseEach (guards : GuardId → Guard) (st : Store I K D) (g : GuardId)
    (idle : List PooledId) : Prop :=
  match (guards g).amap with
  | .trivial a => (st.atomics a).OneRelease
  | .std _ => ∀ entry ∈ st.maps g, (st.atomics entry.2).OneRelease
  | .pool => (st.pools g).q.length ≤ idle.length

variable {guards : GuardId → Guard} {st st' : Store I K D} {g : GuardId} {idle : List PooledId}

/-! ## The entries of a map -/

/-- Every atomic of the walk is released once, and the others stay as they are. -/
theorem returns_drainEntries {atoms : List AtomicId} (hnodup : atoms.Nodup) (st : Store I K D)
    (rel : List EventId) :
    ∃ s, Returns drainTurn ⟨st, .entries (atoms.map .plain), rel⟩ (.ok (s, ())) ∧
      (∀ a ∈ atoms, s.st.atomics a = (st.atomics a).release.1) ∧
      ∀ a, a ∉ atoms → s.st.atomics a = st.atomics a := by
  induction atoms generalizing st rel with
  | nil => exact ⟨_, .done rfl, fun a ha => absurd ha List.not_mem_nil, fun _ _ => rfl⟩
  | cons b rest ih =>
      rw [List.nodup_cons] at hnodup
      obtain ⟨s, hs, hreleased, hothers⟩ :=
        ih hnodup.2 (st.setAtomic b (st.atomics b).release.1) (rel ++ (st.atomics b).release.2)
      refine ⟨s, .again rfl hs, fun a ha => ?_, fun a ha => ?_⟩
      · rcases List.mem_cons.mp ha with rfl | hrest
        · rw [hothers a hnodup.1]
          simp [setAtomic]
        · have hne : a ≠ b := fun heq => hnodup.1 (heq ▸ hrest)
          rw [hreleased a hrest]
          simp [setAtomic, hne]
      · rw [List.mem_cons, not_or] at ha
        rw [hothers a ha.2]
        simp [setAtomic, ha.1]

/-! ## The idle wrappers of a pool -/

/-- The walk over a list of wrappers comes back to none of them, so that the one without a next one
is the last. -/
theorem getLast?_of_next_eq_none {next : PooledId → Option PooledId} {first : Option PooledId}
    (h : Chain next first idle) {w : PooledId} (hw : w ∈ idle) (hnext : next w = none) :
    idle.getLast? = some w := by
  induction idle generalizing first with
  | nil => exact absurd hw List.not_mem_nil
  | cons v rest ih =>
      rcases List.mem_cons.mp hw with rfl | hrest
      · have hempty : rest = [] := h.2.first_eq_none_iff.mp hnext
        rw [hempty]
        rfl
      · rw [List.getLast?_cons, ih h.2 hrest]
        rfl

/-- The maps, the lists of wrappers and the events are the same: queues and data may differ. -/
structure SameLists (st st' : Store I K D) : Prop where
  maps : st'.maps = st.maps
  events : st'.events = st.events
  next : ∀ w, (st'.wrappers w).next = (st.wrappers w).next
  pool : ∀ w, (st'.wrappers w).pool = (st.wrappers w).pool
  apList : ∀ g, (st'.pools g).apList = (st.pools g).apList
  apLast : ∀ g, (st'.pools g).apLast = (st.pools g).apLast

theorem SameLists.trans {st'' : Store I K D} (h : st.SameLists st') (h' : st'.SameLists st'') :
    st.SameLists st'' where
  maps := h'.maps.trans h.maps
  events := h'.events.trans h.events
  next w := (h'.next w).trans (h.next w)
  pool w := (h'.pool w).trans (h.pool w)
  apList g := (h'.apList g).trans (h.apList g)
  apLast g := (h'.apLast g).trans (h.apLast g)

/-- Writing an atomic keeps the lists. -/
theorem sameLists_setAtomic (st : Store I K D) (a : AtomicId) (atom : Atomic D) :
    st.SameLists (st.setAtomic a atom) :=
  ⟨rfl, rfl, fun _ => rfl, fun _ => rfl, fun _ => rfl, fun _ => rfl⟩

/-- Writing data of a wrapper keeps the lists. -/
theorem sameLists_setWrapper (st : Store I K D) (w : PooledId) (d : Option D) :
    st.SameLists (st.setWrapper w { st.wrappers w with data := d }) := by
  refine ⟨rfl, rfl, fun v => ?_, fun v => ?_, fun _ => rfl, fun _ => rfl⟩
  all_goals
    rw [wrappers_setWrapper]
    split
    next heq => rw [heq]
    · rfl

/-- Writing the queues of a pool keeps the lists. -/
theorem sameLists_setPool (st : Store I K D) (g : GuardId) (q : List EventId) (dq : List D) :
    st.SameLists (st.setPool g { st.pools g with q := q, dq := dq }) := by
  refine ⟨rfl, rfl, fun _ => rfl, fun _ => rfl, fun f => ?_, fun f => ?_⟩
  all_goals
    rw [pools_setPool]
    split
    next heq => rw [heq]
    · rfl

/-- Writing data keeps the lists. -/
theorem sameLists_setData (st : Store I K D) (p : AtomicPtr) (d : Option D) :
    st.SameLists (st.setData p d) := by
  cases p with
  | plain a => exact st.sameLists_setAtomic a _
  | pooled w => exact st.sameLists_setWrapper w d

namespace Drainable

/-- Only queues and data change, and no event comes to wait for the pool. -/
theorem congr (h : st.Drainable g idle) (hsame : st.SameLists st')
    (hq : ∀ e ∈ (st'.pools g).q, e ∈ (st.pools g).q) : st'.Drainable g idle where
  entries := by
    rw [hsame.maps]
    exact h.entries
  chain := by
    rw [hsame.apList]
    exact h.chain.congr fun w _ => hsame.next w
  last := (hsame.apLast g).trans h.last
  pool w hw := (hsame.pool w).trans (h.pool w hw)
  waiting e he := by
    rw [hsame.events]
    exact h.waiting e (hq e he)

/-- An idle wrapper releases the first waiting event. -/
theorem releasePooled (h : st.Drainable g idle) {w : PooledId} (hw : w ∈ idle) :
    ∃ st' released, st.releasePooled w = .ok (st', released) ∧ st.SameLists st' ∧
      (st'.pools g).q = (st.pools g).q.tail := by
  have hg := h.pool w hw
  cases hq : (st.pools g).q with
  | cons ev rest =>
      obtain ⟨p, hp⟩ := h.waiting ev (hq ▸ List.mem_cons_self)
      have htaken := st.sameLists_setPool g rest (st.pools g).dq
      have hdata := sameLists_setData (st.setPool g { st.pools g with q := rest }) p
        (st.wrappers w).data
      refine ⟨_, [ev], ?_, (htaken.trans hdata).trans (sameLists_setWrapper _ w none), ?_⟩
      · simp [Store.releasePooled, hg, hq, hp]
      · cases p <;> simp [setData, setAtomic, setPool, setWrapper]
  | nil =>
      -- the wrapper is in the list already
      have hreset := (st.sameLists_setPool g []
        ((st.pools g).dq ++ (st.wrappers w).data.toList)).trans (sameLists_setWrapper _ w none)
      have hin : ¬ ((st.wrappers w).next = none ∧ (st.pools g).apLast ≠ some w) :=
        fun hput => hput.2 (h.last.trans (getLast?_of_next_eq_none h.chain hw hput.1))
      refine ⟨_, [], ?_, hreset, by simp⟩
      rw [Store.releasePooled, hg, hq]
      simp [poolPut, hg, hin, Except.map]

end Drainable

/-- The walk takes one event out of the queue for each wrapper. -/
theorem returns_drainPool (h : st.Drainable g idle) {rest : List PooledId}
    (hrest : ∀ w ∈ rest, w ∈ idle) {first : Option PooledId}
    (hchain : Chain (fun w => (st.wrappers w).next) first rest) (rel : List EventId) :
    ∃ s, Returns drainTurn ⟨st, .pool first, rel⟩ (.ok (s, ())) ∧
      (s.st.pools g).q = (st.pools g).q.drop rest.length := by
  induction rest generalizing st first rel with
  | nil =>
      cases hchain
      exact ⟨_, .done rfl, by simp⟩
  | cons w rest ih =>
      obtain ⟨st', released, hrelease, hsame, hq⟩ :=
        h.releasePooled (hrest w List.mem_cons_self)
      have h' : st'.Drainable g idle :=
        h.congr hsame fun e he => List.mem_of_mem_tail (hq ▸ he)
      have hchain' := hchain.2.congr fun v _ => hsame.next v
      obtain ⟨s, hs, hdrop⟩ := ih h' (fun v hv => hrest v (List.mem_cons_of_mem _ hv)) hchain'
        (rel ++ released)
      refine ⟨s, .again ?_ hs, ?_⟩
      · simp [drainTurn, AtomicMapWalker.next, hchain.1, releaseAtomic, hrelease]
      · rw [hdrop, hq, List.drop_tail, List.length_cons]

/-! ## What is left waiting -/

/-- A walk that ended decides. -/
theorem drained_iff_of_returns {s : Draining I K D}
    (hs : Returns drainTurn ⟨st, st.walker guards g, []⟩ (.ok (s, ()))) :
    st.Drained guards g ↔ ∀ q, st.QueueOfGuard guards g q → s.st.queue q = [] := by
  constructor
  · rintro ⟨st', ⟨walker, rel, hreturns⟩, hempty⟩
    cases hreturns.unique hs
    exact hempty
  · intro hempty
    exact ⟨s.st, ⟨s.walker, s.rel, hs⟩, hempty⟩

/-- Draining a guard leaves no event waiting if and only if one release empties the queue of each
of its atomics, or its pool has an idle wrapper for every waiting event. -/
theorem drained_iff (h : st.Drainable g idle) :
    st.Drained guards g ↔ st.OneReleaseEach guards g idle := by
  cases hkind : (guards g).amap with
  | trivial a =>
      obtain ⟨s, hs, hreleased, -⟩ := returns_drainEntries (List.nodup_singleton a) st []
      have hwalker : st.walker guards g = .entries ([a].map .plain) := by
        rw [walker, hkind]
        rfl
      rw [drained_iff_of_returns (hwalker ▸ hs)]
      simp only [QueueOfGuard, OneReleaseEach, hkind, forall_eq, queue]
      rw [hreleased a List.mem_cons_self]
      exact (st.atomics a).waiting_release_eq_nil_iff
  | std cls =>
      obtain ⟨s, hs, hreleased, -⟩ := returns_drainEntries h.entries st []
      have hwalker : st.walker guards g =
          .entries (((st.maps g).map Prod.snd).map .plain) := by
        rw [walker, hkind, List.map_map]
        rfl
      rw [drained_iff_of_returns (hwalker ▸ hs)]
      have hqueue : ∀ entry ∈ st.maps g,
          s.st.queue (.atomic entry.2) = [] ↔ (st.atomics entry.2).OneRelease := by
        intro entry hentry
        rw [queue, hreleased entry.2 (List.mem_map_of_mem hentry)]
        exact (st.atomics entry.2).waiting_release_eq_nil_iff
      simp only [QueueOfGuard, OneReleaseEach, hkind]
      constructor
      · intro hempty entry hentry
        exact (hqueue entry hentry).mp (hempty _ ⟨entry, hentry, rfl⟩)
      · rintro hall q ⟨entry, hentry, rfl⟩
        exact (hqueue entry hentry).mpr (hall entry hentry)
  | pool =>
      obtain ⟨s, hs, hdrop⟩ := returns_drainPool h (fun _ hw => hw) h.chain []
      have hwalker : st.walker guards g = .pool (st.pools g).apList := by
        rw [walker, hkind]
      rw [drained_iff_of_returns (hwalker ▸ hs)]
      simp only [QueueOfGuard, OneReleaseEach, hkind, forall_eq, queue]
      rw [hdrop, List.drop_eq_nil_iff]

end Store

/-! ## Runs -/

section Runs

open TransitionSystem

variable [LinearOrder K] [Inhabited K] {guards : GuardId → Guard} {g : GuardId}

namespace Store

variable {st st' : Store I K D} {e : EventId} {i : Nat}

/-- No two entries of the map of a guard have the same atomic. -/
def DistinctEntries (st : Store I K D) (g : GuardId) : Prop :=
  ((st.maps g).map Prod.snd).Nodup

omit [LinearOrder K] [Inhabited K] in
theorem DistinctEntries.of_maps_eq (h : st.DistinctEntries g) (hmaps : st'.maps = st.maps) :
    st'.DistinctEntries g := by
  rwa [DistinctEntries, hmaps]

/-- The entry that a lookup makes has a new atomic. -/
theorem DistinctEntries.getAtomic (h : st.DistinctEntries g) (hwf : WellFormed guards st)
    {f : GuardId} {key key' : K} {p : AtomicPtr}
    (hget : st.getAtomic guards f key = .ok (st', p, key')) : st'.DistinctEntries g := by
  simp only [Store.getAtomic] at hget
  split at hget
  · cases hget
    exact h
  next cls _ =>
    split at hget
    · cases hget
      exact h
    · cases hget
      by_cases hg : g = f
      · subst hg
        have hmaps : (st.newAtomic g cls key).maps g = (key, st.allocated) :: st.maps g :=
          Function.update_self ..
        rw [DistinctEntries, hmaps, List.map_cons, List.nodup_cons]
        refine ⟨fun hmem => ?_, h⟩
        obtain ⟨⟨k, a⟩, hentry, rfl⟩ := List.mem_map.mp hmem
        exact absurd (hwf.entry g k _ hentry).1 (lt_irrefl _)
      · have hmaps : (st.newAtomic f cls key).maps g = st.maps g := Function.update_of_ne hg ..
        rwa [DistinctEntries, hmaps]
  · cases hres : st.poolGet f with
    | error err =>
        rw [hres] at hget
        cases hget
    | ok result =>
        rw [hres] at hget
        cases hget
        exact h.of_maps_eq (steady_poolGet hres).maps

/-- Building a reference keeps the entries distinct. -/
theorem DistinctEntries.build (h : st.DistinctEntries g) (hwf : WellFormed guards st)
    {allowLate : Bool} (hbuild : st.build guards e i allowLate = .ok st') :
    st'.DistinctEntries g := by
  rcases build_cases hbuild with
    rfl | ⟨ha, -, -, -, ⟨-, rfl⟩ | ⟨key, st1, p, key', -, hget, rfl⟩⟩
  · exact h
  · exact h
  · exact (h.getAtomic hwf hget).of_maps_eq rfl

omit [LinearOrder K] [Inhabited K] in
/-- Requesting an atomic keeps the maps. -/
theorem maps_acquireOrWait {ha : HeldAtomic I K D} {res : Bool}
    (h : st.acquireOrWait e i ha = .ok (st', res)) : st'.maps = st.maps := by
  simp only [Store.acquireOrWait] at h
  split at h
  · cases h
  · cases h
  next p _ _ =>
    cases h
    have hmaps : ∀ st1 : Store I K D, (st1.acquireAtomic p e ha.ref.wtype).1.maps = st1.maps := by
      intro st1
      cases p with
      | plain a => rfl
      | pooled w => exact (steady_acquirePooled st1 w e ha.ref.wtype).maps
    split <;> exact hmaps _

/-- A visit keeps the entries distinct. -/
theorem DistinctEntries.visit (h : st.DistinctEntries g) (hwf : WellFormed guards st)
    {res : Bool} (hvisit : st.visit guards e i = .ok (st', res)) : st'.DistinctEntries g := by
  simp only [Store.visit] at hvisit
  split at hvisit
  · cases hvisit
  next st1 hbuild =>
    have hbuilt := h.build hwf hbuild
    split at hvisit
    · cases hvisit
      exact hbuilt
    · split at hvisit
      · cases hvisit
        exact hbuilt
      · have hraised : (st1.raiseWorkingOn e i).DistinctEntries g := hbuilt
        exact hraised.of_maps_eq (maps_acquireOrWait hvisit)

omit [Inhabited K] in
/-- A release keeps the entries distinct. -/
theorem DistinctEntries.releaseAt (h : st.DistinctEntries g) {released : List EventId}
    (hrelease : st.releaseAt guards e i = .ok (st', released)) : st'.DistinctEntries g := by
  rcases sameEntries_or_collected hrelease with hsame | ⟨-, a, hcollected⟩
  · exact h.of_maps_eq hsame.maps
  · obtain ⟨ha, k, -, -, -, -, -, -, hmaps, -⟩ := hcollected.holder
    rw [DistinctEntries, hmaps]
    by_cases hg : g = ha.ref.guard
    · subst hg
      rw [Function.update_self]
      exact h.sublist (List.filter_sublist.map _)
    · rwa [Function.update_of_ne hg]

/-- No step gives two entries of a map the same atomic. -/
theorem DistinctEntries.step {s t : State I K D} {a : Action} (h : s.store.DistinctEntries g)
    (hinv : Invariant guards s) (hstep : Step guards s a t) : t.store.DistinctEntries g := by
  cases hstep with
  | getKeysSort hcall hnew hkeys hsort =>
      next e st sorted =>
      have hcall' : s.has e (.acquiring 0) := hcall
      have hfree : ∀ ha ∈ (s.store.events e).holders, ha.haveit = false := by
        intro ha hha
        obtain ⟨j, hj⟩ := List.getElem?_of_mem hha
        exact (hinv.status e _ hcall').2.2.2.2 j ha (Nat.zero_le j) hj
      have hkept : st.DistinctEntries g := getKeys_induction (P := fun st => st.DistinctEntries g)
        (fun st st1 j htyped _ hbuild hst => hst.build htyped.wellFormed hbuild)
        hinv.typed hfree hkeys h
      exact hkept
  | acquired hcall hsorted hlt hvisit => exact h.visit hinv.typed.wellFormed hvisit
  | queued hcall hsorted hlt hvisit => exact h.visit hinv.typed.wellFormed hvisit
  | write hx hrunning hi hheld hp d => exact h.of_maps_eq (steady_setData s.store _ d).maps
  | releaseAt hx hleft hrelease => exact h.releaseAt hrelease
  | _ => exact h

end Store

omit [LinearOrder K] in
/-- In a reachable state the walk has what it relies on, when the entries have atomics of their own
and the idle wrappers are a list. -/
theorem Invariant.drainable {s : State I K D} {idle : List PooledId} (h : Invariant guards s)
    (hentries : s.store.DistinctEntries g) (hidle : s.store.IdleWrappers g idle) :
    s.store.Drainable g idle where
  entries := hentries
  chain := hidle.chain
  last := hidle.last
  pool w hw := (hidle.owned_of_mem_idle hw).2
  waiting e he := by
    have hwaits : s.has e (.waiting (.pool g)) := he
    obtain ⟨ha, p, hget, hatom, -, -⟩ := (h.status e _ hwaits).2.2.2
    exact ⟨p, by rw [hget, Option.bind_some, hatom]⟩

/-- Every state of a run is as the walk needs it, when the guard initializer has left the map and
the pool of the guard so. -/
theorem drainable_of_run [DecidableEq D] {filled : List D} {idle : List PooledId}
    {s : State I K D} {path : List (Action × State I K D)} (hinit : Initial guards s)
    (hfilled : s.store.PoolFilled g filled idle) (hentries : s.store.DistinctEntries g)
    (hrun : (system I K D guards).Run s path) (hleaves : StepsMeet (LeavesPool g) s path) :
    StatesMeet (fun t => ∃ idle, t.store.Drainable g idle) path := by
  have hdistinct : StatesMeet (fun t => t.store.DistinctEntries g) path :=
    hrun.statesMeet_of_stepsMeet (I := Invariant guards)
      (fun _ _ _ hs hstep => Invariant.step hs hstep)
      (fun _ _ _ hs hd hstep _ => hd.step hs hstep) (.of_initial hinit) hentries hleaves
  have hkept := statesMeet_poolKept hinit hfilled hrun hleaves
  have hreach := hrun.statesMeet_reachable (.init hinit)
  intro p hp
  obtain ⟨idle', hpool⟩ := (hkept p hp).pool
  exact ⟨idle', (Invariant.of_reachable (hreach p hp)).drainable (hdistinct p hp)
    hpool.toIdleWrappers⟩

end Runs

/-! ## Events at one atomic -/

/-- One event waits for the exclusive atomic that another one holds, and draining releases it. -/
theorem drained_iff_exclusiveSchedule :
    ∃ step ∈ (State.empty Unit Nat Unit).runOf exclusiveSchedule,
      step.2.store.queue (.atomic 0) = [1] ∧
        step.2.store.Drained (keyedGuards .exclusive) 0 := by
  have hend : ∃ step ∈ (State.empty Unit Nat Unit).runOf exclusiveSchedule,
      step.2.store.queue (.atomic 0) = [1] ∧ step.2.store.maps 0 = [(0, 0)] ∧
        (step.2.store.atomics 0).release.1.waiting = [] ∧
        (step.2.store.pools 0).apList = none ∧ (step.2.store.pools 0).apLast = none ∧
        (step.2.store.pools 0).q = [] := by decide
  obtain ⟨step, hstep, hqueue, hmaps, hrelease, hlist, hlast, hq⟩ := hend
  have hdrainable : step.2.store.Drainable 0 [] := {
    entries := by simp [hmaps]
    chain := hlist
    last := hlast
    pool := fun w hw => absurd hw List.not_mem_nil
    waiting := by simp [hq] }
  refine ⟨step, hstep, hqueue, (Store.drained_iff hdrainable).mpr ?_⟩
  simp only [Store.OneReleaseEach, keyedGuards, hmaps, List.mem_singleton, forall_eq]
  exact (Atomic.waiting_release_eq_nil_iff _).mp hrelease

/-- Two events wait for the exclusive atomic that a third one holds. -/
def twoWaitingSchedule : List (Command (keyedGuards .exclusive) Unit Nat Unit) := [
  .create exclusiveNode (), .getKeysSort 0, .visit 0 0, .ready 0 1, .start 0,
  .create exclusiveNode (), .getKeysSort 1, .visit 1 0,
  .create exclusiveNode (), .getKeysSort 2, .visit 2 0]

/-- A reachable state in which draining releases one of two waiting events. -/
theorem exists_not_drained :
    ∃ s : State Unit Nat Unit,
      (system Unit Nat Unit (keyedGuards .exclusive)).Reachable s ∧
        ¬ s.store.Drained (keyedGuards .exclusive) 0 := by
  have hend : ∃ step ∈ (State.empty Unit Nat Unit).runOf twoWaitingSchedule,
      step.2.store.maps 0 = [(0, 0)] ∧
        (step.2.store.atomics 0).release.1.waiting = [2] := by decide
  obtain ⟨step, hstep, hmaps, hwaiting⟩ := hend
  refine ⟨step.2, State.reachable_of_mem_runOf (keyedGuards_injective _)
    (.init (initial_empty_keyedGuards _)) hstep, fun hdrained => ?_⟩
  obtain ⟨s, hs, hreleased, -⟩ :=
    Store.returns_drainEntries (List.nodup_singleton 0) step.2.store []
  have hwalker : step.2.store.walker (keyedGuards .exclusive) 0 =
      .entries ([0].map .plain) := by
    simp [Store.walker, keyedGuards, hmaps]
  have hempty := (Store.drained_iff_of_returns (hwalker ▸ hs)).mp hdrained (.atomic 0)
    ⟨(0, 0), by simp [hmaps], rfl⟩
  rw [Store.queue, hreleased 0 List.mem_cons_self, hwaiting] at hempty
  cases hempty

end Guards
end OFlux
