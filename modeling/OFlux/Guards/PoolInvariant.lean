import OFlux.Guards.HandOff

/-!
# The wrappers and resources of a pool

A pool hands its resources out through wrappers, one for each held atomic that refers to
the pool, and recycles idle wrappers in a list of its own.

Main results:

- Theorem {lit}`PoolInvariant.build`: building a reference takes a wrapper that nobody has.
- Theorem {lit}`PoolInvariant.acquireOrWait`: a request takes a resource out of the queue,
  or waits for one.
-/

namespace OFlux
namespace Guards

open Library

variable {I K D : Type}

/-- The links lead from a first pointer through the list to a null pointer. -/
def Chain (next : PooledId → Option PooledId) : Option PooledId → List PooledId → Prop
  | first, [] => first = none
  | first, w :: rest => first = some w ∧ Chain next (next w) rest

theorem Chain.congr {next next' : PooledId → Option PooledId} {first : Option PooledId}
    {idle : List PooledId} (h : Chain next first idle) (hsame : ∀ w ∈ idle, next' w = next w) :
    Chain next' first idle := by
  induction idle generalizing first with
  | nil => exact h
  | cons w rest ih =>
      refine ⟨h.1, ?_⟩
      rw [hsame w List.mem_cons_self]
      exact ih h.2 fun v hv => hsame v (List.mem_cons_of_mem _ hv)

/-- A chain has no first wrapper exactly when it is empty. -/
theorem Chain.first_eq_none_iff {next : PooledId → Option PooledId} {first : Option PooledId}
    {idle : List PooledId} (h : Chain next first idle) : first = none ↔ idle = [] := by
  cases idle with
  | nil => exact ⟨fun _ => rfl, fun _ => h⟩
  | cons w rest => simp [h.1]

namespace Store

/-! ## Reading the store -/

section Reading

variable (st : Store I K D)

@[simp]
theorem pools_setPool (g : GuardId) (pool : AtomicPool D) (f : GuardId) :
    (st.setPool g pool).pools f = if f = g then pool else st.pools f := by
  simp [setPool, Function.update_apply]

@[simp]
theorem wrappers_setPool (g : GuardId) (pool : AtomicPool D) :
    (st.setPool g pool).wrappers = st.wrappers := rfl

@[simp]
theorem wrapped_setPool (g : GuardId) (pool : AtomicPool D) :
    (st.setPool g pool).wrapped = st.wrapped := rfl

@[simp]
theorem events_setPool (g : GuardId) (pool : AtomicPool D) :
    (st.setPool g pool).events = st.events := rfl

@[simp]
theorem pools_setWrapper (w : PooledId) (wrapper : AtomicPooled D) :
    (st.setWrapper w wrapper).pools = st.pools := rfl

@[simp]
theorem wrappers_setWrapper (w v : PooledId) (wrapper : AtomicPooled D) :
    (st.setWrapper w wrapper).wrappers v = if v = w then wrapper else st.wrappers v := by
  simp [setWrapper, Function.update_apply]

@[simp]
theorem wrapped_setWrapper (w : PooledId) (wrapper : AtomicPooled D) :
    (st.setWrapper w wrapper).wrapped = st.wrapped := rfl

@[simp]
theorem events_setWrapper (w : PooledId) (wrapper : AtomicPooled D) :
    (st.setWrapper w wrapper).events = st.events := rfl

@[simp]
theorem pools_setEvent (e : EventId) (event : Event I K D) :
    (st.setEvent e event).pools = st.pools := rfl

@[simp]
theorem wrappers_setEvent (e : EventId) (event : Event I K D) :
    (st.setEvent e event).wrappers = st.wrappers := rfl

@[simp]
theorem wrapped_setEvent (e : EventId) (event : Event I K D) :
    (st.setEvent e event).wrapped = st.wrapped := rfl

@[simp]
theorem pools_setHeld (e : EventId) (i : Nat) (ha : HeldAtomic I K D) :
    (st.setHeld e i ha).pools = st.pools := rfl

@[simp]
theorem wrappers_setHeld (e : EventId) (i : Nat) (ha : HeldAtomic I K D) :
    (st.setHeld e i ha).wrappers = st.wrappers := rfl

@[simp]
theorem wrapped_setHeld (e : EventId) (i : Nat) (ha : HeldAtomic I K D) :
    (st.setHeld e i ha).wrapped = st.wrapped := rfl

end Reading

/-! ## The wrappers of a pool -/

/-- The wrappers that were made for a pool. -/
def Owned (st : Store I K D) (g : GuardId) (w : PooledId) : Prop :=
  w < st.wrapped ∧ (st.wrappers w).pool = g

instance (st : Store I K D) (g : GuardId) (w : PooledId) : Decidable (st.Owned g w) :=
  inferInstanceAs (Decidable (_ ∧ _))

/-- The wrapper of a pool that a held atomic refers to, and whether it is held. -/
def ticket (st : Store I K D) (g : GuardId) (ha : HeldAtomic I K D) :
    Option (PooledId × Bool) :=
  match ha.atom with
  | some (.pooled w) => if st.Owned g w then some (w, ha.haveit) else none
  | _ => none

/-- The wrappers of a pool that the references of an event have. -/
def ticketsOf (st : Store I K D) (g : GuardId) (holders : List (HeldAtomic I K D)) :
    List (PooledId × Bool) :=
  holders.filterMap (st.ticket g)

/-- The wrappers through which an event holds resources of a pool, or waits for one. -/
def tickets (st : Store I K D) (g : GuardId) (x : EventId) : List (PooledId × Bool) :=
  st.ticketsOf g (st.events x).holders

/-- Where a wrapper of a pool can be. -/
inductive WrapperPlace where
  | idle
  | event (x : EventId)
deriving DecidableEq

/-- The wrappers at each place. -/
def wrapperContents (st : Store I K D) (g : GuardId) (idle : List PooledId) :
    WrapperPlace → List PooledId
  | .idle => idle
  | .event x => (st.tickets g x).map Prod.fst

/-- Where a resource of a pool can be. -/
inductive ResourcePlace where
  | queue
  | wrapper (w : PooledId)
deriving DecidableEq

/-- The resources at each place. -/
def resources (st : Store I K D) (g : GuardId) : ResourcePlace → List D
  | .queue => (st.pools g).dq
  | .wrapper w => if st.Owned g w then (st.wrappers w).data.toList else []

/-- The idle wrappers of a pool are a list; every other wrapper of the pool is with
exactly one event, which refers to it once. -/
structure IdleWrappers (st : Store I K D) (g : GuardId) (idle : List PooledId) : Prop where
  chain : Chain (fun w => (st.wrappers w).next) (st.pools g).apList idle
  last : (st.pools g).apLast = idle.getLast?
  wrappers : ∃ place, Located (st.wrapperContents g idle) place ∧
    ∀ w, place w ≠ none ↔ st.Owned g w
  next : ∀ w, st.Owned g w → w ∉ idle → (st.wrappers w).next = none

variable [DecidableEq D]

/-- What every step keeps of a pool that was filled with some resources. -/
structure PoolInvariant (st : Store I K D) (g : GuardId) (filled : List D)
    (idle : List PooledId) : Prop extends st.IdleWrappers g idle where
  idleData : ∀ w ∈ idle, (st.wrappers w).data = none
  heldData : ∀ x, ∀ t ∈ st.tickets g x, (st.wrappers t.1).data.isSome = t.2
  waiting : (st.pools g).q ≠ [] → (st.pools g).dq = []
  resources : ∃ place, Located (st.resources g) place ∧ ∀ d, place d ≠ none ↔ d ∈ filled

/-! ## What does not concern a pool -/

/-- The pool, its wrappers and the references to them are the same. -/
structure SamePool (st st' : Store I K D) (g : GuardId) : Prop where
  pools : st'.pools g = st.pools g
  owned : ∀ w, st'.Owned g w ↔ st.Owned g w
  wrappers : ∀ w, st.Owned g w → st'.wrappers w = st.wrappers w
  tickets : ∀ x, (st'.tickets g x).Perm (st.tickets g x)

variable {st st' st'' : Store I K D} {g : GuardId} {filled : List D} {idle : List PooledId}

omit [DecidableEq D] in
theorem SamePool.refl (st : Store I K D) (g : GuardId) : st.SamePool st g :=
  ⟨rfl, fun _ => Iff.rfl, fun _ _ => rfl, fun _ => List.Perm.refl _⟩

omit [DecidableEq D] in
theorem SamePool.trans (h : st.SamePool st' g) (h' : st'.SamePool st'' g) :
    st.SamePool st'' g where
  pools := h'.pools.trans h.pools
  owned w := (h'.owned w).trans (h.owned w)
  wrappers w hw := (h'.wrappers w ((h.owned w).mpr hw)).trans (h.wrappers w hw)
  tickets x := (h'.tickets x).trans (h.tickets x)

omit [DecidableEq D] in
/-- Tickets are for wrappers of the pool. -/
theorem owned_of_mem_tickets {x : EventId} {t : PooledId × Bool} (h : t ∈ st.tickets g x) :
    st.Owned g t.1 := by
  obtain ⟨ha, -, hticket⟩ := List.mem_filterMap.mp h
  unfold ticket at hticket
  split at hticket
  · split at hticket
    next howned =>
      cases hticket
      exact howned
    · cases hticket
  · cases hticket

namespace IdleWrappers

omit [DecidableEq D]

/-- Idle wrappers belong to the pool. -/
theorem owned_of_mem_idle (h : st.IdleWrappers g idle) {w : PooledId} (hw : w ∈ idle) :
    st.Owned g w := by
  obtain ⟨place, hlocated, hplace⟩ := h.wrappers
  apply (hplace w).mp
  have hidle : place w = some .idle := hlocated.mem_iff.mp hw
  simp [hidle]

/-- A wrapper to which an event refers is not idle. -/
theorem not_mem_idle (h : st.IdleWrappers g idle) {x : EventId} {t : PooledId × Bool}
    (ht : t ∈ st.tickets g x) : t.1 ∉ idle := by
  obtain ⟨place, hlocated, -⟩ := h.wrappers
  intro hmem
  have hidle : place t.1 = some .idle := hlocated.mem_iff.mp hmem
  have hevent : place t.1 = some (.event x) :=
    hlocated.mem_iff.mp (List.mem_map_of_mem ht)
  rw [hidle] at hevent
  cases hevent

/-- No wrapper has two events. -/
theorem event_unique (h : st.IdleWrappers g idle) {x y : EventId}
    {t u : PooledId × Bool} (ht : t ∈ st.tickets g x) (hu : u ∈ st.tickets g y)
    (heq : t.1 = u.1) : x = y := by
  obtain ⟨place, hlocated, -⟩ := h.wrappers
  have hx : place t.1 = some (.event x) := hlocated.mem_iff.mp (List.mem_map_of_mem ht)
  have hy : place u.1 = some (.event y) := hlocated.mem_iff.mp (List.mem_map_of_mem hu)
  rw [heq, hy] at hx
  cases hx
  rfl

/-- A wrapper is idle once. -/
theorem nodup_idle (h : st.IdleWrappers g idle) : idle.Nodup := by
  obtain ⟨place, hlocated, -⟩ := h.wrappers
  exact hlocated.nodup .idle

/-- An event does not refer twice to a wrapper. -/
theorem not_mem_others (h : st.IdleWrappers g idle) {x : EventId} {t : PooledId × Bool}
    {others : List (PooledId × Bool)} (hperm : (st.tickets g x).Perm (t :: others)) :
    ∀ u ∈ others, u.1 ≠ t.1 := by
  obtain ⟨place, hlocated, -⟩ := h.wrappers
  have hnodup : ((st.tickets g x).map Prod.fst).Nodup := hlocated.nodup (.event x)
  rw [(hperm.map Prod.fst).nodup_iff, List.map_cons, List.nodup_cons] at hnodup
  intro u hu heq
  apply hnodup.1
  rw [← heq]
  exact List.mem_map_of_mem hu

/-- The same pool has the same idle wrappers. -/
theorem of_samePool (h : st.IdleWrappers g idle) (hsame : st.SamePool st' g) :
    st'.IdleWrappers g idle := by
  constructor
  · rw [hsame.pools]
    refine h.chain.congr fun w hw => ?_
    rw [hsame.wrappers w (h.owned_of_mem_idle hw)]
  · rw [hsame.pools]
    exact h.last
  · obtain ⟨place, hlocated, hplace⟩ := h.wrappers
    refine ⟨place, hlocated.congr fun p => ?_, fun w => (hplace w).trans (hsame.owned w).symm⟩
    cases p with
    | idle => exact List.Perm.refl _
    | event x => exact (hsame.tickets x).map Prod.fst
  · intro w hw hmem
    have howned := (hsame.owned w).mp hw
    rw [hsame.wrappers w howned]
    exact h.next w howned hmem

/-- A wrapper goes from an event to the front of the idle list. -/
theorem put (h : st.IdleWrappers g idle) {e : EventId} {w : PooledId} (hw : w ∉ idle)
    (hlist : (st'.pools g).apList = some w)
    (hlast : (st'.pools g).apLast =
      if (st.pools g).apList.isNone then some w else (st.pools g).apLast)
    (howned : ∀ v, st'.Owned g v ↔ st.Owned g v)
    (hnext : ∀ v, st.Owned g v → (st'.wrappers v).next =
      if v = w then (st.pools g).apList else (st.wrappers v).next)
    (hheld : st.Owned g w)
    (hfrom : ((st.tickets g e).map Prod.fst).Perm (w :: (st'.tickets g e).map Prod.fst))
    (hrest : ∀ x, x ≠ e →
      ((st'.tickets g x).map Prod.fst).Perm ((st.tickets g x).map Prod.fst)) :
    st'.IdleWrappers g (w :: idle) := by
  constructor
  · refine ⟨hlist, ?_⟩
    have hfirst : (st'.wrappers w).next = (st.pools g).apList := by simp [hnext w hheld]
    show Chain _ (st'.wrappers w).next idle
    rw [hfirst]
    refine h.chain.congr fun v hv => ?_
    have hne : v ≠ w := fun heq => hw (heq ▸ hv)
    simp [hnext v (h.owned_of_mem_idle hv), hne]
  · rw [hlast, List.getLast?_cons]
    cases idle with
    | nil => simp [h.chain.first_eq_none_iff.mpr rfl]
    | cons v rest => simp [h.chain.1, h.last, List.getLast?_cons]
  · obtain ⟨place, hlocated, hplace⟩ := h.wrappers
    have hat : place w = some (.event e) :=
      hlocated.mem_iff.mp (hfrom.mem_iff.mpr List.mem_cons_self)
    refine ⟨_, hlocated.move (x := w) (p := .event e) (q := .idle) (by simp) hfrom
      (List.Perm.refl _) fun r hr hri => ?_, fun v => ?_⟩
    · cases r with
      | idle => exact absurd rfl hri
      | event x => exact hrest x fun heq => hr (by rw [heq])
    · rw [howned v, ← hplace v]
      by_cases hv : v = w <;> simp [hv, hat]
  · intro v hv hmem
    have hne : v ≠ w := fun heq => hmem (by simp [heq])
    have hold := (howned v).mp hv
    rw [hnext v hold, if_neg hne]
    exact h.next v hold fun hv' => hmem (List.mem_cons_of_mem _ hv')

end IdleWrappers

namespace PoolInvariant

/-- The same pool keeps the invariant. -/
theorem of_samePool (h : st.PoolInvariant g filled idle) (hsame : st.SamePool st' g) :
    st'.PoolInvariant g filled idle := by
  refine ⟨h.toIdleWrappers.of_samePool hsame, ?_, ?_, ?_, ?_⟩
  · intro w hw
    rw [hsame.wrappers w (h.owned_of_mem_idle hw)]
    exact h.idleData w hw
  · intro x t ht
    have hold : t ∈ st.tickets g x := (hsame.tickets x).mem_iff.mp ht
    rw [hsame.wrappers t.1 (owned_of_mem_tickets hold)]
    exact h.heldData x t hold
  · rw [hsame.pools]
    exact h.waiting
  · obtain ⟨place, hlocated, hplace⟩ := h.resources
    refine ⟨place, hlocated.congr fun p => ?_, hplace⟩
    cases p with
    | queue => simp [Store.resources, hsame.pools]
    | wrapper w =>
        by_cases hw : st.Owned g w
        · simp [Store.resources, hw, (hsame.owned w).mpr hw, hsame.wrappers w hw]
        · simp [Store.resources, hw, mt (hsame.owned w).mp hw]

end PoolInvariant

/-! ## References -/

section References

omit [DecidableEq D]

/-- Replacing one element of a list replaces its image. -/
theorem perm_filterMap_set {α β : Type} (f : α → Option β) {l : List α} {i : Nat} {a : α}
    (h : l[i]? = some a) :
    ∃ others, (l.filterMap f).Perm ((f a).toList ++ others) ∧
      ∀ b, ((l.set i b).filterMap f).Perm ((f b).toList ++ others) := by
  obtain ⟨hlt, hget⟩ := List.getElem?_eq_some_iff.mp h
  have hmove : ∀ b, ((l.take i).filterMap f ++ ((f b).toList ++ (l.drop (i + 1)).filterMap f)).Perm
      ((f b).toList ++ ((l.take i).filterMap f ++ (l.drop (i + 1)).filterMap f)) := by
    intro b
    rw [← List.append_assoc, ← List.append_assoc]
    exact List.perm_append_comm.append_right _
  have hcons : ∀ b, (b :: l.drop (i + 1)).filterMap f =
      (f b).toList ++ (l.drop (i + 1)).filterMap f := by
    intro b
    cases hb : f b <;> simp [hb]
  refine ⟨(l.take i).filterMap f ++ (l.drop (i + 1)).filterMap f, ?_, fun b => ?_⟩
  · have hsplit : l.filterMap f = (l.take i).filterMap f ++ (l.drop i).filterMap f := by
      rw [← List.filterMap_append, List.take_append_drop]
    rw [hsplit, List.drop_eq_getElem_cons hlt, hget, hcons]
    exact hmove a
  · rw [List.set_eq_take_append_cons_drop, if_pos hlt, List.filterMap_append, hcons]
    exact hmove b

theorem ticket_congr (howned : ∀ w, st'.Owned g w ↔ st.Owned g w) (ha : HeldAtomic I K D) :
    st'.ticket g ha = st.ticket g ha := by
  unfold ticket
  split
  next w _ => simp only [howned w]
  · rfl

theorem ticketsOf_congr (howned : ∀ w, st'.Owned g w ↔ st.Owned g w)
    (holders : List (HeldAtomic I K D)) : st'.ticketsOf g holders = st.ticketsOf g holders :=
  List.filterMap_congr fun ha _ => ticket_congr howned ha

/-- A reference without an atomic has no ticket. -/
theorem ticket_eq_none {ha : HeldAtomic I K D} (h : ha.atom = none) : st.ticket g ha = none := by
  simp [ticket, h]

/-- A reference to a wrapper of the pool has its ticket. -/
theorem ticket_eq_some {ha : HeldAtomic I K D} {w : PooledId} (h : ha.atom = some (.pooled w))
    (howned : st.Owned g w) : st.ticket g ha = some (w, ha.haveit) := by
  simp [ticket, h, howned]

/-- Only the assigned reference of an event counts. -/
theorem tickets_of_set {e : EventId} {i : Nat} {ha : HeldAtomic I K D}
    (hha : (st.events e).holders[i]? = some ha) :
    ∃ others, (st.tickets g e).Perm ((st.ticket g ha).toList ++ others) ∧
      ∀ (st' : Store I K D) (ha' : HeldAtomic I K D),
        (∀ w, st'.Owned g w ↔ st.Owned g w) →
        (st'.events e).holders = (st.events e).holders.set i ha' →
        (st'.tickets g e).Perm ((st.ticket g ha').toList ++ others) := by
  obtain ⟨others, hold, hnew⟩ := perm_filterMap_set (st.ticket g) hha
  refine ⟨others, hold, fun st' ha' howned hevent => ?_⟩
  rw [tickets, hevent, ticketsOf_congr howned]
  exact hnew ha'

theorem tickets_of_events_eq {x : EventId} (howned : ∀ w, st'.Owned g w ↔ st.Owned g w)
    (hevent : (st'.events x).holders = (st.events x).holders) :
    st'.tickets g x = st.tickets g x := by
  rw [tickets, hevent, ticketsOf_congr howned, tickets]

/-- An assignment that does not concern the pool. -/
theorem samePool_of_set {e : EventId} {i : Nat} {ha ha' : HeldAtomic I K D}
    (hha : (st.events e).holders[i]? = some ha) (hticket : st.ticket g ha' = st.ticket g ha)
    (hpools : st'.pools g = st.pools g) (howned : ∀ w, st'.Owned g w ↔ st.Owned g w)
    (hwrappers : ∀ w, st.Owned g w → st'.wrappers w = st.wrappers w)
    (hevent : (st'.events e).holders = (st.events e).holders.set i ha')
    (hothers : ∀ x, x ≠ e → st'.events x = st.events x) : st.SamePool st' g := by
  refine ⟨hpools, howned, hwrappers, fun x => ?_⟩
  by_cases hx : x = e
  · subst hx
    obtain ⟨others, hold, hnew⟩ := tickets_of_set (g := g) hha
    have hset := hnew st' ha' howned hevent
    rw [hticket] at hset
    exact hset.trans hold.symm
  · exact List.Perm.of_eq (tickets_of_events_eq howned (by rw [hothers x hx]))

/-- Replacing a reference by one with the same ticket keeps the pool. -/
theorem samePool_setHeld {e : EventId} {i : Nat} {ha ha' : HeldAtomic I K D}
    (hha : (st.events e).holders[i]? = some ha) (hticket : st.ticket g ha' = st.ticket g ha) :
    st.SamePool (st.setHeld e i ha') g :=
  samePool_of_set hha hticket rfl (fun _ => Iff.rfl) (fun _ _ => rfl)
    (by rw [events_setHeld_self]) fun _ hx => events_setHeld_ne _ hx

/-- The same references with the same wrappers. -/
theorem samePool_of_eq (hpools : st'.pools g = st.pools g) (hwrapped : st'.wrapped = st.wrapped)
    (hwrappers : st'.wrappers = st.wrappers)
    (hevents : ∀ x, (st'.events x).holders.Perm (st.events x).holders) :
    st.SamePool st' g := by
  have howned : ∀ w, st'.Owned g w ↔ st.Owned g w := by
    intro w
    rw [Owned, Owned, hwrapped, hwrappers]
  refine ⟨hpools, howned, fun w _ => by rw [hwrappers], fun x => ?_⟩
  rw [tickets, ticketsOf_congr howned]
  exact (hevents x).filterMap _

end References

namespace PoolInvariant

/-! ## Taking a wrapper -/

variable {e : EventId} {i : Nat} {ha ha' : HeldAtomic I K D}

/-- A reference takes the first idle wrapper. -/
theorem takeIdle {rest : List PooledId} {w : PooledId}
    (h : st.PoolInvariant g filled (w :: rest))
    (hha : (st.events e).holders[i]? = some ha) (hatom : ha.atom = none)
    (hatom' : ha'.atom = some (.pooled w)) (hfree : ha'.haveit = false)
    (hpool : st'.pools g = { st.pools g with
      apList := (st.wrappers w).next,
      apLast := if (st.wrappers w).next.isNone then none else (st.pools g).apLast })
    (hwrapped : st'.wrapped = st.wrapped)
    (hwrappers : ∀ v, st'.wrappers v =
      if v = w then { st.wrappers w with next := none } else st.wrappers v)
    (hevent : (st'.events e).holders = (st.events e).holders.set i ha')
    (hothers : ∀ x, x ≠ e → st'.events x = st.events x) :
    st'.PoolInvariant g filled rest := by
  have hw : st.Owned g w := h.owned_of_mem_idle List.mem_cons_self
  have hnot : w ∉ rest := (List.nodup_cons.mp h.nodup_idle).1
  have howned : ∀ v, st'.Owned g v ↔ st.Owned g v := by
    intro v
    rw [Owned, Owned, hwrapped, hwrappers v]
    by_cases hv : v = w <;> simp [hv]
  have hdata : ∀ v, (st'.wrappers v).data = (st.wrappers v).data := by
    intro v
    rw [hwrappers v]
    by_cases hv : v = w <;> simp [hv]
  obtain ⟨others, hold, hnew⟩ := tickets_of_set (g := g) hha
  have hset := hnew st' ha' howned hevent
  rw [ticket_eq_none hatom, Option.toList_none, List.nil_append] at hold
  rw [ticket_eq_some hatom' hw, Option.toList_some, hfree] at hset
  have htickets : (st'.tickets g e).Perm ((w, false) :: st.tickets g e) :=
    hset.trans (hold.symm.cons _)
  have hsame : ∀ x, x ≠ e → st'.tickets g x = st.tickets g x := fun x hx =>
    tickets_of_events_eq howned (by rw [hothers x hx])
  have hchain : Chain (fun v => (st.wrappers v).next) (st.wrappers w).next rest := h.chain.2
  refine ⟨⟨?_, ?_, ?_, ?_⟩, ?_, ?_, ?_, ?_⟩
  · rw [hpool]
    refine hchain.congr fun v hv => ?_
    have hne : v ≠ w := fun heq => hnot (heq ▸ hv)
    rw [hwrappers v, if_neg hne]
  · rw [hpool]
    show (if (st.wrappers w).next.isNone then none else (st.pools g).apLast) = rest.getLast?
    rw [h.last]
    cases rest with
    | nil => simp [hchain.first_eq_none_iff.mpr rfl]
    | cons v rest => simp [hchain.1, List.getLast?_cons]
  · obtain ⟨place, hlocated, hplace⟩ := h.wrappers
    have hat : place w = some .idle := hlocated.mem_iff.mp List.mem_cons_self
    refine ⟨_, hlocated.move (x := w) (p := .idle) (q := .event e) (by simp)
      (List.Perm.refl _) (htickets.map Prod.fst) fun r hr hre => ?_, fun v => ?_⟩
    · cases r with
      | idle => exact absurd rfl hr
      | event x =>
          have hx : x ≠ e := fun heq => hre (by rw [heq])
          simp [wrapperContents, hsame x hx]
    · rw [howned v, ← hplace v]
      by_cases hv : v = w <;> simp [hv, hat]
  · intro v hv hmem
    rw [hwrappers v]
    by_cases hvw : v = w
    · simp [hvw]
    · rw [if_neg hvw]
      exact h.next v ((howned v).mp hv) (by simp [hvw, hmem])
  · intro v hv
    rw [hdata v]
    exact h.idleData v (List.mem_cons_of_mem _ hv)
  · intro x t ht
    rw [hdata t.1]
    by_cases hx : x = e
    · subst hx
      rcases List.mem_cons.mp (htickets.mem_iff.mp ht) with rfl | hmem
      · simp [h.idleData w List.mem_cons_self]
      · exact h.heldData x t hmem
    · rw [hsame x hx] at ht
      exact h.heldData x t ht
  · rw [hpool]
    exact h.waiting
  · obtain ⟨place, hlocated, hplace⟩ := h.resources
    refine ⟨place, hlocated.congr fun p => ?_, hplace⟩
    cases p with
    | queue => simp [Store.resources, hpool]
    | wrapper v =>
        by_cases hv : st.Owned g v
        · simp [Store.resources, hv, (howned v).mpr hv, hdata v]
        · simp [Store.resources, hv, mt (howned v).mp hv]

/-- A reference takes a wrapper that is made for it. -/
theorem takeNew (h : st.PoolInvariant g filled []) (hreferred : ∀ x, ∀ ha ∈ (st.events x).holders,
      ∀ v, ha.atom = some (.pooled v) → v < st.wrapped)
    (hha : (st.events e).holders[i]? = some ha) (hatom : ha.atom = none)
    (hatom' : ha'.atom = some (.pooled st.wrapped)) (hfree : ha'.haveit = false)
    (hpools : st'.pools g = st.pools g) (hwrapped : st'.wrapped = st.wrapped + 1)
    (hwrappers : ∀ v, st'.wrappers v =
      if v = st.wrapped then { data := none, pool := g } else st.wrappers v)
    (hevent : (st'.events e).holders = (st.events e).holders.set i ha')
    (hothers : ∀ x, x ≠ e → st'.events x = st.events x) :
    st'.PoolInvariant g filled [] := by
  have hnot : ¬ st.Owned g st.wrapped := fun hno => lt_irrefl _ hno.1
  have hnew : st'.Owned g st.wrapped := by
    rw [Owned, hwrapped, hwrappers]
    simp
  have howned : ∀ v, v ≠ st.wrapped → (st'.Owned g v ↔ st.Owned g v) := by
    intro v hv
    rw [Owned, Owned, hwrapped, hwrappers v, if_neg hv]
    exact and_congr_left fun _ =>
      ⟨fun hlt => Nat.lt_of_le_of_ne (Nat.lt_succ_iff.mp hlt) hv, Nat.lt_succ_of_lt⟩
  -- no reference has the new wrapper yet
  have hticket : ∀ x, ∀ ha ∈ (st.events x).holders, st'.ticket g ha = st.ticket g ha := by
    intro x ha hmem
    unfold ticket
    split
    next w hw =>
      have hne : w ≠ st.wrapped := (hreferred x ha hmem w hw).ne
      simp only [howned w hne]
    · rfl
  have hticketsOf : ∀ x, st'.ticketsOf g (st.events x).holders = st.tickets g x :=
    fun x => List.filterMap_congr (hticket x)
  have hsame : ∀ x, x ≠ e → st'.tickets g x = st.tickets g x := by
    intro x hx
    rw [tickets, hothers x hx, hticketsOf]
  have htickets : (st'.tickets g e).Perm ((st.wrapped, false) :: st.tickets g e) := by
    obtain ⟨others, hold, hset⟩ := perm_filterMap_set (st'.ticket g) hha
    have hset' := hset ha'
    rw [ticket_eq_some hatom' hnew, Option.toList_some, hfree] at hset'
    rw [ticket_eq_none hatom, Option.toList_none, List.nil_append] at hold
    rw [tickets, hevent]
    refine hset'.trans (List.Perm.cons _ ?_)
    rw [← hticketsOf e]
    exact hold.symm
  have hdata : ∀ v, st.Owned g v → st'.wrappers v = st.wrappers v := by
    intro v hv
    rw [hwrappers v, if_neg hv.1.ne]
  refine ⟨⟨?_, ?_, ?_, ?_⟩, ?_, ?_, ?_, ?_⟩
  · rw [hpools]
    exact h.chain
  · rw [hpools]
    exact h.last
  · obtain ⟨place, hlocated, hplace⟩ := h.wrappers
    have hnowhere : place st.wrapped = none := by
      by_contra hsome
      exact hnot ((hplace _).mp hsome)
    refine ⟨_, hlocated.enter (q := .event e) hnowhere (htickets.map Prod.fst) fun r hr => ?_,
      fun v => ?_⟩
    · cases r with
      | idle => exact List.Perm.refl _
      | event x =>
          have hx : x ≠ e := fun heq => hr (by rw [heq])
          simp [wrapperContents, hsame x hx]
    · by_cases hv : v = st.wrapped
      · subst hv
        simp [hnew]
      · rw [Function.update_of_ne hv, hplace v, howned v hv]
  · intro v hv hmem
    rw [hwrappers v]
    by_cases hvw : v = st.wrapped
    · simp [hvw]
    · rw [if_neg hvw]
      exact h.next v ((howned v hvw).mp hv) hmem
  · intro v hv
    cases hv
  · intro x t ht
    by_cases hx : x = e
    · subst hx
      rcases List.mem_cons.mp (htickets.mem_iff.mp ht) with rfl | hmem
      · simp [hwrappers]
      · rw [hdata t.1 (owned_of_mem_tickets hmem)]
        exact h.heldData x t hmem
    · rw [hsame x hx] at ht
      rw [hdata t.1 (owned_of_mem_tickets ht)]
      exact h.heldData x t ht
  · rw [hpools]
    exact h.waiting
  · obtain ⟨place, hlocated, hplace⟩ := h.resources
    refine ⟨place, hlocated.congr fun p => ?_, hplace⟩
    cases p with
    | queue => simp [Store.resources, hpools]
    | wrapper v =>
        by_cases hv : v = st.wrapped
        · subst hv
          simp [Store.resources, hnot, hwrappers]
        · by_cases hv' : st.Owned g v
          · simp [Store.resources, hv', (howned v hv).mpr hv', hdata v hv']
          · simp [Store.resources, hv', mt (howned v hv).mp hv']

end PoolInvariant

section Lookups

variable [LinearOrder K] [Inhabited K] {guards : GuardId → Guard}

omit [DecidableEq D] in
/-- Only the lookup in a pool concerns wrappers. -/
theorem getAtomic_cases {f : GuardId} {key key' : K} {p : AtomicPtr}
    (h : st.getAtomic guards f key = .ok (st', p, key')) :
    ((∃ a, p = .plain a) ∧ st'.pools = st.pools ∧ st'.wrapped = st.wrapped ∧
        st'.wrappers = st.wrappers) ∨
      ∃ w, p = .pooled w ∧ st.poolGet f = .ok (st', w) := by
  simp only [getAtomic] at h
  split at h
  · cases h
    exact Or.inl ⟨⟨_, rfl⟩, rfl, rfl, rfl⟩
  · split at h
    · cases h
      exact Or.inl ⟨⟨_, rfl⟩, rfl, rfl, rfl⟩
    · cases h
      exact Or.inl ⟨⟨_, rfl⟩, rfl, rfl, rfl⟩
  · cases hres : st.poolGet f with
    | error err =>
        rw [hres] at h
        cases h
    | ok result =>
        rw [hres] at h
        cases h
        exact Or.inr ⟨_, rfl, rfl⟩

omit [DecidableEq D] [LinearOrder K] in
/-- A wrapper of another pool. -/
theorem poolGet_other (hwf : WellFormed guards st) {f : GuardId} {w : PooledId} (hf : f ≠ g)
    (h : st.poolGet f = .ok (st', w)) :
    st'.pools g = st.pools g ∧ (∀ v, st'.Owned g v ↔ st.Owned g v) ∧
      (∀ v, st.Owned g v → st'.wrappers v = st.wrappers v) ∧ ¬ st.Owned g w := by
  simp only [poolGet] at h
  split at h
  next v hidle =>
    split at h
    · cases h
    · cases h
      have hw := hwf.idle f w hidle
      have hnot : ¬ st.Owned g w := fun hno => hf (hw.2.symm.trans hno.2)
      refine ⟨by simp [Ne.symm hf], fun v => ?_, fun v hv => ?_, hnot⟩
      · by_cases hv : v = w <;> simp [Owned, hv]
      · have hne : v ≠ w := fun heq => hnot (heq ▸ hv)
        simp [hne]
  · cases h
    have hnot : ¬ st.Owned g st.wrapped := fun hno => lt_irrefl _ hno.1
    refine ⟨rfl, fun v => ?_, fun v hv => ?_, hnot⟩
    · by_cases hv : v = st.wrapped
      · subst hv
        simp [Owned, hf]
      · have hlt : v < st.wrapped + 1 ↔ v < st.wrapped :=
          ⟨fun hlt => Nat.lt_of_le_of_ne (Nat.lt_succ_iff.mp hlt) hv, Nat.lt_succ_of_lt⟩
        simp [Owned, hv, hlt]
    · simp [hv.1.ne]

namespace PoolInvariant

variable {e : EventId} {i : Nat} {ha ha' : HeldAtomic I K D}

omit [LinearOrder K] in
/-- A reference takes a wrapper of the pool. -/
theorem poolGet (h : st.PoolInvariant g filled idle)
    (hreferred : ∀ x, ∀ ha ∈ (st.events x).holders, st.Referred ha) {st1 : Store I K D}
    {w : PooledId} (hget : st.poolGet g = .ok (st1, w))
    (hha : (st.events e).holders[i]? = some ha) (hatom : ha.atom = none)
    (hatom' : ha'.atom = some (.pooled w)) (hfree : ha'.haveit = false) :
    ∃ idle', (st1.setHeld e i ha').PoolInvariant g filled idle' := by
  simp only [Store.poolGet] at hget
  split at hget
  next v hidle =>
    split at hget
    · cases hget
    · cases hget
      cases idle with
      | nil =>
          have hnone : (st.pools g).apList = none := h.chain
          rw [hidle] at hnone
          cases hnone
      | cons v rest =>
          have hfirst := h.chain.1
          rw [hidle] at hfirst
          cases hfirst
          exact ⟨rest, h.takeIdle hha hatom hatom' hfree (by simp) (by simp)
            (fun v => by simp) (by simp [setPool, setWrapper]) fun x hx => by
              rw [events_setHeld_ne _ hx]
              rfl⟩
  next hidle =>
    cases hget
    have hempty := h.chain.first_eq_none_iff.mp hidle
    subst hempty
    refine ⟨[], h.takeNew (fun x ha hmem v hv => (hreferred x ha hmem _ hv).1) hha hatom hatom'
      hfree rfl rfl (fun v => by simp) (by simp [setWrapper]) fun x hx => ?_⟩
    rw [events_setHeld_ne _ hx]
    rfl

/-- Building a reference keeps the invariant. -/
theorem build (h : st.PoolInvariant g filled idle) (hwf : WellFormed guards st)
    (hreferred : ∀ x, ∀ ha ∈ (st.events x).holders, st.Referred ha)
    (hfree : ∀ ha, (st.events e).holders[i]? = some ha → ha.haveit = false) {allowLate : Bool}
    (hbuild : st.build guards e i allowLate = .ok st') :
    ∃ idle', st'.PoolInvariant g filled idle' := by
  rcases build_cases hbuild with
    rfl | ⟨ha, hha, hatom, -, ⟨-, rfl⟩ | ⟨key, st1, p, key', -, hget, rfl⟩⟩
  · exact ⟨idle, h⟩
  · refine ⟨idle, h.of_samePool (samePool_setHeld hha ?_)⟩
    rw [ticket_eq_none hatom, ticket_eq_none]
    exact hatom
  · have hevents := (getAtomic_frame hwf hget).1
    have hset : ∀ ha', ((st1.setHeld e i ha').events e).holders =
        (st.events e).holders.set i ha' := by
      intro ha'
      rw [events_setHeld_self, hevents]
    have hothers : ∀ ha' x, x ≠ e → (st1.setHeld e i ha').events x = st.events x := by
      intro ha' x hx
      rw [events_setHeld_ne _ hx, hevents]
    rcases getAtomic_cases hget with ⟨⟨a, rfl⟩, hpools, hwrapped, hwrappers⟩ | ⟨w, rfl, hpool⟩
    · refine ⟨idle, h.of_samePool (samePool_of_set hha ?_ ?_ ?_ ?_ (hset _) (hothers _))⟩
      · rw [ticket_eq_none hatom]
        rfl
      · simp [hpools]
      · intro w
        simp [Owned, hwrapped, hwrappers]
      · intro w _
        simp [hwrappers]
    · by_cases hf : ha.ref.guard = g
      · rw [hf] at hpool
        exact h.poolGet hreferred hpool hha hatom rfl (hfree ha hha)
      · have hother := poolGet_other hwf hf hpool
        refine ⟨idle, h.of_samePool (samePool_of_set hha ?_ hother.1 ?_ ?_ (hset _) (hothers _))⟩
        · rw [ticket_eq_none hatom]
          simp [ticket, hother.2.2.2]
        · exact hother.2.1
        · exact hother.2.2.1

end PoolInvariant

end Lookups

/-! ## Requests -/

omit [DecidableEq D] in
/-- What does not refer to a wrapper of the pool has no ticket. -/
theorem ticket_eq_none_of_not_owned {ha : HeldAtomic I K D}
    (h : ∀ w, ha.atom = some (.pooled w) → ¬ st.Owned g w) : st.ticket g ha = none := by
  unfold ticket
  split
  next w hw => exact if_neg (h w hw)
  · rfl

omit [DecidableEq D] in
/-- What a request does to the pools is what its atomic does. -/
theorem acquireOrWait_eq {e : EventId} {i : Nat} {ha : HeldAtomic I K D} {p : AtomicPtr}
    {res : Bool} (hp : ha.atom = some p) (h : st.acquireOrWait e i ha = .ok (st', res)) :
    st'.pools = ((st.setHeld e i { ha with haveit := false }).acquireAtomic p e
        ha.ref.wtype).1.pools ∧
      st'.wrapped = ((st.setHeld e i { ha with haveit := false }).acquireAtomic p e
        ha.ref.wtype).1.wrapped ∧
      st'.wrappers = ((st.setHeld e i { ha with haveit := false }).acquireAtomic p e
        ha.ref.wtype).1.wrappers ∧
      res = ((st.setHeld e i { ha with haveit := false }).acquireAtomic p e ha.ref.wtype).2 := by
  simp only [acquireOrWait] at h
  split at h
  · cases h
  · cases h
  next key p' _ hp' =>
    cases hp.symm.trans hp'
    cases h
    split <;> exact ⟨rfl, rfl, rfl, rfl⟩

omit [DecidableEq D] in
/-- A request on an atomic that is no wrapper of the pool. -/
theorem acquireAtomic_other (st : Store I K D) {p : AtomicPtr} (ev : EventId) (wtype : Nat)
    (hp : ∀ w, p = .pooled w → (st.wrappers w).pool ≠ g) :
    (st.acquireAtomic p ev wtype).1.pools g = st.pools g ∧
      (∀ v, (st.acquireAtomic p ev wtype).1.Owned g v ↔ st.Owned g v) ∧
      ∀ v, st.Owned g v → (st.acquireAtomic p ev wtype).1.wrappers v = st.wrappers v := by
  cases p with
  | plain a => exact ⟨rfl, fun _ => Iff.rfl, fun _ _ => rfl⟩
  | pooled w =>
      have hne := hp w rfl
      have howned : ∀ v, st.Owned g v → v ≠ w := fun v hv heq => hne (by rw [← heq]; exact hv.2)
      rw [acquireAtomic]
      cases (st.pools (st.wrappers w).pool).dq with
      | cons d rest =>
          refine ⟨by simp [Ne.symm hne], fun v => ?_, fun v hv => by simp [howned v hv]⟩
          by_cases hv : v = w <;> simp [Owned, hv]
      | nil =>
          refine ⟨by simp [Ne.symm hne], fun v => ?_, fun v hv => by simp [howned v hv]⟩
          by_cases hv : v = w <;> simp [Owned, hv]

namespace PoolInvariant

variable {e : EventId} {i : Nat} {ha : HeldAtomic I K D}

/-- A resource goes from the queue to the wrapper that asks for it. -/
theorem grant (h : st.PoolInvariant g filled idle) {w : PooledId} {d : D} {rest : List D}
    (hw : st.Owned g w) (hha : (st.events e).holders[i]? = some ha)
    (hatom : ha.atom = some (.pooled w)) (hfree : ha.haveit = false)
    (hdq : (st.pools g).dq = d :: rest)
    (hpool : st'.pools g = { st.pools g with dq := rest }) (hwrapped : st'.wrapped = st.wrapped)
    (hwrappers : ∀ v, st'.wrappers v =
      if v = w then { st.wrappers w with data := some d } else st.wrappers v)
    (hevent : (st'.events e).holders = (st.events e).holders.set i { ha with haveit := true })
    (hothers : ∀ x, x ≠ e → st'.events x = st.events x) :
    st'.PoolInvariant g filled idle := by
  have howned : ∀ v, st'.Owned g v ↔ st.Owned g v := by
    intro v
    rw [Owned, Owned, hwrapped, hwrappers v]
    by_cases hv : v = w <;> simp [hv]
  have hnext : ∀ v, (st'.wrappers v).next = (st.wrappers v).next := by
    intro v
    rw [hwrappers v]
    by_cases hv : v = w <;> simp [hv]
  obtain ⟨others, hold, hnew⟩ := tickets_of_set (g := g) hha
  have hset := hnew st' _ howned hevent
  rw [ticket_eq_some hatom hw, Option.toList_some, hfree, List.singleton_append] at hold
  rw [ticket_eq_some (by exact hatom) hw, Option.toList_some, List.singleton_append] at hset
  have hmem : (w, false) ∈ st.tickets g e := hold.mem_iff.mpr List.mem_cons_self
  have hidle : w ∉ idle := h.not_mem_idle hmem
  have hsame : ∀ x, x ≠ e → st'.tickets g x = st.tickets g x := fun x hx =>
    tickets_of_events_eq howned (by rw [hothers x hx])
  have hnodata : (st.wrappers w).data = none := by
    have hdata := h.heldData e _ hmem
    simpa using hdata
  refine ⟨⟨?_, ?_, ?_, ?_⟩, ?_, ?_, ?_, ?_⟩
  · rw [hpool]
    exact h.chain.congr fun v _ => hnext v
  · rw [hpool]
    exact h.last
  · obtain ⟨place, hlocated, hplace⟩ := h.wrappers
    refine ⟨place, hlocated.congr fun p => ?_, fun v => (hplace v).trans (howned v).symm⟩
    cases p with
    | idle => exact List.Perm.refl _
    | event x =>
        by_cases hx : x = e
        · subst hx
          exact (hset.map Prod.fst).trans (hold.map Prod.fst).symm
        · simp [wrapperContents, hsame x hx]
  · intro v hv hv'
    rw [hnext v]
    exact h.next v ((howned v).mp hv) hv'
  · intro v hv
    have hne : v ≠ w := fun heq => hidle (heq ▸ hv)
    rw [hwrappers v, if_neg hne]
    exact h.idleData v hv
  · intro x t ht
    by_cases hx : x = e
    · subst hx
      rcases List.mem_cons.mp (hset.mem_iff.mp ht) with rfl | hother
      · simp [hwrappers]
      · have hne : t.1 ≠ w := h.not_mem_others hold t hother
        rw [hwrappers t.1, if_neg hne]
        exact h.heldData x t (hold.mem_iff.mpr (List.mem_cons_of_mem _ hother))
    · rw [hsame x hx] at ht
      have hne : t.1 ≠ w := fun heq => hx (h.event_unique ht hmem heq)
      rw [hwrappers t.1, if_neg hne]
      exact h.heldData x t ht
  · intro hq
    rw [hpool] at hq
    have hempty := h.waiting hq
    rw [hdq] at hempty
    cases hempty
  · obtain ⟨place, hlocated, hplace⟩ := h.resources
    have hat : place d = some .queue := hlocated.mem_iff.mp (by simp [Store.resources, hdq])
    refine ⟨_, hlocated.move (x := d) (p := .queue) (q := .wrapper w) (by simp)
      (by simp [Store.resources, hdq, hpool]) ?_ fun r hr hrw => ?_, fun d' => ?_⟩
    · simp [Store.resources, hw, (howned w).mpr hw, hwrappers, hnodata]
    · cases r with
      | queue => exact absurd rfl hr
      | wrapper v =>
          have hne : v ≠ w := fun heq => hrw (by rw [heq])
          by_cases hv : st.Owned g v
          · simp [Store.resources, hv, (howned v).mpr hv, hwrappers, hne]
          · simp [Store.resources, hv, mt (howned v).mp hv]
    · rw [← hplace d']
      by_cases hd : d' = d <;> simp [hd, hat]

/-- An event waits for a resource. -/
theorem wait (h : st.PoolInvariant g filled idle) {w : PooledId} {q : List EventId}
    (hw : st.Owned g w) (hha : (st.events e).holders[i]? = some ha)
    (hatom : ha.atom = some (.pooled w)) (hfree : ha.haveit = false)
    (hdq : (st.pools g).dq = []) (hpool : st'.pools g = { st.pools g with q := q })
    (hwrapped : st'.wrapped = st.wrapped)
    (hwrappers : ∀ v, st'.wrappers v =
      if v = w then { st.wrappers w with data := none } else st.wrappers v)
    (hevent : (st'.events e).holders = (st.events e).holders.set i { ha with haveit := false })
    (hothers : ∀ x, x ≠ e → st'.events x = st.events x) :
    st'.PoolInvariant g filled idle := by
  -- the wrapper had no data before
  have hmem : (w, false) ∈ st.tickets g e := by
    refine List.mem_filterMap.mpr ⟨ha, List.mem_of_getElem? hha, ?_⟩
    rw [ticket_eq_some hatom hw, hfree]
  have hnodata : (st.wrappers w).data = none := by
    have hdata := h.heldData e _ hmem
    simpa using hdata
  have hall : st'.wrappers = st.wrappers := by
    funext v
    rw [hwrappers v]
    split
    next hv =>
      subst hv
      cases hwrapper : st.wrappers v
      simp_all
    · rfl
  have hqueued : (st.setPool g { st.pools g with q := q }).PoolInvariant g filled idle := by
    refine ⟨⟨?_, ?_, h.wrappers, h.next⟩, h.idleData, h.heldData, fun _ => ?_, ?_⟩
    · simpa using h.chain
    · simpa using h.last
    · simpa using hdq
    · obtain ⟨place, hlocated, hplace⟩ := h.resources
      refine ⟨place, hlocated.congr fun p => ?_, hplace⟩
      cases p with
      | queue => simp [Store.resources]
      | wrapper v => exact List.Perm.refl _
  refine hqueued.of_samePool (samePool_of_set hha ?_ ?_ ?_ ?_ hevent hothers)
  · rw [← hfree]
  · rw [hpool]
    simp
  · intro v
    simp [Owned, hwrapped, hall]
  · intro v _
    simp [hall]

/-- A request of the acting event, for whatever it refers to. -/
theorem acquireOrWait (h : st.PoolInvariant g filled idle)
    (href : st.Referred ha) (hha : (st.events e).holders[i]? = some ha)
    (hfree : ha.haveit = false) {res : Bool}
    (hacquire : st.acquireOrWait e i ha = .ok (st', res)) : st'.PoolInvariant g filled idle := by
  obtain ⟨p, hp, hrequested⟩ := requested_of_acquireOrWait (fun p hp => (href p hp).1) hacquire
  have hevent := congrArg Event.holders hrequested.event
  obtain ⟨hpools, hwrapped, hwrappers, hres⟩ := acquireOrWait_eq hp hacquire
  by_cases howned : ∃ w, p = .pooled w ∧ st.Owned g w
  · obtain ⟨w, rfl, hw⟩ := howned
    have hg := hw.2
    subst hg
    cases hdq : (st.pools (st.wrappers w).pool).dq with
    | cons d rest =>
        simp only [acquireAtomic, hdq, wrappers_setHeld, pools_setHeld]
          at hpools hwrapped hwrappers hres
        subst hres
        exact h.grant hw hha hp hfree hdq (by simp [hpools]) (by simp [hwrapped])
          (fun v => by simp [hwrappers]) hevent hrequested.others
    | nil =>
        simp only [acquireAtomic, hdq, wrappers_setHeld, pools_setHeld]
          at hpools hwrapped hwrappers hres
        subst hres
        exact h.wait (q := (st.pools (st.wrappers w).pool).q ++ [e]) hw hha hp hfree hdq
          (by simp [hpools, hdq]) (by simp [hwrapped]) (fun v => by simp [hwrappers]) hevent
          hrequested.others
  · have hpool : ∀ w, p = .pooled w → (st.wrappers w).pool ≠ g := by
      intro w hw hpool
      subst hw
      exact howned ⟨w, rfl, (href _ hp).1, hpool⟩
    have hother : _ ∧ (∀ v, _ ↔ st.Owned g v) ∧ ∀ v, st.Owned g v → _ :=
      acquireAtomic_other (st.setHeld e i { ha with haveit := false }) e ha.ref.wtype hpool
    have hnot : ∀ w, ha.atom = some (.pooled w) → ¬ st.Owned g w := by
      intro w hw howned'
      rw [hp] at hw
      exact howned ⟨w, Option.some_injective _ hw, howned'⟩
    refine h.of_samePool (samePool_of_set hha ?_ ?_ ?_ ?_ hevent hrequested.others)
    · rw [ticket_eq_none_of_not_owned hnot, ticket_eq_none_of_not_owned]
      exact hnot
    · rw [hpools]
      exact hother.1
    · intro v
      rw [Owned, hwrapped, hwrappers]
      exact hother.2.1 v
    · intro v hv
      rw [hwrappers]
      exact hother.2.2 v hv

end PoolInvariant

end Store
end Guards
end OFlux
