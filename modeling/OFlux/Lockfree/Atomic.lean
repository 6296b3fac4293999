import OFlux.Guards.Atomic
import OFlux.Library.LinkedQueue
import OFlux.Library.Loop
import OFlux.Library.Machine
import Mathlib.Algebra.Order.BigOperators.Group.List
import Mathlib.Algebra.Order.Group.Nat

/-!
# The lock-free exclusive atomic

The waiting events stand in a linked list that ends with a node without event.  Who
holds the atomic is told by the link of that last node: the word 1 says that it is free,
a null pointer that it is held.  Calls are taken one after another; the loops around the
compare-and-swaps are kept, so that a call could go around for ever.

Main results:

- Theorem {lit}`AtomicExclusive.bisimulation`: each call matches the call on the classic
  exclusive atomic.
- Theorem {lit}`AtomicExclusive.refines_classic`: the two give the same answers to every
  sequence of calls, and no event is lost or handed back twice.
-/

namespace OFlux
namespace Lockfree

open Library
open Guards

/-! ## Pointers -/

/-- A pointer by its bits, of which the lowest one can be a mark. -/
abbrev Pointer := Nat

/-- The null link. -/
def null : Pointer := 0

/-- A link of value 1 marks the free atomic. -/
def isOne (p : Nat) : Bool := p == 1

/-- The mark of value 3, at which the walks stop too. -/
def isThree (p : Nat) : Bool := p == 3

/-- The pointer without its mark. -/
def unmk (p : Nat) : Pointer := p - p % 2

/-- The address of a node: not null, and aligned. -/
def IsNode (p : Nat) : Prop := p % 4 = 0 ∧ p ≠ 0

namespace IsNode

variable {p : Nat}

/-- A node is not the null link. -/
theorem ne_null (h : IsNode p) : p ≠ null := h.2

/-- A node is not the mark of the free atomic. -/
theorem isOne_eq_false (h : IsNode p) : isOne p = false := by
  have hmod := h.1
  simp only [isOne, beq_eq_false_iff_ne]
  omega

/-- A node is not the mark of value 3. -/
theorem isThree_eq_false (h : IsNode p) : isThree p = false := by
  have hmod := h.1
  simp only [isThree, beq_eq_false_iff_ne]
  omega

@[simp]
theorem unmk_null : unmk null = null := rfl

theorem unmk_eq (h : IsNode p) : unmk p = p := by
  have hmod := h.1
  have heven : p % 2 = 0 := by omega
  rw [unmk, heven, Nat.sub_zero]

/-- An allocator never runs out of addresses. -/
theorem exists_fresh (inUse : List Nat) : ∃ p, IsNode p ∧ p ∉ inUse := by
  refine ⟨4 * (inUse.sum + 1), ⟨by omega, by omega⟩, fun hmem => ?_⟩
  have hle : 4 * (inUse.sum + 1) ≤ inUse.sum := List.le_sum_of_mem hmem
  omega

end IsNode

/-! ## The waiter list -/

/-- A node of the list; {lit}`type` stays with the node that a request brings. -/
structure EventBaseHolder where
  ev : Option EventId := none
  next : Pointer := null
  type : Nat := WType.none

/-- The waiters of an exclusive atomic: list nodes in memory with a head and a tail. -/
structure ExclusiveWaiterList where
  nodes : Pointer → EventBaseHolder
  head : Pointer
  tail : Pointer

namespace ExclusiveWaiterList

/-- Writes the link of node `p`. -/
def setNext (w : ExclusiveWaiterList) (p next : Pointer) : ExclusiveWaiterList :=
  { w with nodes := Function.update w.nodes p { w.nodes p with next := next } }

/-- Writes the event of node `p`. -/
def setEv (w : ExclusiveWaiterList) (p : Pointer) (ev : Option EventId) :
    ExclusiveWaiterList :=
  { w with nodes := Function.update w.nodes p { w.nodes p with ev := ev } }

/-- The constructor of a new node. -/
def construct (w : ExclusiveWaiterList) (p : Pointer) (ev : EventId) (type : Nat) :
    ExclusiveWaiterList :=
  { w with nodes := Function.update w.nodes p { ev := some ev, next := null, type := type } }

/-- One turn of the loop of {lit}`push`, with the event taken out of the node. -/
def pushTurn (e : Pointer) (ev : Option EventId) (w : ExclusiveWaiterList) :
    Turn Empty ExclusiveWaiterList Bool :=
  let h := w.head
  let hn := (w.nodes h).next
  if isOne hn then
    -- 1->2
    .done ((w.setNext h null).setEv e ev) true
  else
    let t := w.tail
    if unmk (w.nodes t).next ≠ null then .again w
    else if unmk t ≠ null ∧ (w.nodes t).next = null then
      -- (2,3)->3
      .done ({ w.setNext t e with tail := e }.setEv t ev) false
    else .again w

/-- A call of {lit}`push` that returns: true when the atomic was free. -/
def Push (w : ExclusiveWaiterList) (e : Pointer) (w' : ExclusiveWaiterList) (res : Bool) : Prop :=
  Returns (pushTurn e (w.nodes e).ev) ((w.setNext e null).setEv e none) (.ok (w', res))

/-- Where a call of {lit}`pop` is. -/
inductive PopAt where
  | loop
  | busyWaitOnEv (r : Pointer)

/-- One turn of a loop of {lit}`pop`. -/
def popTurn : ExclusiveWaiterList × PopAt → Turn Empty (ExclusiveWaiterList × PopAt) Pointer
  | (w, .loop) =>
      let h := w.head
      let hn := (w.nodes h).next
      let t := w.tail
      if unmk t ≠ null ∧ unmk (w.nodes t).next ≠ null then .again (w, .loop)
      else if h ≠ t ∧ hn ≠ null ∧ isOne hn = false ∧ (w.nodes h).ev ≠ none then
        -- 3->2
        .again ({ w with head := hn }.setNext h null, .busyWaitOnEv h)
      else if hn = null then
        -- 2->1
        .done (w.setNext h 1, .loop) null
      else .again (w, .loop)
  | (w, .busyWaitOnEv r) =>
      if (w.nodes r).ev = none then .again (w, .busyWaitOnEv r)
      else .done (w, .busyWaitOnEv r) r

/-- A call of {lit}`pop` that returns, with a null pointer when nothing waits. -/
def Pop (w w' : ExclusiveWaiterList) (r : Pointer) : Prop :=
  ∃ at_, Returns popTurn (w, .loop) (.ok ((w', at_), r))

/-- One turn of the walk of {lit}`count` over the waiting events. -/
def walkTurn (w : ExclusiveWaiterList) :
    Pointer × List EventId → Turn Empty (Pointer × List EventId) (List EventId)
  | (h, seen) =>
      if h = null ∨ isOne h = true ∨ isThree h = true then .done (h, seen) seen
      else
        match (w.nodes h).ev with
        | none => .done (h, seen) seen
        | some ev => .again ((w.nodes h).next, seen ++ [ev])

/-- The events that the walk meets. -/
def Waiting (w : ExclusiveWaiterList) (evs : List EventId) : Prop :=
  ∃ h, Returns w.walkTurn (w.head, []) (.ok ((h, evs), evs))

/-- Nobody holds the atomic: the link of the head is the mark of the free atomic. -/
def empty (w : ExclusiveWaiterList) : Bool :=
  isOne (w.nodes w.head).next

@[simp]
theorem nodes_setNext (w : ExclusiveWaiterList) (p next q : Pointer) :
    (w.setNext p next).nodes q = if q = p then { w.nodes p with next := next } else w.nodes q := by
  simp [setNext, Function.update_apply]

@[simp]
theorem head_setNext (w : ExclusiveWaiterList) (p next : Pointer) :
    (w.setNext p next).head = w.head := rfl

@[simp]
theorem tail_setNext (w : ExclusiveWaiterList) (p next : Pointer) :
    (w.setNext p next).tail = w.tail := rfl

@[simp]
theorem nodes_setEv (w : ExclusiveWaiterList) (p q : Pointer) (ev : Option EventId) :
    (w.setEv p ev).nodes q = if q = p then { w.nodes p with ev := ev } else w.nodes q := by
  simp [setEv, Function.update_apply]

@[simp]
theorem head_setEv (w : ExclusiveWaiterList) (p : Pointer) (ev : Option EventId) :
    (w.setEv p ev).head = w.head := rfl

@[simp]
theorem tail_setEv (w : ExclusiveWaiterList) (p : Pointer) (ev : Option EventId) :
    (w.setEv p ev).tail = w.tail := rfl

@[simp]
theorem nodes_construct (w : ExclusiveWaiterList) (p q : Pointer) (ev : EventId) (type : Nat) :
    (w.construct p ev type).nodes q =
      if q = p then { ev := some ev, next := null, type := type } else w.nodes q := by
  simp [construct, Function.update_apply]

@[simp]
theorem head_construct (w : ExclusiveWaiterList) (p : Pointer) (ev : EventId) (type : Nat) :
    (w.construct p ev type).head = w.head := rfl

@[simp]
theorem tail_construct (w : ExclusiveWaiterList) (p : Pointer) (ev : EventId) (type : Nat) :
    (w.construct p ev type).tail = w.tail := rfl

/-! ## What a list represents -/

/-- The links and events of the nodes, as a queue. -/
abbrev Queue (w : ExclusiveWaiterList) (nodes : List Pointer) (evs : List EventId) : Prop :=
  LinkedQueue (fun a b => (w.nodes a).next = b) (fun a => (w.nodes a).ev) w.head nodes w.tail
    (evs.map some)

/-- The nodes are allocated, the last one has no event, and its link tells whether the
atomic is held. -/
structure Represents (w : ExclusiveWaiterList) (inUse nodes : List Pointer) (held : Bool)
    (evs : List EventId) : Prop where
  queue : w.Queue nodes evs
  allocated : ∀ p ∈ nodes ++ [w.tail], IsNode p ∧ p ∈ inUse
  last : (w.nodes w.tail).ev = none
  link : (w.nodes w.tail).next = if held then null else 1
  free : held = false → evs = []

variable {w w' : ExclusiveWaiterList} {inUse nodes : List Pointer} {held : Bool}
  {evs : List EventId} {e : Pointer}

namespace Represents

/-- With nobody waiting the head and the tail are one node. -/
theorem head_eq_tail (h : w.Represents inUse nodes held []) : w.head = w.tail :=
  h.queue.head_eq_tail_iff.mpr rfl

/-- A node that is not in use is none of the list. -/
theorem ne_of_fresh (h : w.Represents inUse nodes held evs) (hfresh : e ∉ inUse) :
    ∀ p ∈ nodes ++ [w.tail], p ≠ e :=
  fun p hp heq => hfresh (heq ▸ (h.allocated p hp).2)

/-- A node that is not in use is not on the list. -/
theorem not_mem_of_fresh (h : w.Represents inUse nodes held evs) (hfresh : e ∉ inUse) :
    e ∉ nodes ++ [w.tail] :=
  fun hp => h.ne_of_fresh hfresh e hp rfl

/-- Nodes outside the list do not matter. -/
theorem congr (h : w.Represents inUse nodes held evs) {inUse' : List Pointer}
    (hhead : w'.head = w.head) (htail : w'.tail = w.tail)
    (hnodes : ∀ p ∈ nodes ++ [w.tail], w'.nodes p = w.nodes p)
    (hinUse : ∀ p ∈ nodes ++ [w.tail], p ∈ inUse → p ∈ inUse') :
    w'.Represents inUse' nodes held evs := by
  have hlast : w'.nodes w.tail = w.nodes w.tail := hnodes w.tail (by simp)
  have hnode : ∀ p ∈ nodes, w'.nodes p = w.nodes p :=
    fun p hp => hnodes p (List.mem_append_left _ hp)
  constructor
  · rw [Queue, hhead, htail]
    refine h.queue.congr (fun a ha b hab => ?_) (fun a ha => ?_)
    · rw [hnode a ha]
      exact hab
    · rw [hnode a ha]
  · rw [htail]
    exact fun p hp => ⟨(h.allocated p hp).1, hinUse p hp (h.allocated p hp).2⟩
  · rw [htail, hlast, h.last]
  · rw [htail, hlast, h.link]
  · exact h.free

/-- The first link of a list that is not free. -/
theorem isOne_next_head (h : w.Represents inUse nodes true evs) :
    isOne (w.nodes w.head).next = false := by
  cases evs with
  | nil =>
      rw [h.head_eq_tail, h.link]
      rfl
  | cons ev rest =>
      obtain ⟨next, rest', rfl, -, hlink, hrest⟩ := LinkedQueue.pop h.queue
      rw [hlink]
      exact (h.allocated next (List.mem_cons_of_mem _ hrest.head_mem)).1.isOne_eq_false

theorem empty_eq (h : w.Represents inUse nodes held evs) : w.empty = !held := by
  cases held with
  | false =>
      have hnil := h.free rfl
      subst hnil
      rw [empty, h.head_eq_tail, h.link]
      rfl
  | true => rw [empty, h.isOne_next_head]; rfl

/-! ## Calls on a list -/

/-- A node for a request, before and after its event has been taken out. -/
theorem construct (h : w.Represents inUse nodes held evs) (hfresh : e ∉ inUse) (ev : EventId)
    (type : Nat) :
    (((w.construct e ev type).setNext e null).setEv e none).Represents inUse nodes held evs := by
  refine h.congr rfl rfl (fun p hp => ?_) (fun _ _ hp => hp)
  simp [h.ne_of_fresh hfresh p hp]

/-- A push on a free atomic takes it and keeps the node out of the list. -/
theorem push_free (h : w.Represents inUse nodes false evs) (hfresh : e ∉ inUse)
    (ev : Option EventId) :
    ∃ w', pushTurn e ev w = .done w' true ∧ w'.Represents inUse nodes true [] := by
  have hnil := h.free rfl
  subst hnil
  have heq := h.head_eq_tail
  have htail : w.tail ≠ e := h.ne_of_fresh hfresh w.tail (by simp)
  have hone : isOne (w.nodes w.head).next = true := by
    rw [heq, h.link]
    rfl
  refine ⟨(w.setNext w.head null).setEv e ev, by simp [pushTurn, hone], ?_⟩
  have hempty : nodes = [] := h.queue.nodes_eq_nil_iff.mpr rfl
  subst hempty
  constructor
  · simpa [Queue, heq] using LinkedQueue.empty _ _ w.tail
  · simpa using h.allocated
  · simp [heq, htail, h.last]
  · simp [heq, htail]
  · simp

/-- A push on a held atomic leaves the event in the last node and the new node as the
last one. -/
theorem push_held (h : w.Represents inUse nodes true evs) (hnode : IsNode e)
    (hfresh : e ∉ inUse) (hnext : (w.nodes e).next = null) (hev : (w.nodes e).ev = none)
    (ev : EventId) :
    ∃ w', pushTurn e (some ev) w = .done w' false ∧
      w'.Represents (e :: inUse) (nodes ++ [w.tail]) true (evs ++ [ev]) := by
  have htail : w.tail ≠ e := h.ne_of_fresh hfresh w.tail (by simp)
  have hlink : (w.nodes w.tail).next = null := h.link
  have htailNode := (h.allocated w.tail (by simp)).1
  refine ⟨{ w.setNext w.tail e with tail := e }.setEv w.tail (some ev),
    by simp [pushTurn, h.isOne_next_head, hlink, htailNode.unmk_eq, htailNode.ne_null], ?_⟩
  have hne : ∀ a ∈ nodes, a ≠ w.tail := fun a ha heq => h.queue.tail_not_mem (heq ▸ ha)
  constructor
  · rw [Queue, List.map_append]
    refine h.queue.push (h.not_mem_of_fresh hfresh) ?_ ?_ ?_ ?_
    · intro a ha b hab
      simp only [nodes_setEv, hne a ha, if_false, nodes_setNext]
      exact hab
    · simp
    · intro a ha
      simp [hne a ha]
    · simp
  · intro p hp
    rcases List.mem_append.mp hp with hold | hnew
    · exact ⟨(h.allocated p hold).1, List.mem_cons_of_mem e (h.allocated p hold).2⟩
    · simp only [tail_setEv, List.mem_singleton] at hnew
      exact ⟨hnew ▸ hnode, hnew ▸ List.mem_cons_self⟩
  · simp [Ne.symm htail, hev]
  · simp [Ne.symm htail, hnext]
  · simp

/-- A pop with no waiting event frees the atomic. -/
theorem pop_last (h : w.Represents inUse nodes true []) :
    Returns popTurn (w, .loop) (.ok ((w.setNext w.head 1, .loop), null)) ∧
      (w.setNext w.head 1).Represents inUse nodes false [] := by
  have heq := h.head_eq_tail
  have hlink : (w.nodes w.tail).next = null := h.link
  have hempty : nodes = [] := h.queue.nodes_eq_nil_iff.mpr rfl
  subst hempty
  constructor
  · apply Returns.done
    simp [popTurn, heq, hlink]
  · constructor
    · simpa [Queue, heq] using LinkedQueue.empty _ _ w.tail
    · simpa using h.allocated
    · simp [heq, h.last]
    · simp [heq]
    · simp

/-- A pop with waiting events takes the first node off the list. -/
theorem pop_waiting {ev : EventId} (h : w.Represents inUse nodes true (ev :: evs)) :
    ∃ w' at_ rest, Returns popTurn (w, .loop) (.ok ((w', at_), w.head)) ∧
      w.head ∈ nodes ∧ w.head ∉ rest ++ [w'.tail] ∧ (w'.nodes w.head).ev = some ev ∧
      w'.Represents inUse rest true evs := by
  obtain ⟨next, rest, rfl, hev, hlink, hrest⟩ := LinkedQueue.pop h.queue
  have hev' : (w.nodes w.head).ev = some ev := hev
  have hlink' : (w.nodes w.head).next = next := hlink
  have hne : w.head ≠ w.tail := by
    intro heq
    have hnil := h.queue.head_eq_tail_iff.mp heq
    simp at hnil
  have hnext := (h.allocated next (List.mem_cons_of_mem _ hrest.head_mem)).1
  have htail : (w.nodes w.tail).next = null := h.link
  have hnodup := h.queue.nodup
  rw [List.cons_append, List.nodup_cons] at hnodup
  have hother : ∀ a ∈ rest ++ [w.tail], a ≠ w.head := fun a ha heq => hnodup.1 (heq ▸ ha)
  refine ⟨{ w with head := next }.setNext w.head null, .busyWaitOnEv w.head, rest, ?_,
    List.mem_cons_self, hnodup.1, ?_, ?_⟩
  · have hturn : popTurn (w, .loop) = .again
        ({ w with head := next }.setNext w.head null, .busyWaitOnEv w.head) := by
      simp [popTurn, hne, hlink', htail, hnext.ne_null, hnext.isOne_eq_false, hev']
    refine Returns.again hturn (Returns.done ?_)
    simp [popTurn, hev']
  · simp [hev']
  · constructor
    · refine hrest.congr (fun a ha b hab => ?_) (fun a ha => ?_)
      · simpa [hother a (List.mem_append_left _ ha)] using hab
      · simp [hother a (List.mem_append_left _ ha)]
    · intro p hp
      exact h.allocated p (List.mem_cons_of_mem _ hp)
    · simp [Ne.symm hne, h.last]
    · simp [Ne.symm hne, htail]
    · simp

/-- The walk from some node on. -/
theorem walk {p : Pointer} {rest : List Pointer} {items : List EventId} (seen : List EventId)
    (hqueue : LinkedQueue (fun a b => (w.nodes a).next = b) (fun a => (w.nodes a).ev) p rest
      w.tail (items.map some))
    (hnodes : ∀ q ∈ rest ++ [w.tail], IsNode q) (hlast : (w.nodes w.tail).ev = none) :
    Returns w.walkTurn (p, seen) (.ok ((w.tail, seen ++ items), seen ++ items)) := by
  induction items generalizing p rest seen with
  | nil =>
      have heq : p = w.tail := hqueue.head_eq_tail_iff.mpr rfl
      subst heq
      have hnode := hnodes w.tail (by simp)
      apply Returns.done
      simp [walkTurn, hnode.ne_null, hnode.isOne_eq_false, hnode.isThree_eq_false, hlast]
  | cons ev items ih =>
      obtain ⟨next, rest', rfl, hev, hlink, hrest⟩ := LinkedQueue.pop hqueue
      have hev' : (w.nodes p).ev = some ev := hev
      have hlink' : (w.nodes p).next = next := hlink
      have hnode := hnodes p (by simp)
      have hturn : w.walkTurn (p, seen) = .again (next, seen ++ [ev]) := by
        simp [walkTurn, hnode.ne_null, hnode.isOne_eq_false, hnode.isThree_eq_false, hev', hlink']
      have hmore := ih (seen ++ [ev]) hrest fun q hq => hnodes q (List.mem_cons_of_mem _ hq)
      rw [List.append_assoc, List.singleton_append] at hmore
      exact Returns.again hturn hmore

/-- The walk of {lit}`count` meets the waiting events. -/
theorem waiting_iff (h : w.Represents inUse nodes held evs) {evs' : List EventId} :
    w.Waiting evs' ↔ evs' = evs := by
  have hwalk := walk [] h.queue (fun q hq => (h.allocated q hq).1) h.last
  constructor
  · rintro ⟨p, hreturns⟩
    have heq := hreturns.unique hwalk
    simp only [Except.ok.injEq, Prod.mk.injEq, List.nil_append] at heq
    exact heq.2
  · rintro rfl
    exact ⟨_, hwalk⟩

end Represents

end ExclusiveWaiterList

/-! ## Calls on an atomic -/

namespace AtomicExclusive

/-- A call on an exclusive atomic. -/
inductive Call where
  | acquireOrWait (ev : EventId) (wtype : Nat)
  | release

/-- What a call answers, and what the atomic says afterwards. -/
structure Answer where
  granted : Bool := false
  handed : List EventId := []
  held : Nat
  waiting : List EventId

/-- The events that a call adds to the queue. -/
def queuedBy : Call × Answer → List EventId
  | (.acquireOrWait ev _, answer) => if answer.granted then [] else [ev]
  | (.release, _) => []

/-- The events that a call hands back. -/
def handedBy (p : Call × Answer) : List EventId := p.2.handed

end AtomicExclusive

/-- The waiter list and the nodes that the allocator has given out. -/
structure AtomicExclusive where
  waiters : ExclusiveWaiterList
  inUse : List Pointer

namespace AtomicExclusive

/-- How often the atomic is held: once unless the list is empty. -/
def held (atom : AtomicExclusive) : Nat := if atom.waiters.empty then 0 else 1

/-- The constructor: one node, whose link says that the atomic is free. -/
def Initial (atom : AtomicExclusive) : Prop :=
  ∃ dummy, IsNode dummy ∧ atom.inUse = [dummy] ∧ atom.waiters.head = dummy ∧
    atom.waiters.tail = dummy ∧ atom.waiters.nodes dummy = { next := 1 }

/-- A request with a new node, which goes back to the allocator when it is granted. -/
def AcquireOrWait (atom : AtomicExclusive) (ev : EventId) (wtype : Nat) (granted : Bool)
    (atom' : AtomicExclusive) : Prop :=
  ∃ e w, IsNode e ∧ e ∉ atom.inUse ∧ (atom.waiters.construct e ev wtype).Push e w granted ∧
    atom' = if granted then ⟨w.setNext e 3, atom.inUse⟩ else ⟨w, e :: atom.inUse⟩

/-- A release hands back the event of the node that it takes off the list. -/
def Release (atom : AtomicExclusive) (handed : List EventId) (atom' : AtomicExclusive) : Prop :=
  ∃ w r, atom.waiters.Pop w r ∧
    if r = null then handed = [] ∧ atom' = ⟨w, atom.inUse⟩
    else handed = (w.nodes r).ev.toList ∧ atom' = ⟨w.setNext r 3, atom.inUse.erase r⟩

/-- The calls on the lock-free atomic that return. -/
def lockfree : Machine AtomicExclusive Call Answer where
  init := Initial
  call atom call answer atom' :=
    atom'.waiters.Waiting answer.waiting ∧ answer.held = atom'.held ∧
      match call with
      | .acquireOrWait ev wtype =>
          atom.AcquireOrWait ev wtype answer.granted atom' ∧ answer.handed = []
      | .release => atom.Release answer.handed atom' ∧ answer.granted = false

/-- The calls on the classic atomic, which only its holder releases. -/
def classic (D : Type) : Machine (Guards.AtomicExclusive D) Call Answer where
  init atom := ∃ data, atom = { data := data }
  call atom call answer atom' :=
    answer.waiting = atom'.waiters.map AtomicQueueEntry.event ∧ answer.held = atom'.held ∧
      match call with
      | .acquireOrWait ev wtype =>
          atom.acquireOrWait ev wtype = (atom', answer.granted) ∧ answer.handed = []
      | .release =>
          atom.held ≠ 0 ∧ atom.release = (atom', answer.handed) ∧ answer.granted = false

variable {D : Type} {atom atom' : AtomicExclusive} {ev : EventId} {wtype : Nat} {granted : Bool}
  {evs handed : List EventId}

/-- A lock-free atomic that is held, or free, with the waiting events. -/
def Represents (atom : AtomicExclusive) (held : Bool) (evs : List EventId) : Prop :=
  ∃ nodes, atom.waiters.Represents atom.inUse nodes held evs

namespace Represents

variable {held : Bool}

theorem initial (h : atom.Initial) : atom.Represents false [] := by
  obtain ⟨dummy, hnode, hinUse, hhead, htail, hdummy⟩ := h
  refine ⟨[], ?_⟩
  constructor
  · rw [ExclusiveWaiterList.Queue, hhead, htail]
    exact LinkedQueue.empty _ _ dummy
  · simp [htail, hinUse, hnode]
  · simp [htail, hdummy]
  · simp [htail, hdummy]
  · simp

theorem held_eq (h : atom.Represents held evs) : atom.held = if held then 1 else 0 := by
  obtain ⟨nodes, h⟩ := h
  rw [AtomicExclusive.held, h.empty_eq]
  cases held <;> rfl

/-- The walk meets exactly the events that wait. -/
theorem waiting_iff (h : atom.Represents held evs) {evs' : List EventId} :
    atom.waiters.Waiting evs' ↔ evs' = evs := by
  obtain ⟨nodes, h⟩ := h
  exact h.waiting_iff

/-- A request on a free atomic is granted. -/
theorem acquire_free (h : atom.Represents false evs) (ev : EventId) (wtype : Nat) :
    ∃ atom', atom.AcquireOrWait ev wtype true atom' := by
  obtain ⟨nodes, h⟩ := h
  obtain ⟨e, hnode, hfresh⟩ := IsNode.exists_fresh atom.inUse
  obtain ⟨w, hturn, -⟩ := (h.construct hfresh ev wtype).push_free hfresh (some ev)
  refine ⟨⟨w.setNext e 3, atom.inUse⟩, e, w, hnode, hfresh, ?_, rfl⟩
  simpa [ExclusiveWaiterList.Push] using Returns.done hturn

/-- A call on a free atomic is granted. -/
theorem of_acquire_free (h : atom.Represents false evs)
    (hcall : atom.AcquireOrWait ev wtype granted atom') :
    granted = true ∧ atom'.Represents true [] := by
  obtain ⟨nodes, h⟩ := h
  obtain ⟨e, w, hnode, hfresh, hpush, rfl⟩ := hcall
  obtain ⟨w', hturn, hw'⟩ := (h.construct hfresh ev wtype).push_free hfresh (some ev)
  have hreturns := Returns.done hturn
  simp only [ExclusiveWaiterList.Push, ExclusiveWaiterList.nodes_construct, if_true] at hpush
  have heq := hpush.unique hreturns
  simp only [Except.ok.injEq, Prod.mk.injEq] at heq
  obtain ⟨rfl, rfl⟩ := heq
  refine ⟨rfl, nodes, ?_⟩
  refine hw'.congr rfl rfl (fun p hp => ?_) (fun _ _ hp => hp)
  simp [hw'.ne_of_fresh hfresh p hp]

/-- A request on a held atomic waits, as the last one. -/
theorem acquire_held (h : atom.Represents true evs) (ev : EventId) (wtype : Nat) :
    ∃ atom', atom.AcquireOrWait ev wtype false atom' := by
  obtain ⟨nodes, h⟩ := h
  obtain ⟨e, hnode, hfresh⟩ := IsNode.exists_fresh atom.inUse
  obtain ⟨w, hturn, -⟩ := (h.construct hfresh ev wtype).push_held hnode hfresh
    (by simp) (by simp) ev
  refine ⟨⟨w, e :: atom.inUse⟩, e, w, hnode, hfresh, ?_, rfl⟩
  simpa [ExclusiveWaiterList.Push] using Returns.done hturn

/-- A call on a held atomic waits at the end. -/
theorem of_acquire_held (h : atom.Represents true evs)
    (hcall : atom.AcquireOrWait ev wtype granted atom') :
    granted = false ∧ atom'.Represents true (evs ++ [ev]) := by
  obtain ⟨nodes, h⟩ := h
  obtain ⟨e, w, hnode, hfresh, hpush, rfl⟩ := hcall
  obtain ⟨w', hturn, hw'⟩ := (h.construct hfresh ev wtype).push_held hnode hfresh
    (by simp) (by simp) ev
  simp only [ExclusiveWaiterList.Push, ExclusiveWaiterList.nodes_construct, if_true] at hpush
  have heq := hpush.unique (Returns.done hturn)
  simp only [Except.ok.injEq, Prod.mk.injEq] at heq
  obtain ⟨rfl, rfl⟩ := heq
  exact ⟨rfl, _, hw'⟩

/-- A release frees an atomic for which nobody waits. -/
theorem release_iff_last (h : atom.Represents true []) :
    atom.Release handed atom' ↔
      handed = [] ∧ atom' = ⟨atom.waiters.setNext atom.waiters.head 1, atom.inUse⟩ := by
  obtain ⟨nodes, h⟩ := h
  obtain ⟨hreturns, -⟩ := h.pop_last
  constructor
  · rintro ⟨w, r, ⟨at_, hpop⟩, hcase⟩
    have heq := hpop.unique hreturns
    simp only [Except.ok.injEq, Prod.mk.injEq] at heq
    obtain ⟨⟨rfl, -⟩, rfl⟩ := heq
    simpa using hcase
  · rintro ⟨rfl, rfl⟩
    exact ⟨_, null, ⟨_, hreturns⟩, by simp⟩

/-- A release hands over to the first waiting event. -/
theorem release_waiting (h : atom.Represents true (ev :: evs)) :
    ∃ w', (∀ handed atom', atom.Release handed atom' ↔ handed = [ev] ∧ atom' = w') ∧
      w'.Represents true evs := by
  obtain ⟨nodes, h⟩ := h
  obtain ⟨w, at_, rest, hreturns, hmem, hoff, hev, hw⟩ := h.pop_waiting
  have hne := (h.allocated _ (List.mem_append_left _ hmem)).1.ne_null
  have hother : ∀ p ∈ rest ++ [w.tail], p ≠ atom.waiters.head := fun p hp heq => hoff (heq ▸ hp)
  refine ⟨⟨w.setNext atom.waiters.head 3, atom.inUse.erase atom.waiters.head⟩, ?_, rest, ?_⟩
  · intro handed atom'
    constructor
    · rintro ⟨w', r, ⟨at', hpop⟩, hcase⟩
      have heq := hpop.unique hreturns
      simp only [Except.ok.injEq, Prod.mk.injEq] at heq
      obtain ⟨⟨rfl, -⟩, rfl⟩ := heq
      simpa [hne, hev] using hcase
    · rintro ⟨rfl, rfl⟩
      exact ⟨w, _, ⟨at_, hreturns⟩, by simp [hne, hev]⟩
  · refine hw.congr rfl rfl (fun p hp => ?_) (fun p hp hinUse => ?_)
    · simp [hother p hp]
    · exact (List.mem_erase_of_ne (hother p hp)).mpr hinUse

/-- A release of a free atomic goes around for ever. -/
theorem not_release_free (h : atom.Represents false evs) : ¬ atom.Release handed atom' := by
  obtain ⟨nodes, h⟩ := h
  have hnil := h.free rfl
  subst hnil
  have hturn : ExclusiveWaiterList.popTurn (atom.waiters, .loop) = .again (atom.waiters, .loop) := by
    have hlink := h.link
    simp [ExclusiveWaiterList.popTurn, h.head_eq_tail, hlink, unmk, null]
  rintro ⟨w, r, ⟨at_, hpop⟩, -⟩
  exact not_returns_of_stuck hturn _ hpop

end Represents

/-! ## The classic atomic -/

/-- The lock-free atomic represents the state of the classic one. -/
structure Refines (atom : AtomicExclusive) (spec : Guards.AtomicExclusive D) : Prop where
  represents : atom.Represents (spec.held != 0) (spec.waiters.map AtomicQueueEntry.event)
  held : spec.held ≤ 1

namespace Refines

variable {spec spec' : Guards.AtomicExclusive D}

theorem held_eq (h : Refines atom spec) : atom.held = spec.held := by
  have hle := h.held
  rw [h.represents.held_eq]
  simp only [bne_iff_ne, ne_eq]
  split <;> omega

theorem initial (hatom : atom.Initial) (hspec : (classic D).init spec) : Refines atom spec := by
  obtain ⟨data, rfl⟩ := hspec
  exact ⟨Represents.initial hatom, Nat.zero_le 1⟩

/-- A call that returns answers as the classic atomic does. -/
theorem of_acquireOrWait (h : Refines atom spec)
    (hcall : atom.AcquireOrWait ev wtype granted atom') :
    spec.acquireOrWait ev wtype = ((spec.acquireOrWait ev wtype).1, granted) ∧
      Refines atom' (spec.acquireOrWait ev wtype).1 := by
  have hrepr := h.represents
  by_cases hfree : spec.held = 0
  · simp only [hfree, bne_self_eq_false] at hrepr
    have hnil : spec.waiters = [] := by
      obtain ⟨nodes, hlist⟩ := hrepr
      simpa using hlist.free rfl
    obtain ⟨rfl, hafter⟩ := hrepr.of_acquire_free hcall
    simp only [Guards.AtomicExclusive.acquireOrWait, hfree, if_true, true_and]
    exact ⟨by simpa [hnil] using hafter, Nat.le_refl 1⟩
  · rw [bne_iff_ne.mpr hfree] at hrepr
    obtain ⟨rfl, hafter⟩ := hrepr.of_acquire_held hcall
    simp only [Guards.AtomicExclusive.acquireOrWait, hfree, if_false, true_and]
    exact ⟨by simpa using hafter, Nat.le_refl 1⟩

theorem exists_acquireOrWait (h : Refines atom spec) (ev : EventId) (wtype : Nat) :
    ∃ atom', atom.AcquireOrWait ev wtype (spec.acquireOrWait ev wtype).2 atom' := by
  have hrepr := h.represents
  by_cases hfree : spec.held = 0
  · simp only [hfree, bne_self_eq_false] at hrepr
    simpa [Guards.AtomicExclusive.acquireOrWait, hfree] using hrepr.acquire_free ev wtype
  · rw [bne_iff_ne.mpr hfree] at hrepr
    simpa [Guards.AtomicExclusive.acquireOrWait, hfree] using hrepr.acquire_held ev wtype

/-- A release that returns hands over as the classic atomic does. -/
theorem of_release (h : Refines atom spec) (hcall : atom.Release handed atom') :
    spec.held ≠ 0 ∧ spec.release = (spec.release.1, handed) ∧ Refines atom' spec.release.1 := by
  have hrepr := h.represents
  have hheld : spec.held ≠ 0 := by
    intro hfree
    simp only [hfree, bne_self_eq_false] at hrepr
    exact hrepr.not_release_free hcall
  rw [bne_iff_ne.mpr hheld] at hrepr
  refine ⟨hheld, ?_⟩
  cases hw : spec.waiters with
  | nil =>
      simp only [hw, List.map_nil] at hrepr
      obtain ⟨rfl, rfl⟩ := hrepr.release_iff_last.mp hcall
      obtain ⟨nodes, hlist⟩ := hrepr
      simp only [Guards.AtomicExclusive.release, hw, true_and]
      exact ⟨⟨nodes, by simpa [hw] using hlist.pop_last.2⟩, Nat.zero_le 1⟩
  | cons entry rest =>
      simp only [hw, List.map_cons] at hrepr
      obtain ⟨w', hiff, hafter⟩ := hrepr.release_waiting
      obtain ⟨rfl, rfl⟩ := (hiff handed atom').mp hcall
      simp only [Guards.AtomicExclusive.release, hw, true_and]
      exact ⟨by simpa using hafter, Nat.le_refl 1⟩

theorem exists_release (h : Refines atom spec) (hheld : spec.held ≠ 0) :
    ∃ atom', atom.Release spec.release.2 atom' := by
  have hrepr := h.represents
  rw [bne_iff_ne.mpr hheld] at hrepr
  cases hw : spec.waiters with
  | nil =>
      simp only [hw, List.map_nil] at hrepr
      simp only [Guards.AtomicExclusive.release, hw]
      exact ⟨_, hrepr.release_iff_last.mpr ⟨rfl, rfl⟩⟩
  | cons entry rest =>
      simp only [hw, List.map_cons] at hrepr
      obtain ⟨w', hiff, -⟩ := hrepr.release_waiting
      simp only [Guards.AtomicExclusive.release, hw]
      exact ⟨w', (hiff _ _).mpr ⟨rfl, rfl⟩⟩

end Refines

/-- Each call that returns on one of the two atomics returns on the other one, with the
same answer. -/
theorem bisimulation : Machine.Bisimulation lockfree (classic D) Refines := by
  constructor
  · intro atom spec call answer atom' h hcall
    obtain ⟨hwaiting, hheld, hcall⟩ := hcall
    cases call with
    | acquireOrWait ev wtype =>
        obtain ⟨hspec, hafter⟩ := h.of_acquireOrWait hcall.1
        refine ⟨_, ⟨?_, ?_, hspec, hcall.2⟩, hafter⟩
        · exact hafter.represents.waiting_iff.mp hwaiting
        · exact hheld.trans hafter.held_eq
    | release =>
        obtain ⟨hholder, hspec, hafter⟩ := h.of_release hcall.1
        refine ⟨_, ⟨?_, ?_, hholder, hspec, hcall.2⟩, hafter⟩
        · exact hafter.represents.waiting_iff.mp hwaiting
        · exact hheld.trans hafter.held_eq
  · intro atom spec call answer spec' h hcall
    obtain ⟨hwaiting, hheld, hcall⟩ := hcall
    cases call with
    | acquireOrWait ev wtype =>
        obtain ⟨atom', hatom⟩ := h.exists_acquireOrWait ev wtype
        have hafter := (h.of_acquireOrWait hatom).2
        rw [hcall.1] at hatom hafter
        refine ⟨atom', ⟨?_, ?_, hatom, hcall.2⟩, hafter⟩
        · exact hafter.represents.waiting_iff.mpr hwaiting
        · exact hheld.trans hafter.held_eq.symm
    | release =>
        obtain ⟨hholder, hspec, hgranted⟩ := hcall
        obtain ⟨atom', hatom⟩ := h.exists_release hholder
        have hafter := (h.of_release hatom).2.2
        rw [hspec] at hatom hafter
        refine ⟨atom', ⟨?_, ?_, hatom, hgranted⟩, hafter⟩
        · exact hafter.represents.waiting_iff.mpr hwaiting
        · exact hheld.trans hafter.held_eq.symm

/-- The events that wait after a classic call. -/
theorem classic_queue {spec spec' : Guards.AtomicExclusive D} {call : Call} {answer : Answer}
    (h : (classic D).call spec call answer spec') :
    spec.waiters.map AtomicQueueEntry.event ++ queuedBy (call, answer) =
      handedBy (call, answer) ++ spec'.waiters.map AtomicQueueEntry.event := by
  obtain ⟨-, -, hcall⟩ := h
  cases call with
  | acquireOrWait ev wtype =>
      obtain ⟨hspec, hhanded⟩ := hcall
      have hwaiting := Atomic.waiting_acquireOrWait ev wtype (.exclusive spec)
      simp only [Atomic.acquireOrWait, hspec, Prod.map, id, Atomic.waiting] at hwaiting
      rw [hwaiting, handedBy, hhanded, queuedBy]
      split <;> simp
  | release =>
      obtain ⟨-, hspec, -⟩ := hcall
      have hwaiting := Atomic.waiting_release (.exclusive spec)
      simp only [Atomic.release, hspec, Prod.map, id, Atomic.waiting] at hwaiting
      rw [hwaiting, handedBy, queuedBy, List.append_nil]

/-- From the free state the lock-free atomic gives the answers of the classic one to
every sequence of calls.  The events that had to wait are handed back in the order of their
calls, each one once, and the others still wait. -/
theorem refines_classic {atom : AtomicExclusive} {spec : Guards.AtomicExclusive D}
    (hatom : lockfree.init atom) (hspec : (classic D).init spec)
    (trace : List (Call × Answer)) :
    ((∃ atom', lockfree.Trace atom trace atom') ↔ ∃ spec', (classic D).Trace spec trace spec') ∧
      ∀ atom', lockfree.Trace atom trace atom' → ∀ waiting, atom'.waiters.Waiting waiting →
        trace.flatMap queuedBy = trace.flatMap handedBy ++ waiting := by
  have hrefines : Refines atom spec := Refines.initial hatom hspec
  refine ⟨bisimulation.trace_iff hrefines trace, fun atom' htrace waiting hwaiting => ?_⟩
  obtain ⟨spec', hclassic, hafter⟩ := bisimulation.forth_trace hrefines htrace
  have hcall : ∀ (s : Guards.AtomicExclusive D) k a t, True → (classic D).call s k a t →
      s.waiters.map AtomicQueueEntry.event ++ queuedBy (k, a) =
        handedBy (k, a) ++ t.waiters.map AtomicQueueEntry.event :=
    fun _ _ _ _ _ h => classic_queue h
  have hqueue := hclassic.accumulate (fun _ _ _ _ _ _ => trivial) hcall trivial
  obtain ⟨data, rfl⟩ := hspec
  rw [hafter.represents.waiting_iff.mp hwaiting]
  simpa using hqueue

/-- A request that waits, and gets the atomic at the release. -/
theorem refines_classic_handOver :
    ∃ atom', lockfree.Trace ⟨⟨fun _ => { next := 1 }, 4, 4⟩, [4]⟩
      [(.acquireOrWait 7 WType.exclusive, { granted := true, held := 1, waiting := [] }),
        (.acquireOrWait 8 WType.exclusive, { held := 1, waiting := [8] }),
        (.release, { handed := [8], held := 1, waiting := [] })] atom' := by
  have hspec : (classic Unit).init { data := some () } := ⟨some (), rfl⟩
  apply (refines_classic ?_ hspec _).1.mpr
  · exact ⟨{ data := some (), held := 1 }, .cons ⟨rfl, rfl, rfl, rfl⟩ (.cons ⟨rfl, rfl, rfl, rfl⟩
      (.cons ⟨rfl, rfl, by decide, rfl, rfl⟩ (.nil _)))⟩
  · exact ⟨4, ⟨by decide, by decide⟩, rfl, rfl, rfl, rfl⟩

end AtomicExclusive

end Lockfree
end OFlux
