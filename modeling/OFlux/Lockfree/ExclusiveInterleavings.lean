import Mathlib.Data.Finset.Basic
import OFlux.Lockfree.Atomic

/-!
# The lock-free exclusive atomic under interleavings

Any number of threads request and release one atomic.  Every read, write and compare-and-swap of the
head, the tail and the nodes in the list is one step, and the steps of the threads interleave freely.
A node that only its thread knows is written together with the step before.  A node that has been put
back is reclaimed only when no thread uses it under a checked hazard pointer; its address can then be
given out again.

A call is noted with its answer at the step that decides it: the compare-and-swap that takes or frees
the atomic or links a node into the list, and for a hand-over the step that takes the event out of
the node.

Main results:

- Theorem {lit}`Invariant.step`: what one step keeps.
- Theorem {lit}`one_holder`: in every interleaving at most one event holds the atomic.
-/

namespace OFlux
namespace Lockfree

open Library
open Guards

/-! ## State -/

/-- The node that a request brings, its event and its mode. -/
structure Request where
  e : Pointer
  ev : EventId
  wtype : Nat

/-- Where a thread is in {lit}`push` or {lit}`pop` and the calls around them; {lit}`h`, {lit}`hn`,
{lit}`t` and {lit}`r` are the local variables. -/
inductive ExclusivePc where
  | idle
  | pushHead (q : Request)
  | pushCheckHead (q : Request) (h : Pointer)
  | pushNext (q : Request) (h : Pointer)
  | pushTake (q : Request) (h : Pointer)
  | pushTail (q : Request)
  | pushCheckTail (q : Request) (t : Pointer)
  | pushTailNext (q : Request) (t : Pointer)
  | pushLink (q : Request) (t : Pointer)
  | pushSwing (q : Request) (t : Pointer)
  | pushStore (q : Request) (t : Pointer)
  | popHead
  | popCheckHead (h : Pointer)
  | popNext (h : Pointer)
  | popTail (h hn : Pointer)
  | popCheckTail (h hn t : Pointer)
  | popTailNext (h hn t : Pointer)
  | popCompare (h hn : Pointer)
  | popEv (h hn : Pointer)
  | popMoveHead (h hn : Pointer)
  | popFree (h : Pointer)
  | popClear (r : Pointer)
  | popWaitEv (r : Pointer)
  | popMark (r : Pointer)
  | popHand (r : Pointer)

namespace ExclusivePc

/-- The second test of {lit}`pop`, after the first one has failed. -/
def popElse (h hn : Pointer) : ExclusivePc :=
  if hn = null then .popFree h else .popHead

/-- Where a step leads that only reads the shared fields.  A compare-and-swap that fails is one. -/
def read (w : ExclusiveWaiterList) : ExclusivePc → Option ExclusivePc
  | .pushHead q => some (.pushCheckHead q w.head)
  | .pushCheckHead q h => some (if h = w.head then .pushNext q h else .pushHead q)
  | .pushNext q h => some (if isOne (w.nodes h).next then .pushTake q h else .pushTail q)
  | .pushTake q h => if (w.nodes h).next = 1 then none else some (.pushTail q)
  | .pushTail q => some (.pushCheckTail q w.tail)
  | .pushCheckTail q t => some (if t = w.tail then .pushTailNext q t else .pushHead q)
  | .pushTailNext q t => some (if unmk (w.nodes t).next = null then .pushLink q t else .pushHead q)
  | .pushLink q t =>
      if unmk t ≠ null ∧ (w.nodes t).next = null then none else some (.pushHead q)
  | .popHead => some (.popCheckHead w.head)
  | .popCheckHead h => some (if h = w.head then .popNext h else .popHead)
  | .popNext h => some (.popTail h (w.nodes h).next)
  | .popTail h hn => some (.popCheckTail h hn w.tail)
  | .popCheckTail h hn t => some (if t = w.tail then .popTailNext h hn t else .popHead)
  | .popTailNext h hn t =>
      some (if unmk t ≠ null ∧ unmk (w.nodes t).next ≠ null then .popHead else .popCompare h hn)
  | .popCompare h hn =>
      some (if h ≠ w.tail ∧ hn ≠ null ∧ isOne hn = false then .popEv h hn else popElse h hn)
  | .popEv h hn => some (if (w.nodes h).ev = none then popElse h hn else .popMoveHead h hn)
  | .popMoveHead h hn => if w.head = h then none else some (popElse h hn)
  | .popFree h => if (w.nodes h).next = null then none else some .popHead
  | .popWaitEv r => some (if (w.nodes r).ev = none then .popWaitEv r else .popMark r)
  | _ => none

/-- The node that a request has not linked yet. -/
def fresh : ExclusivePc → Option Pointer
  | .pushHead q | .pushCheckHead q _ | .pushNext q _ | .pushTake q _ | .pushTail q
  | .pushCheckTail q _ | .pushTailNext q _ | .pushLink q _ => some q.e
  | _ => none

/-- The nodes that a thread still accesses, under a checked hazard pointer or because a pop has
taken them off the list. -/
def uses : ExclusivePc → List Pointer
  | .pushNext _ h | .pushTake _ h => [h]
  | .pushTailNext _ t | .pushLink _ t | .pushSwing _ t | .pushStore _ t => [t]
  | .popNext h | .popTail h _ | .popCheckTail h _ _ | .popCompare h _ | .popEv h _
  | .popMoveHead h _ | .popFree h => [h]
  | .popTailNext h _ t => [h, t]
  | .popClear r | .popWaitEv r | .popMark r | .popHand r => [r]
  | _ => []

/-- The node that a pop has taken off the list. -/
def hand : ExclusivePc → Option Pointer
  | .popClear r | .popWaitEv r | .popMark r | .popHand r => some r
  | _ => none

/-- Is the thread in a release? -/
def releasing : ExclusivePc → Bool
  | .popHead | .popCheckHead _ | .popNext _ | .popTail _ _ | .popCheckTail _ _ _
  | .popTailNext _ _ _ | .popCompare _ _ | .popEv _ _ | .popMoveHead _ _ | .popFree _
  | .popClear _ | .popWaitEv _ | .popMark _ | .popHand _ => true
  | _ => false

end ExclusivePc

/-- What a call answers. -/
inductive ExclusiveReply where
  | acquired (granted : Bool)
  | released (handed : List EventId)
deriving DecidableEq

/-- What the classic atomic answers. -/
def classicNext {D : Type} (atom : Guards.AtomicExclusive D) :
    AtomicExclusive.Call → ExclusiveReply × Guards.AtomicExclusive D
  | .acquireOrWait ev wtype =>
      (.acquired (atom.acquireOrWait ev wtype).2, (atom.acquireOrWait ev wtype).1)
  | .release => (.released atom.release.2, atom.release.1)

/-- The waiter list with its nodes, the nodes that have been put back and are not reclaimed yet,
where the threads are, the events that hold the atomic, and the calls that are decided. -/
structure SharedExclusive (θ : Type) where
  waiters : ExclusiveWaiterList
  inUse : Finset Pointer
  retired : Finset Pointer := ∅
  pc : θ → ExclusivePc := fun _ => .idle
  holders : List EventId := []
  noted : List (AtomicExclusive.Call × ExclusiveReply) := []

namespace SharedExclusive

variable {θ : Type} [DecidableEq θ]

/-- Moves thread `i` to its next step. -/
@[simps]
def setPc (s : SharedExclusive θ) (i : θ) (p : ExclusivePc) : SharedExclusive θ :=
  { s with pc := Function.update s.pc i p }

/-- Writes the waiter list. -/
@[simps]
def setWaiters (s : SharedExclusive θ) (w : ExclusiveWaiterList) : SharedExclusive θ :=
  { s with waiters := w }

/-- {lit}`allocator.put`: the node can be reclaimed later. -/
@[simps]
def put (s : SharedExclusive θ) (p : Pointer) : SharedExclusive θ :=
  { s with retired := insert p s.retired }

/-- Notes a call at the step that decides its answer. -/
@[simps]
def note (s : SharedExclusive θ) (call : AtomicExclusive.Call) (reply : ExclusiveReply) :
    SharedExclusive θ :=
  { s with noted := s.noted ++ [(call, reply)] }

/-- The events get the atomic. -/
@[simps]
def grant (s : SharedExclusive θ) (evs : List EventId) : SharedExclusive θ :=
  { s with holders := s.holders ++ evs }

/-! ## Steps -/

/-- A call begins, a thread takes its next step, or a retired node is reclaimed. -/
inductive Action (θ : Type) where
  | acquireOrWait (i : θ) (ev : EventId) (wtype : Nat)
  | release (i : θ) (ev : EventId)
  | read (i : θ)
  | write (i : θ)
  | reclaim (p : Pointer)

/-- One step of one thread, or of the memory.  Only an event that holds the atomic releases it. -/
inductive Step (s : SharedExclusive θ) : Action θ → SharedExclusive θ → Prop where
  | acquireOrWait {i : θ} {v : EventId} {w : Nat} {e : Pointer} :
      s.pc i = .idle → IsNode e → e ∉ s.inUse →
      Step s (.acquireOrWait i v w)
        (setPc { s with
          waiters := ((s.waiters.construct e v w).setNext e null).setEv e none
          inUse := insert e s.inUse } i (.pushHead ⟨e, v, w⟩))
  | read {i : θ} {p : ExclusivePc} :
      (s.pc i).read s.waiters = some p → Step s (.read i) (s.setPc i p)
  | take {i : θ} {q : Request} {h : Pointer} :
      s.pc i = .pushTake q h → (s.waiters.nodes h).next = 1 →
      Step s (.write i)
        (((((s.setWaiters (((s.waiters.setNext h null).setEv q.e (some q.ev)).setNext q.e 3)).put
          q.e).grant [q.ev]).note (.acquireOrWait q.ev q.wtype) (.acquired true)).setPc i .idle)
  | link {i : θ} {q : Request} {t : Pointer} :
      s.pc i = .pushLink q t → unmk t ≠ null → (s.waiters.nodes t).next = null →
      Step s (.write i)
        (((s.setWaiters (s.waiters.setNext t q.e)).note (.acquireOrWait q.ev q.wtype)
          (.acquired false)).setPc i (.pushSwing q t))
  | swing {i : θ} {q : Request} {t : Pointer} :
      s.pc i = .pushSwing q t →
      Step s (.write i)
        ((s.setWaiters { s.waiters with
          tail := if s.waiters.tail = t then q.e else s.waiters.tail }).setPc i (.pushStore q t))
  | store {i : θ} {q : Request} {t : Pointer} :
      s.pc i = .pushStore q t →
      Step s (.write i) ((s.setWaiters (s.waiters.setEv t (some q.ev))).setPc i .idle)
  | release {i : θ} {v : EventId} :
      s.pc i = .idle → v ∈ s.holders →
      Step s (.release i v) (setPc { s with holders := s.holders.erase v } i .popHead)
  | moveHead {i : θ} {h n : Pointer} :
      s.pc i = .popMoveHead h n → s.waiters.head = h →
      Step s (.write i) ((s.setWaiters { s.waiters with head := n }).setPc i (.popClear h))
  | free {i : θ} {h : Pointer} :
      s.pc i = .popFree h → (s.waiters.nodes h).next = null →
      Step s (.write i)
        (((s.setWaiters (s.waiters.setNext h 1)).note .release (.released [])).setPc i .idle)
  | clear {i : θ} {r : Pointer} :
      s.pc i = .popClear r →
      Step s (.write i) ((s.setWaiters (s.waiters.setNext r null)).setPc i (.popWaitEv r))
  | mark {i : θ} {r : Pointer} :
      s.pc i = .popMark r →
      Step s (.write i) ((s.setWaiters (s.waiters.setNext r 3)).setPc i (.popHand r))
  | hand {i : θ} {r : Pointer} :
      s.pc i = .popHand r →
      Step s (.write i)
        ((((s.put r).grant (s.waiters.nodes r).ev.toList).note .release
          (.released (s.waiters.nodes r).ev.toList)).setPc i .idle)
  | reclaim {p : Pointer} :
      p ∈ s.retired → (∀ i, p ∉ (s.pc i).uses) →
      Step s (.reclaim p) { s with inUse := s.inUse.erase p, retired := s.retired.erase p }

/-- The atomic is new: one node, whose link says that the atomic is free. -/
structure Initial (s : SharedExclusive θ) (dummy : Pointer) : Prop where
  node : IsNode dummy
  inUse : s.inUse = {dummy}
  retired : s.retired = ∅
  head : s.waiters.head = dummy
  tail : s.waiters.tail = dummy
  dummy : s.waiters.nodes dummy = { next := 1 }
  pc : ∀ i, s.pc i = .idle
  holders : s.holders = []
  noted : s.noted = []

/-- The constructor of the waiter list. -/
def new (dummy : Pointer) : SharedExclusive θ where
  waiters :=
    { nodes := Function.update (fun _ => {}) dummy { next := 1 }, head := dummy, tail := dummy }
  inUse := {dummy}

variable (θ) in
/-- The threads over the shared atomic, one access a step. -/
def system : TransitionSystem (SharedExclusive θ) (Action θ) where
  init s := ∃ dummy, Initial s dummy
  step := Step

/-! ## What the threads may rely on -/

/-- Who has the atomic: nobody, an event, or the thread that releases it. -/
inductive Owner (θ : Type) where
  | free
  | event (ev : EventId)
  | thread (i : θ)

/-- The events that hold the atomic. -/
def Owner.holders : Owner θ → List EventId
  | .event ev => [ev]
  | _ => []

/-- What a thread knows of the list; {lit}`last` is the last node of the list, which the tail may
lag behind. -/
def Facts (w : ExclusiveWaiterList) (last : Pointer) : ExclusivePc → Prop
  | .pushTailNext _ t | .pushLink _ t => t = last → w.tail = t
  | .pushSwing q t => t ≠ last ∧ (t = w.tail → q.e = last)
  | .popNext h | .popFree h => h = w.head
  | .popTail h hn | .popCheckTail h hn _ | .popTailNext h hn _ | .popCompare h hn =>
      h = w.head ∧ (hn = null ∨ hn = (w.nodes h).next)
  | .popEv h hn | .popMoveHead h hn =>
      h = w.head ∧ h ≠ w.tail ∧ hn ≠ null ∧ hn = (w.nodes h).next
  | .popMark r | .popHand r => (w.nodes r).ev ≠ none
  | _ => True

/-- The list and the memory; {lit}`nodes` are the nodes of the list before the last one. -/
structure Shape (s : SharedExclusive θ) (nodes : List Pointer) (last : Pointer) (free : Prop) :
    Prop where
  segment : Segment (fun a b => (s.waiters.nodes a).next = b) s.waiters.head nodes last
  nodup : (nodes ++ [last]).Nodup
  address : ∀ p ∈ s.inUse, IsNode p
  retired : s.retired ⊆ s.inUse
  linked : ∀ p ∈ nodes ++ [last], p ∈ s.inUse ∧ p ∉ s.retired
  held : ¬ free → (s.waiters.nodes last).next = null
  free : free → nodes = [] ∧ (s.waiters.nodes last).next = 1
  one : ∀ p ∈ s.inUse, (s.waiters.nodes p).next = 1 → p = last
  tail : s.waiters.tail = last ∨ ∃ front, nodes = front ++ [s.waiters.tail]

/-- What holds of one thread. -/
structure Sound (s : SharedExclusive θ) (nodes : List Pointer) (last : Pointer) (p : ExclusivePc) :
    Prop where
  fresh : ∀ e, p.fresh = some e →
    e ∈ s.inUse ∧ e ∉ nodes ++ [last] ∧ e ∉ s.retired ∧ (s.waiters.nodes e).next = null
  uses : ∀ x ∈ p.uses, x ∈ s.inUse
  hand : ∀ r, p.hand = some r → r ∉ nodes ++ [last] ∧ r ∉ s.retired
  facts : Facts s.waiters last p

/-- The node of a request is known to its thread only. -/
structure Apart (p p' : ExclusivePc) : Prop where
  fresh : ∀ e, p.fresh = some e → p'.fresh ≠ some e
  uses : ∀ x ∈ p.uses, p'.fresh ≠ some x
  used : ∀ x ∈ p'.uses, p.fresh ≠ some x

/-- The list has the shape that its owner says, and every thread knows what its step needs. -/
structure Invariant (s : SharedExclusive θ) (nodes : List Pointer) (last : Pointer)
    (owner : Owner θ) : Prop where
  shape : s.Shape nodes last (owner = .free)
  sound : ∀ i, s.Sound nodes last (s.pc i)
  apart : ∀ i j, i ≠ j → Apart (s.pc i) (s.pc j)
  holders : s.holders = owner.holders
  releasing : ∀ i, (s.pc i).releasing = true ↔ owner = .thread i

omit [DecidableEq θ]

/-- Writing a link keeps the events. -/
theorem ev_setNext (w : ExclusiveWaiterList) (p next x : Pointer) :
    ((w.setNext p next).nodes x).ev = (w.nodes x).ev := by
  rw [ExclusiveWaiterList.nodes_setNext]
  split
  next heq => rw [heq]
  next => rfl

/-- Writing an event keeps the links. -/
theorem next_setEv (w : ExclusiveWaiterList) (p x : Pointer) (ev : Option EventId) :
    ((w.setEv p ev).nodes x).next = (w.nodes x).next := by
  rw [ExclusiveWaiterList.nodes_setEv]
  split
  next heq => rw [heq]
  next => rfl

/-- A node is not the mark of the free atomic. -/
theorem ne_one_of_isNode {p : Nat} (h : IsNode p) : p ≠ 1 := by
  have hmod := h.1
  omega

/-- Two threads keep apart from one another. -/
theorem Apart.symm {p p' : ExclusivePc} (h : Apart p p') : Apart p' p where
  fresh e he he' := h.fresh e he' he
  uses := h.used
  used := h.uses

section Reads

variable {w w' : ExclusiveWaiterList} {last : Pointer} {p p' : ExclusivePc}

/-- What a pop that finds its head unchanged knows. -/
theorem Facts.popElse {h hn : Pointer} (hh : h = w.head) : Facts w last (.popElse h hn) := by
  rw [ExclusivePc.popElse]
  split
  · exact hh
  · trivial

/-- What a thread knows after a step that only reads. -/
theorem Facts.read (h : Facts w last p) (hread : p.read w = some p') : Facts w last p' := by
  cases p <;> simp only [ExclusivePc.read, Option.some.injEq, reduceCtorEq] at hread
  case pushHead => exact hread ▸ trivial
  case pushCheckHead => subst hread; split <;> trivial
  case pushNext => subst hread; split <;> trivial
  case pushTake =>
    split at hread
    · cases hread
    · exact Option.some.inj hread ▸ trivial
  case pushTail => exact hread ▸ trivial
  case pushCheckTail q t =>
    subst hread
    split
    next heq => exact fun _ => heq.symm
    next => trivial
  case pushTailNext => subst hread; split; exacts [h, trivial]
  case pushLink =>
    split at hread
    · cases hread
    · exact Option.some.inj hread ▸ trivial
  case popHead => exact hread ▸ trivial
  case popCheckHead => subst hread; split <;> trivial
  case popNext => exact hread ▸ ⟨h, .inr rfl⟩
  case popTail => exact hread ▸ h
  case popCheckTail => subst hread; split; exacts [h, trivial]
  case popTailNext => subst hread; split; exacts [trivial, h]
  case popCompare =>
    subst hread
    split
    next hcond => exact ⟨h.1, hcond.1, hcond.2.1, h.2.resolve_left hcond.2.1⟩
    next => exact Facts.popElse h.1
  case popEv => subst hread; split; exacts [Facts.popElse h.1, h]
  case popMoveHead =>
    split at hread
    · cases hread
    · exact Option.some.inj hread ▸ Facts.popElse h.1
  case popFree =>
    split at hread
    · cases hread
    · exact Option.some.inj hread ▸ trivial
  case popWaitEv =>
    subst hread
    split
    next => trivial
    next hev => exact hev

/-- What a thread knows depends on the head and its link only in a release. -/
theorem Facts.congr (h : Facts w last p) (htail : w'.tail = w.tail)
    (hhead : p.releasing = true → w'.head = w.head ∧ (w'.nodes w.head).next = (w.nodes w.head).next)
    (hev : ∀ r ∈ p.uses, (w.nodes r).ev ≠ none → (w'.nodes r).ev ≠ none) : Facts w' last p := by
  cases p
  case pushTailNext => exact fun ht => htail.trans (h ht)
  case pushLink => exact fun ht => htail.trans (h ht)
  case pushSwing => exact ⟨h.1, fun ht => h.2 (ht.trans htail)⟩
  case popNext => exact h.trans (hhead rfl).1.symm
  case popFree => exact h.trans (hhead rfl).1.symm
  case popTail =>
    obtain ⟨rfl, hn⟩ := h
    exact ⟨(hhead rfl).1.symm, hn.imp_right fun hn => hn.trans (hhead rfl).2.symm⟩
  case popCheckTail =>
    obtain ⟨rfl, hn⟩ := h
    exact ⟨(hhead rfl).1.symm, hn.imp_right fun hn => hn.trans (hhead rfl).2.symm⟩
  case popTailNext =>
    obtain ⟨rfl, hn⟩ := h
    exact ⟨(hhead rfl).1.symm, hn.imp_right fun hn => hn.trans (hhead rfl).2.symm⟩
  case popCompare =>
    obtain ⟨rfl, hn⟩ := h
    exact ⟨(hhead rfl).1.symm, hn.imp_right fun hn => hn.trans (hhead rfl).2.symm⟩
  case popEv =>
    obtain ⟨rfl, ht, hne, hn⟩ := h
    exact ⟨(hhead rfl).1.symm, fun heq => ht (heq.trans htail), hne, hn.trans (hhead rfl).2.symm⟩
  case popMoveHead =>
    obtain ⟨rfl, ht, hne, hn⟩ := h
    exact ⟨(hhead rfl).1.symm, fun heq => ht (heq.trans htail), hne, hn.trans (hhead rfl).2.symm⟩
  case popMark r => exact hev r (List.mem_singleton_self r) h
  case popHand r => exact hev r (List.mem_singleton_self r) h
  all_goals trivial

/-- A step that only reads keeps the nodes of the thread, but it may check the head or the tail. -/
theorem read_uses (hread : p.read w = some p') :
    (∀ e, p'.fresh = some e → p.fresh = some e) ∧
      (∀ x ∈ p'.uses, x ∈ p.uses ∨ x = w.head ∨ x = w.tail) ∧
      (∀ r, p'.hand = some r → p.hand = some r) ∧ p'.releasing = p.releasing := by
  cases p <;>
    simp only [ExclusivePc.read, ExclusivePc.popElse, Option.some.injEq, reduceCtorEq] at hread <;>
    first
    | (split at hread <;> [cases hread; obtain rfl := Option.some.inj hread])
    | subst hread
  all_goals
    (try split) <;> (try split) <;>
      simp_all [ExclusivePc.fresh, ExclusivePc.uses, ExclusivePc.hand, ExclusivePc.releasing]

end Reads

section Shape

variable {s t : SharedExclusive θ} {nodes : List Pointer} {last : Pointer} {free : Prop}

namespace Shape

/-- A node before the last one links to a node of the list. -/
theorem next_mem (h : s.Shape nodes last free) {a : Pointer} (ha : a ∈ nodes) :
    (s.waiters.nodes a).next ∈ nodes ++ [last] := by
  obtain ⟨b, hb, rfl⟩ := h.segment.exists_link ha
  exact hb

/-- The links inside the list are nodes. -/
theorem isNode_next (h : s.Shape nodes last free) {a : Pointer} (ha : a ∈ nodes) :
    IsNode (s.waiters.nodes a).next :=
  h.address _ (h.linked _ (h.next_mem ha)).1

/-- The head is on the list. -/
theorem head_mem (h : s.Shape nodes last free) : s.waiters.head ∈ nodes ++ [last] :=
  h.segment.head_mem

/-- The tail is on the list. -/
theorem tail_mem (h : s.Shape nodes last free) : s.waiters.tail ∈ nodes ++ [last] := by
  rcases h.tail with htail | ⟨front, hfront⟩
  · simp [htail]
  · rw [hfront]
    simp

/-- The last node is not one of those before it. -/
theorem last_notMem (h : s.Shape nodes last free) : last ∉ nodes := by
  have hnodup := List.nodup_append.mp h.nodup
  exact fun hmem => hnodup.2.2 last hmem last (List.mem_singleton_self last) rfl

/-- A node with a null link that is in the list is the last one. -/
theorem eq_last (h : s.Shape nodes last free) {a : Pointer} (ha : a ∈ nodes ++ [last])
    (hnull : (s.waiters.nodes a).next = null) : a = last := by
  rcases List.mem_append.mp ha with hmem | hlast
  · exact absurd hnull (h.isNode_next hmem).ne_null
  · exact List.mem_singleton.mp hlast

/-- Writes outside the list leave it alone. -/
theorem congr (h : s.Shape nodes last free) (hhead : t.waiters.head = s.waiters.head)
    (htail : t.waiters.tail = s.waiters.tail)
    (hnext : ∀ p ∈ nodes ++ [last], (t.waiters.nodes p).next = (s.waiters.nodes p).next)
    (haddress : ∀ p ∈ t.inUse, IsNode p) (hretired : t.retired ⊆ t.inUse)
    (hlinked : ∀ p ∈ nodes ++ [last], p ∈ t.inUse ∧ p ∉ t.retired)
    (hone : ∀ p ∈ t.inUse, (t.waiters.nodes p).next = 1 → p = last) :
    t.Shape nodes last free where
  segment := by
    rw [hhead]
    exact h.segment.congr fun a ha b hab =>
      (hnext a (List.mem_append_left _ ha)).trans hab
  nodup := h.nodup
  address := haddress
  retired := hretired
  linked := hlinked
  held hheld := (hnext last (by simp)).trans (h.held hheld)
  free hfree := ⟨(h.free hfree).1, (hnext last (by simp)).trans (h.free hfree).2⟩
  one := hone
  tail := by
    rw [htail]
    exact h.tail

end Shape

end Shape

namespace Invariant

variable {s t : SharedExclusive θ} {nodes nodes' : List Pointer} {last last' : Pointer}
  {owner owner' : Owner θ} {i j : θ} {p : ExclusivePc}

/-- The node of a request is not in the list. -/
theorem fresh_notMem (h : s.Invariant nodes last owner) {e : Pointer}
    (he : (s.pc i).fresh = some e) : e ∉ nodes ++ [last] :=
  ((h.sound i).fresh e he).2.1

/-- Only one thread is in a release. -/
theorem eq_of_releasing (h : s.Invariant nodes last owner) (hi : (s.pc i).releasing = true)
    (hj : (s.pc j).releasing = true) : i = j := by
  have howner := (h.releasing i).mp hi
  rw [(h.releasing j).mp hj] at howner
  cases howner
  rfl

/-- While a thread releases the atomic is not free. -/
theorem not_free_of_releasing (h : s.Invariant nodes last owner)
    (hi : (s.pc i).releasing = true) : owner ≠ .free := by
  rw [(h.releasing i).mp hi]
  intro hfree
  cases hfree

/-- The nodes that a thread goes on to use are those it has used before, or in the list. -/
theorem apart_of_uses (h : s.Invariant nodes last owner)
    (hfresh : ∀ e, p.fresh = some e → (s.pc i).fresh = some e)
    (huses : ∀ x ∈ p.uses, x ∈ (s.pc i).uses ∨ x ∈ nodes ++ [last]) (hij : i ≠ j) :
    Apart p (s.pc j) where
  fresh e he := (h.apart i j hij).fresh e (hfresh e he)
  uses x hx := by
    rcases huses x hx with hold | hlist
    · exact (h.apart i j hij).uses x hold
    · exact fun hj => h.fresh_notMem hj hlist
  used x hx hp := (h.apart i j hij).used x hx (hfresh x hp)

/-- A pop that has taken a node off the list uses this node only. -/
theorem of_hand {r : Pointer} (hr : p.hand = some r) :
    p.fresh = none ∧ p.uses = [r] ∧ p.releasing = true := by
  cases p <;> cases hr <;> exact ⟨rfl, rfl, rfl⟩

/-- The node in a hand is one in use. -/
theorem mem_uses_of_hand {r : Pointer} (hr : p.hand = some r) : r ∈ p.uses := by
  rw [(of_hand hr).2.1]
  exact List.mem_singleton_self r

/-- A thread between two calls. -/
theorem sound_idle : t.Sound nodes last .idle where
  fresh _ he := nomatch he
  uses _ hx := nomatch hx
  hand _ hr := nomatch hr
  facts := trivial

/-- An idle thread is apart from all others. -/
theorem apart_idle {p' : ExclusivePc} : Apart .idle p' where
  fresh _ he := nomatch he
  uses _ hx := nomatch hx
  used _ _ hx := nomatch hx

/-- The steps that keep the phase of a release. -/
theorem releasing_same (h : s.Invariant nodes last owner) (hp : p.releasing = (s.pc i).releasing) :
    p.releasing = true ↔ owner = .thread i :=
  hp ▸ h.releasing i

/-- A node that has been put back leaves the memory when no thread uses it. -/
theorem reclaim (h : s.Invariant nodes last owner) {x : Pointer} (hx : x ∈ s.retired)
    (hunused : ∀ i, x ∉ (s.pc i).uses) :
    SharedExclusive.Invariant { s with inUse := s.inUse.erase x, retired := s.retired.erase x }
      nodes last owner := by
  have hkeep : ∀ y, y ∈ s.inUse → y ∉ s.retired → y ∈ s.inUse.erase x := fun y hy hnot =>
    Finset.mem_erase.mpr ⟨fun heq => hnot (heq ▸ hx), hy⟩
  have hout : ∀ y, y ∉ s.retired → y ∉ s.retired.erase x := fun y hy hmem =>
    hy (Finset.mem_of_mem_erase hmem)
  refine ⟨h.shape.congr rfl rfl (fun _ _ => rfl)
    (fun y hy => h.shape.address y (Finset.mem_of_mem_erase hy))
    (Finset.erase_subset_erase x h.shape.retired) (fun y hy => ?_)
    (fun y hy => h.shape.one y (Finset.mem_of_mem_erase hy)), fun i => ?_, h.apart, h.holders,
    h.releasing⟩
  · obtain ⟨hmem, hnot⟩ := h.shape.linked y hy
    exact ⟨hkeep y hmem hnot, hout y hnot⟩
  · have hsound := h.sound i
    refine ⟨fun e he => ?_, fun y hy => ?_, fun r hr => ?_, hsound.facts⟩
    · obtain ⟨hmem, hlist, hnot, hnull⟩ := hsound.fresh e he
      exact ⟨hkeep e hmem hnot, hlist, hout e hnot, hnull⟩
    · exact Finset.mem_erase.mpr ⟨fun heq => hunused i (heq ▸ hy), hsound.uses y hy⟩
    · exact ⟨(hsound.hand r hr).1, hout r (hsound.hand r hr).2⟩

/-- A thread about to swing the tail is apart from all others. -/
theorem link_apart (h : s.Invariant nodes last owner) {q : Request} {tl : Pointer}
    (hpc : s.pc i = .pushLink q tl) :
    ∀ j, i ≠ j → Apart (.pushSwing q tl) (s.pc j) := fun j =>
  h.apart_of_uses nofun fun x hx => .inl (by rw [hpc]; exact hx)

/-- A thread that takes the atomic has seen the link of the last node. -/
theorem free_of_take (h : s.Invariant nodes last owner) {q : Request} {hd : Pointer}
    (hpc : s.pc i = .pushTake q hd) (hone : (s.waiters.nodes hd).next = 1) :
    hd = last ∧ owner = .free := by
  have hsound := h.sound i
  rw [hpc] at hsound
  obtain rfl : hd = last := h.shape.one hd (hsound.uses hd (List.mem_singleton_self hd)) hone
  refine ⟨rfl, ?_⟩
  by_contra hheld
  rw [h.shape.held hheld] at hone
  cases hone

variable [DecidableEq θ]

/-- One thread moves on. -/
theorem move (h : s.Invariant nodes last owner) (hpc : t.pc = s.pc)
    (hshape : t.Shape nodes' last' (owner' = .free)) (hp : t.Sound nodes' last' p)
    (hothers : ∀ j, j ≠ i → t.Sound nodes' last' (s.pc j))
    (hapart : ∀ j, i ≠ j → Apart p (s.pc j)) (hholders : t.holders = owner'.holders)
    (hreleasing : p.releasing = true ↔ owner' = .thread i)
    (hrest : ∀ j, j ≠ i → ((s.pc j).releasing = true ↔ owner' = .thread j)) :
    (t.setPc i p).Invariant nodes' last' owner' := by
  have hupdate : (t.setPc i p).pc = Function.update s.pc i p := by
    show Function.update t.pc i p = Function.update s.pc i p
    rw [hpc]
  constructor
  · exact ⟨hshape.segment, hshape.nodup, hshape.address, hshape.retired, hshape.linked, hshape.held,
      hshape.free, hshape.one, hshape.tail⟩
  · rw [hupdate, Function.forall_update_iff s.pc fun _ p' => (t.setPc i p).Sound nodes' last' p']
    exact ⟨⟨hp.fresh, hp.uses, hp.hand, hp.facts⟩, fun j hj =>
      ⟨(hothers j hj).fresh, (hothers j hj).uses, (hothers j hj).hand, (hothers j hj).facts⟩⟩
  · intro j k hjk
    rw [hupdate]
    rcases eq_or_ne j i with rfl | hj
    · rw [Function.update_self, Function.update_of_ne (Ne.symm hjk)]
      exact hapart k hjk
    · rcases eq_or_ne k i with rfl | hk
      · rw [Function.update_self, Function.update_of_ne hj]
        exact (hapart j (Ne.symm hj)).symm
      · rw [Function.update_of_ne hj, Function.update_of_ne hk]
        exact h.apart j k hjk
  · exact hholders
  · rw [hupdate, Function.forall_update_iff s.pc fun j p' => p'.releasing = true ↔ owner' = .thread j]
    exact ⟨hreleasing, hrest⟩

/-- A step that only reads keeps the invariant. -/
theorem read (h : s.Invariant nodes last owner) (hread : (s.pc i).read s.waiters = some p) :
    (s.setPc i p).Invariant nodes last owner := by
  obtain ⟨hfresh, huses, hhand, hreleasing⟩ := read_uses hread
  have hsound := h.sound i
  have huses' : ∀ x ∈ p.uses, x ∈ (s.pc i).uses ∨ x ∈ nodes ++ [last] := by
    intro x hx
    rcases huses x hx with hold | rfl | rfl
    · exact .inl hold
    · exact .inr h.shape.head_mem
    · exact .inr h.shape.tail_mem
  refine h.move rfl h.shape ⟨fun e he => hsound.fresh e (hfresh e he), fun x hx => ?_,
    fun r hr => hsound.hand r (hhand r hr), hsound.facts.read hread⟩ (fun j _ => h.sound j)
    (fun j => h.apart_of_uses hfresh huses') h.holders (hreleasing ▸ h.releasing i)
    fun j _ => h.releasing j
  rcases huses' x hx with hold | hlist
  · exact hsound.uses x hold
  · exact (h.shape.linked x hlist).1

/-- A write of a node outside the list, with nodes that come into use or are put back. -/
theorem write_outside (h : s.Invariant nodes last owner) (hpc : t.pc = s.pc)
    (hhead : t.waiters.head = s.waiters.head) (htail : t.waiters.tail = s.waiters.tail)
    (hinUse : s.inUse ⊆ t.inUse) (haddress : ∀ x ∈ t.inUse, IsNode x)
    (hput : t.retired ⊆ t.inUse)
    (hnodes : ∀ x ∈ nodes ++ [last], (t.waiters.nodes x).next = (s.waiters.nodes x).next)
    (hretired : ∀ x ∈ nodes ++ [last], x ∉ t.retired)
    (hone : ∀ x ∈ t.inUse, (t.waiters.nodes x).next = 1 → x = last)
    (hfresh : ∀ j, j ≠ i → ∀ e, (s.pc j).fresh = some e →
      e ∉ t.retired ∧ (t.waiters.nodes e).next = (s.waiters.nodes e).next)
    (hhand : ∀ j, j ≠ i → ∀ r, (s.pc j).hand = some r → r ∉ t.retired)
    (hev : ∀ j, j ≠ i → ∀ x ∈ (s.pc j).uses,
      (s.waiters.nodes x).ev ≠ none → (t.waiters.nodes x).ev ≠ none)
    (hp : t.Sound nodes last p) (hapart : ∀ j, i ≠ j → Apart p (s.pc j))
    (hfree : owner' = .free ↔ owner = .free) (hholders : t.holders = owner'.holders)
    (hreleasing : p.releasing = true ↔ owner' = .thread i)
    (hrest : ∀ j, j ≠ i → ((s.pc j).releasing = true ↔ owner' = .thread j)) :
    (t.setPc i p).Invariant nodes last owner' := by
  refine h.move hpc ?_ hp (fun j hj => ?_) hapart hholders hreleasing hrest
  · rw [hfree]
    exact h.shape.congr hhead htail hnodes haddress hput
      (fun x hx => ⟨hinUse (h.shape.linked x hx).1, hretired x hx⟩) hone
  · have hsound := h.sound j
    refine ⟨fun e he => ?_, fun x hx => hinUse (hsound.uses x hx), fun r hr => ?_,
      hsound.facts.congr htail (fun _ => ⟨hhead, hnodes _ h.shape.head_mem⟩) (hev j hj)⟩
    · obtain ⟨hmem, hlist, -, hnull⟩ := hsound.fresh e he
      obtain ⟨hnot, hsame⟩ := hfresh j hj e he
      exact ⟨hinUse hmem, hlist, hnot, hsame.trans hnull⟩
    · exact ⟨(hsound.hand r hr).1, hhand j hj r hr⟩

/-- Beginning to acquire keeps the invariant. -/
theorem acquireOrWait (h : s.Invariant nodes last owner) {ev : EventId} {wtype : Nat} {e : Pointer}
    (hpc : s.pc i = .idle) (hnode : IsNode e) (hnew : e ∉ s.inUse) :
    (setPc { s with
      waiters := ((s.waiters.construct e ev wtype).setNext e null).setEv e none
      inUse := insert e s.inUse } i (.pushHead ⟨e, ev, wtype⟩)).Invariant nodes last owner := by
  have hne : ∀ x ∈ s.inUse, x ≠ e := fun x hx heq => hnew (heq ▸ hx)
  have hother : ∀ x ∈ s.inUse,
      (((s.waiters.construct e ev wtype).setNext e null).setEv e none).nodes x =
        s.waiters.nodes x := fun x hx => by simp [hne x hx]
  have hreleasing := h.releasing i
  rw [hpc] at hreleasing
  refine h.write_outside rfl rfl rfl (Finset.subset_insert e s.inUse) (fun x hx => ?_)
    (h.shape.retired.trans (Finset.subset_insert e s.inUse)) (fun x hx => ?_)
    (fun x hx => (h.shape.linked x hx).2) (fun x hx hone => ?_) (fun j hj x hx => ?_)
    (fun j hj r hr => ((h.sound j).hand r hr).2) (fun j hj x hx hev => ?_)
    ⟨fun x hx => ?_, fun x hx => ?_, fun r hr => ?_, trivial⟩ (fun j hj => ⟨?_, ?_, ?_⟩) Iff.rfl
    h.holders hreleasing fun j _ => h.releasing j
  · rcases Finset.mem_insert.mp hx with rfl | hold
    · exact hnode
    · exact h.shape.address x hold
  · rw [hother x (h.shape.linked x hx).1]
  · rcases Finset.mem_insert.mp hx with rfl | hold
    · simp [null] at hone
    · rw [hother x hold] at hone
      exact h.shape.one x hold hone
  · obtain ⟨hmem, -, hnot, -⟩ := (h.sound j).fresh x hx
    exact ⟨hnot, congrArg EventBaseHolder.next (hother x hmem)⟩
  · rwa [hother x ((h.sound j).uses x hx)]
  · cases hx
    exact ⟨Finset.mem_insert_self e s.inUse, fun hmem => hnew (h.shape.linked e hmem).1,
      fun hmem => hnew (h.shape.retired hmem), by simp⟩
  · cases hx
  · cases hr
  · intro x hx hx'
    cases hx
    exact hnew ((h.sound j).fresh e hx').1
  · intro x hx
    cases hx
  · intro x hx heq
    cases heq
    exact hnew ((h.sound j).uses e hx)

/-- Taking the free atomic keeps the invariant. -/
theorem take (h : s.Invariant nodes last owner) {q : Request} {hd : Pointer}
    (hpc : s.pc i = .pushTake q hd) (hone : (s.waiters.nodes hd).next = 1) :
    (((((s.setWaiters (((s.waiters.setNext hd null).setEv q.e (some q.ev)).setNext q.e 3)).put
      q.e).grant [q.ev]).note (.acquireOrWait q.ev q.wtype) (.acquired true)).setPc i
        .idle).Invariant nodes last (.event q.ev) := by
  have hsound := h.sound i
  obtain ⟨rfl, hfree⟩ := h.free_of_take hpc hone
  rw [hpc] at hsound
  obtain ⟨he, helist, heretired, henull⟩ := hsound.fresh q.e rfl
  subst hfree
  obtain ⟨rfl, -⟩ := h.shape.free rfl
  have hnone : ∀ j, (s.pc j).releasing ≠ true := fun j hrel => nomatch (h.releasing j).mp hrel
  have hhe : hd ≠ q.e := fun heq => helist (heq ▸ List.mem_singleton_self hd)
  have hother : ∀ x, x ≠ hd → x ≠ q.e →
      ((((s.waiters.setNext hd null).setEv q.e (some q.ev)).setNext q.e 3).nodes x) =
        s.waiters.nodes x := fun x hxh hxe => by simp [hxh, hxe]
  have hev : ∀ x, (s.waiters.nodes x).ev ≠ none →
      ((((s.waiters.setNext hd null).setEv q.e (some q.ev)).setNext q.e 3).nodes x).ev ≠ none := by
    intro x hx
    rcases eq_or_ne x q.e with rfl | hxe
    · simp
    · rcases eq_or_ne x hd with rfl | hxh
      · simpa [hxe] using hx
      · rwa [hother x hxh hxe]
  refine h.move rfl ?_ sound_idle (fun j hj => ?_) (fun j _ => apart_idle)
    (congrArg (· ++ [q.ev]) h.holders) ⟨nofun, nofun⟩
    fun j _ => ⟨fun hrel => absurd hrel (hnone j), nofun⟩
  · exact
      { segment := h.shape.segment
        nodup := h.shape.nodup
        address := h.shape.address
        retired := Finset.insert_subset he h.shape.retired
        linked := fun x hx => by
          obtain ⟨hmem, hnot⟩ := h.shape.linked x hx
          refine ⟨hmem, fun hput => ?_⟩
          rcases Finset.mem_insert.mp hput with rfl | hold
          · exact helist hx
          · exact hnot hold
        held := fun _ => by simp [hhe]
        free := nofun
        one := fun x hx hxone => by
          by_contra hxh
          have hxe : x ≠ q.e := by
            rintro rfl
            simp at hxone
          rw [setWaiters, put, grant, note] at hxone
          simp only [hother x hxh hxe] at hxone
          exact hxh (h.shape.one x hx hxone)
        tail := h.shape.tail }
  · have hj' := h.sound j
    have hapart := h.apart i j (Ne.symm hj)
    rw [hpc] at hapart
    refine ⟨fun e hej => ?_, hj'.uses, fun r hr => ?_,
      hj'.facts.congr rfl (fun hrel => absurd hrel (hnone j)) fun x _ => hev x⟩
    · obtain ⟨hmem, hlist, hnot, hnull⟩ := hj'.fresh e hej
      have hne : e ≠ q.e := fun heq => hapart.fresh q.e rfl (heq ▸ hej)
      have hnh : e ≠ hd := fun heq => hlist (heq ▸ List.mem_singleton_self hd)
      refine ⟨hmem, hlist, fun hput => ?_, ?_⟩
      · rcases Finset.mem_insert.mp hput with heq | hold
        · exact hne heq
        · exact hnot hold
      · exact (congrArg EventBaseHolder.next (hother e hnh hne)).trans hnull
    · obtain ⟨hlist, hnot⟩ := hj'.hand r hr
      refine ⟨hlist, fun hput => ?_⟩
      rcases Finset.mem_insert.mp hput with rfl | hold
      · exact hapart.used q.e (mem_uses_of_hand hr) rfl
      · exact hnot hold

/-- Storing the event of a linked node keeps the invariant. -/
theorem store (h : s.Invariant nodes last owner) {q : Request} {t : Pointer}
    (hpc : s.pc i = .pushStore q t) :
    ((s.setWaiters (s.waiters.setEv t (some q.ev))).setPc i .idle).Invariant nodes last owner := by
  have hnext := fun x => next_setEv s.waiters t x (some q.ev)
  refine h.write_outside rfl rfl rfl (Finset.Subset.refl _) h.shape.address h.shape.retired
    (fun x _ => hnext x) (fun x hx => (h.shape.linked x hx).2)
    (fun x hx hone => h.shape.one x hx ((hnext x).symm.trans hone))
    (fun j _ e he => ⟨((h.sound j).fresh e he).2.2.1, hnext e⟩)
    (fun j _ r hr => ((h.sound j).hand r hr).2) (fun j _ x _ hev => ?_) sound_idle
    (fun j _ => apart_idle) Iff.rfl h.holders (h.releasing_same (by rw [hpc]; rfl))
    fun j _ => h.releasing j
  show ((s.waiters.setEv t (some q.ev)).nodes x).ev ≠ none
  rw [ExclusiveWaiterList.nodes_setEv]
  split
  · simp
  · exact hev

/-- A write to the link of a node that a pop has taken off the list. -/
theorem write_hand (h : s.Invariant nodes last owner) {r next : Pointer}
    (hr : (s.pc i).hand = some r) (hnext : next ≠ 1) (hhand : p.hand = some r)
    (hfacts : Facts (s.waiters.setNext r next) last p) :
    ((s.setWaiters (s.waiters.setNext r next)).setPc i p).Invariant nodes last owner := by
  have hsound := h.sound i
  obtain ⟨hlist, hnot⟩ := hsound.hand r hr
  obtain ⟨hfresh, huses, hreleasing⟩ := of_hand hhand
  have hother : ∀ x, x ≠ r → ((s.waiters.setNext r next).nodes x) = s.waiters.nodes x :=
    fun x hx => by simp [hx]
  have hapart : ∀ j, i ≠ j → Apart p (s.pc j) := fun j =>
    h.apart_of_uses (fun e he => by cases hfresh.symm.trans he) fun x hx => by
      rw [huses, List.mem_singleton] at hx
      exact .inl (hx ▸ mem_uses_of_hand hr)
  refine h.write_outside rfl rfl rfl (Finset.Subset.refl _) h.shape.address h.shape.retired
    (fun x hx => ?_) (fun x hx => (h.shape.linked x hx).2) (fun x hx hone => ?_)
    (fun j hj e he => ⟨((h.sound j).fresh e he).2.2.1, ?_⟩)
    (fun j _ r hr => ((h.sound j).hand r hr).2)
    (fun j _ x _ hev => (ev_setNext s.waiters r next x).symm ▸ hev)
    ⟨fun e he => ?_, fun x hx => ?_, fun r' hr' => ?_, hfacts⟩ hapart
    Iff.rfl h.holders (h.releasing_same (hreleasing.trans (of_hand hr).2.2.symm))
    fun j _ => h.releasing j
  · have hne : x ≠ r := fun heq => hlist (heq ▸ hx)
    exact congrArg EventBaseHolder.next (hother x hne)
  · have hne : x ≠ r := by
      rintro rfl
      exact hnext (by simpa using hone)
    exact h.shape.one x hx ((congrArg EventBaseHolder.next (hother x hne)).symm.trans hone)
  · have hne : e ≠ r := by
      rintro rfl
      exact (h.apart i j (Ne.symm hj)).uses e (mem_uses_of_hand hr) he
    exact congrArg EventBaseHolder.next (hother e hne)
  · cases hfresh.symm.trans he
  · rw [huses, List.mem_singleton] at hx
    exact hsound.uses x (hx ▸ mem_uses_of_hand hr)
  · obtain rfl : r = r' := Option.some.inj (hhand.symm.trans hr')
    exact ⟨hlist, hnot⟩

/-- Clearing the link of a popped node keeps the invariant. -/
theorem clear (h : s.Invariant nodes last owner) {r : Pointer} (hpc : s.pc i = .popClear r) :
    ((s.setWaiters (s.waiters.setNext r null)).setPc i (.popWaitEv r)).Invariant nodes last owner :=
  h.write_hand (by rw [hpc]; rfl) (by decide) rfl trivial

/-- Marking a popped node keeps the invariant. -/
theorem mark (h : s.Invariant nodes last owner) {r : Pointer} (hpc : s.pc i = .popMark r) :
    ((s.setWaiters (s.waiters.setNext r 3)).setPc i (.popHand r)).Invariant nodes last owner := by
  have hsound := h.sound i
  rw [hpc] at hsound
  have hev : (s.waiters.nodes r).ev ≠ none := hsound.facts
  exact h.write_hand (by rw [hpc]; rfl) (by decide) rfl fun hnone =>
    hev ((ev_setNext s.waiters r 3 r).symm.trans hnone)

/-- The event in the node gets the atomic. -/
theorem handOver (h : s.Invariant nodes last owner) {r : Pointer} (hpc : s.pc i = .popHand r) :
    ∃ ev, (s.waiters.nodes r).ev = some ev ∧
      ((((s.put r).grant [ev]).note .release (.released [ev])).setPc i .idle).Invariant nodes last
        (.event ev) := by
  have hsound := h.sound i
  have hhand : (s.pc i).hand = some r := by rw [hpc]; rfl
  have howner := (h.releasing i).mp (of_hand hhand).2.2
  subst howner
  obtain ⟨hlist, hnot⟩ := hsound.hand r hhand
  have hmem := hsound.uses r (mem_uses_of_hand hhand)
  rw [hpc] at hsound
  obtain ⟨ev, hev⟩ := Option.ne_none_iff_exists'.mp hsound.facts
  have hput : ∀ x, x ≠ r → x ∉ s.retired → x ∉ insert r s.retired := by
    intro x hne hx hins
    exact (Finset.mem_insert.mp hins).elim hne hx
  refine ⟨ev, hev, h.write_outside rfl rfl rfl (Finset.Subset.refl _) h.shape.address
    (Finset.insert_subset hmem h.shape.retired) (fun _ _ => rfl)
    (fun x hx => hput x (fun heq => hlist (heq ▸ hx)) (h.shape.linked x hx).2) h.shape.one
    (fun j hj e he => ⟨hput e ?_ ((h.sound j).fresh e he).2.2.1, rfl⟩) (fun j hj r' hr' => ?_)
    (fun _ _ _ _ hne => hne) sound_idle (fun j _ => apart_idle) ⟨nofun, nofun⟩ ?_ ⟨nofun, nofun⟩
    fun j hj => ⟨fun hrel => ?_, nofun⟩⟩
  · rintro rfl
    exact (h.apart i j (Ne.symm hj)).uses e (mem_uses_of_hand hhand) he
  · exact absurd (h.eq_of_releasing (of_hand hr').2.2 (of_hand hhand).2.2) hj
  · exact congrArg (· ++ [ev]) h.holders
  · exact absurd (h.eq_of_releasing hrel (of_hand hhand).2.2) hj

/-- Only the holder releases. -/
theorem release (h : s.Invariant nodes last owner) {ev : EventId} (hev : ev ∈ s.holders) :
    (setPc { s with holders := s.holders.erase ev } i .popHead).Invariant nodes last (.thread i) := by
  have hholders := h.holders
  rw [hholders] at hev
  cases owner with
  | free => cases hev
  | thread j => cases hev
  | event x =>
      obtain rfl : ev = x := List.mem_singleton.mp hev
      refine h.write_outside rfl rfl rfl (Finset.Subset.refl _) h.shape.address h.shape.retired
        (fun _ _ => rfl) (fun x hx => (h.shape.linked x hx).2) h.shape.one
        (fun j _ e he => ⟨((h.sound j).fresh e he).2.2.1, rfl⟩)
        (fun j _ r hr => ((h.sound j).hand r hr).2) (fun _ _ _ _ hne => hne)
        ⟨nofun, nofun, nofun, trivial⟩ (fun j _ => ⟨nofun, nofun, fun _ _ => nofun⟩)
        ⟨nofun, nofun⟩ ?_ ⟨fun _ => rfl, fun _ => rfl⟩ fun j hj => ⟨fun hrel => ?_, fun heq => ?_⟩
      · show s.holders.erase ev = []
        rw [hholders]
        simp [Owner.holders]
      · cases (h.releasing j).mp hrel
      · cases heq
        exact absurd rfl hj

/-- A pop takes the first node off the list. -/
theorem moveHead (h : s.Invariant nodes last owner) {hd hn : Pointer}
    (hpc : s.pc i = .popMoveHead hd hn) :
    ∃ rest, nodes = hd :: rest ∧
      ((s.setWaiters { s.waiters with head := hn }).setPc i (.popClear hd)).Invariant rest last
        owner := by
  have hsound := h.sound i
  have hrel : (s.pc i).releasing = true := by rw [hpc]; rfl
  have hheld := h.not_free_of_releasing hrel
  have hapart : ∀ j, i ≠ j → Apart (.popClear hd) (s.pc j) := fun j =>
    h.apart_of_uses nofun fun x hx => .inl (by rw [hpc]; exact hx)
  rw [hpc] at hsound
  obtain ⟨rfl, htail, hne, rfl⟩ := hsound.facts
  have hlinked := h.shape.linked
  have hnodup := h.shape.nodup
  cases nodes with
  | nil =>
      have heq : s.waiters.head = last := h.shape.segment
      exact absurd (heq ▸ h.shape.held hheld) hne
  | cons a rest =>
      obtain ⟨rfl, b, rfl, hrest⟩ := h.shape.segment
      rw [List.cons_append, List.nodup_cons] at hnodup
      refine ⟨rest, rfl, h.move rfl
        { segment := hrest
          nodup := hnodup.2
          address := h.shape.address
          retired := h.shape.retired
          linked := fun x hx => hlinked x (List.mem_cons_of_mem _ hx)
          held := h.shape.held
          free := fun hfree => absurd hfree hheld
          one := h.shape.one
          tail := ?_ }
        ⟨nofun, fun x hx => hsound.uses x hx, fun r hr => ?_, trivial⟩ (fun j hj => ?_) hapart
        h.holders (h.releasing_same (by rw [hrel]; rfl)) fun j _ => h.releasing j⟩
      · rcases h.shape.tail with hlast | ⟨front, hfront⟩
        · exact .inl hlast
        · cases front with
          | nil => exact absurd (List.cons.inj hfront).1 htail
          | cons c front => exact .inr ⟨front, (List.cons.inj hfront).2⟩
      · cases hr
        exact ⟨hnodup.1, (hlinked _ List.mem_cons_self).2⟩
      · have hj' := h.sound j
        have hlist : ∀ x, x ∉ s.waiters.head :: rest ++ [last] → x ∉ rest ++ [last] :=
          fun x hx hmem => hx (List.mem_cons_of_mem _ hmem)
        refine ⟨fun e he => ?_, hj'.uses, fun r hr => ⟨hlist r (hj'.hand r hr).1, (hj'.hand r hr).2⟩,
          hj'.facts.congr rfl (fun hrelj => ?_) fun _ _ hev => hev⟩
        · obtain ⟨hmem, hout, hnot, hnull⟩ := hj'.fresh e he
          exact ⟨hmem, hlist e hout, hnot, hnull⟩
        · exact absurd (h.eq_of_releasing hrelj hrel) hj

/-- A pop that finds no waiting event frees the atomic. -/
theorem free (h : s.Invariant nodes last owner) {hd : Pointer} (hpc : s.pc i = .popFree hd)
    (hnull : (s.waiters.nodes hd).next = null) :
    nodes = [] ∧
      (((s.setWaiters (s.waiters.setNext hd 1)).note .release (.released [])).setPc i
        .idle).Invariant nodes last .free := by
  have hsound := h.sound i
  have hrel : (s.pc i).releasing = true := by rw [hpc]; rfl
  have howner := (h.releasing i).mp hrel
  subst howner
  rw [hpc] at hsound
  have hhead : hd = s.waiters.head := hsound.facts
  have hlast : hd = last := h.shape.eq_last (hhead ▸ h.shape.head_mem) hnull
  subst hlast
  have hnil : nodes = [] := by
    cases nodes with
    | nil => rfl
    | cons a rest =>
        have ha : s.waiters.head = a := h.shape.segment.1
        exact absurd (by rw [hhead, ha]; exact List.mem_cons_self) h.shape.last_notMem
  subst hnil
  have hnone : ∀ j, j ≠ i → (s.pc j).releasing ≠ true := fun j hj hrelj =>
    hj (h.eq_of_releasing hrelj hrel)
  have hother : ∀ x, x ≠ hd → (s.waiters.setNext hd 1).nodes x = s.waiters.nodes x :=
    fun x hx => by simp [hx]
  refine ⟨rfl, h.move rfl
    { segment := h.shape.segment
      nodup := h.shape.nodup
      address := h.shape.address
      retired := h.shape.retired
      linked := h.shape.linked
      held := fun hfree => absurd rfl hfree
      free := fun _ => ⟨rfl, by simp⟩
      one := fun x hx hone => ?_
      tail := h.shape.tail }
    sound_idle (fun j hj => ?_) (fun j _ => apart_idle) h.holders ⟨nofun, nofun⟩
    fun j hj => ⟨fun hrelj => absurd hrelj (hnone j hj), nofun⟩⟩
  · by_contra hne
    rw [note_waiters, setWaiters_waiters, hother x hne] at hone
    exact hne (h.shape.one x hx hone)
  · have hj' := h.sound j
    refine ⟨fun e he => ?_, hj'.uses, hj'.hand,
      hj'.facts.congr rfl (fun hrelj => absurd hrelj (hnone j hj)) fun x _ hev =>
        (ev_setNext s.waiters hd 1 x).symm ▸ hev⟩
    obtain ⟨hmem, hlist, hnot, hnull⟩ := hj'.fresh e he
    have hne : e ≠ hd := fun heq => hlist (heq ▸ List.mem_singleton_self hd)
    exact ⟨hmem, hlist, hnot, (congrArg EventBaseHolder.next (hother e hne)).trans hnull⟩

/-- Only the thread that has linked the last node moves the tail. -/
theorem swing (h : s.Invariant nodes last owner) {q : Request} {t : Pointer}
    (hpc : s.pc i = .pushSwing q t) :
    ((s.setWaiters { s.waiters with
      tail := if s.waiters.tail = t then q.e else s.waiters.tail }).setPc i
        (.pushStore q t)).Invariant nodes last owner := by
  have hsound := h.sound i
  have hapart : ∀ j, i ≠ j → Apart (.pushStore q t) (s.pc j) := fun j =>
    h.apart_of_uses nofun fun x hx => .inl (by rw [hpc]; exact hx)
  have hsame : (ExclusivePc.pushStore q t).releasing = (s.pc i).releasing := by rw [hpc]; rfl
  rw [hpc] at hsound
  obtain ⟨hne, hlinked⟩ := hsound.facts
  have htail : (if s.waiters.tail = t then q.e else s.waiters.tail) = s.waiters.tail ∨
      (if s.waiters.tail = t then q.e else s.waiters.tail) = last := by
    split
    next heq => exact .inr (hlinked heq.symm)
    next => exact .inl rfl
  refine h.move rfl
    { segment := h.shape.segment
      nodup := h.shape.nodup
      address := h.shape.address
      retired := h.shape.retired
      linked := h.shape.linked
      held := h.shape.held
      free := h.shape.free
      one := h.shape.one
      tail := ?_ }
    ⟨nofun, fun x hx => hsound.uses x hx, nofun, trivial⟩ (fun j _ => ?_) hapart h.holders
    (h.releasing_same hsame) fun j _ => h.releasing j
  · rcases htail with hold | hlast
    · rw [setWaiters_waiters, hold]
      exact h.shape.tail
    · exact .inl hlast
  · have hj' := h.sound j
    refine ⟨hj'.fresh, hj'.uses, hj'.hand, ?_⟩
    rcases htail with hold | hlast
    · exact hj'.facts.congr hold (fun _ => ⟨rfl, rfl⟩) fun _ _ hev => hev
    · have hheadLast : ∀ hd hn : Pointer, hd = s.waiters.head → hn ≠ null →
          hn = (s.waiters.nodes hd).next → owner ≠ .free → hd ≠ last := by
        rintro hd hn - hnn rfl hheld rfl
        exact hnn (h.shape.held hheld)
      have hheld : (s.pc j).releasing = true → owner ≠ .free := h.not_free_of_releasing
      have hfacts := hj'.facts
      generalize s.pc j = pj at hfacts hheld
      cases pj
      case pushTailNext => exact fun heq => hlast.trans heq.symm
      case pushLink => exact fun heq => hlast.trans heq.symm
      case pushSwing => exact ⟨hfacts.1, fun heq => absurd (heq.trans hlast) hfacts.1⟩
      case popEv =>
        obtain ⟨hhd, -, hnn, hnext⟩ := hfacts
        exact ⟨hhd, fun heq => hheadLast _ _ hhd hnn hnext (hheld rfl) (heq.trans hlast), hnn, hnext⟩
      case popMoveHead =>
        obtain ⟨hhd, -, hnn, hnext⟩ := hfacts
        exact ⟨hhd, fun heq => hheadLast _ _ hhd hnn hnext (hheld rfl) (heq.trans hlast), hnn, hnext⟩
      all_goals exact hfacts

section Link

variable {q : Request} {tl : Pointer}

/-- A node that is linked behind the last one becomes the last one. -/
theorem link_last (h : s.Invariant nodes last owner) (hpc : s.pc i = .pushLink q tl)
    (hnull : (s.waiters.nodes tl).next = null) (hlist : tl ∈ nodes ++ [last]) :
    (((s.setWaiters (s.waiters.setNext tl q.e)).note (.acquireOrWait q.ev q.wtype)
      (.acquired false)).setPc i (.pushSwing q tl)).Invariant (nodes ++ [last]) q.e owner := by
  have hsound := h.sound i
  have hapart := h.apart i
  have hsame : (ExclusivePc.pushSwing q tl).releasing = (s.pc i).releasing := by rw [hpc]; rfl
  rw [hpc] at hsound hapart
  obtain rfl : tl = last := h.shape.eq_last hlist hnull
  have htail : s.waiters.tail = tl := hsound.facts rfl
  obtain ⟨he, helist, heretired, henull⟩ := hsound.fresh q.e rfl
  have hheld : owner ≠ .free := by
    intro hfree
    cases hnull.symm.trans (h.shape.free hfree).2
  have hother : ∀ x, x ≠ tl → (s.waiters.setNext tl q.e).nodes x = s.waiters.nodes x :=
    fun x hx => by simp [hx]
  have hself : ((s.waiters.setNext tl q.e).nodes tl).next = q.e := by simp
  have hetl : q.e ≠ tl := fun heq => helist (heq ▸ hlist)
  refine h.move rfl
    { segment := ?_
      nodup := ?_
      address := h.shape.address
      retired := h.shape.retired
      linked := fun x hx => ?_
      held := fun _ => (congrArg EventBaseHolder.next (hother q.e hetl)).trans henull
      free := fun hfree => absurd hfree hheld
      one := fun x hx hone => ?_
      tail := .inr ⟨nodes, by rw [note_waiters, setWaiters_waiters, ← htail]; rfl⟩ }
    ⟨nofun, fun x hx => hsound.uses x hx, nofun, Ne.symm hetl, fun _ => rfl⟩ (fun j hj => ?_)
    (h.link_apart hpc) h.holders (h.releasing_same hsame) fun j _ => h.releasing j
  · refine (h.shape.segment.congr fun a ha b hab => ?_).snoc hself
    have hne : a ≠ tl := fun heq => h.shape.last_notMem (heq ▸ ha)
    exact (congrArg EventBaseHolder.next (hother a hne)).trans hab
  · rw [List.nodup_append]
    refine ⟨h.shape.nodup, List.nodup_singleton _, fun a ha b hb heq => ?_⟩
    rw [List.mem_singleton] at hb
    exact helist (hb ▸ heq ▸ ha)
  · rcases List.mem_append.mp hx with hold | hnew
    · exact h.shape.linked x hold
    · rw [List.mem_singleton] at hnew
      rw [hnew]
      exact ⟨he, heretired⟩
  · rcases eq_or_ne x tl with rfl | hne
    · rw [note_waiters, setWaiters_waiters, hself] at hone
      exact absurd hone (ne_one_of_isNode (h.shape.address q.e he))
    · rw [note_waiters, setWaiters_waiters, hother x hne] at hone
      exact absurd (h.shape.one x hx hone) hne
  · have hj' := h.sound j
    have haj := hapart j (Ne.symm hj)
    have hout : ∀ x, x ∉ nodes ++ [tl] → x ≠ q.e → x ∉ nodes ++ [tl] ++ [q.e] := by
      intro x hx hne hmem
      rcases List.mem_append.mp hmem with hold | hnew
      · exact hx hold
      · exact hne (List.mem_singleton.mp hnew)
    refine ⟨fun e he' => ?_, hj'.uses, fun r hr => ?_, ?_⟩
    · obtain ⟨hmem, hlist', hnot, hnull'⟩ := hj'.fresh e he'
      have hne : e ≠ tl := fun heq => hlist' (heq ▸ hlist)
      have hneq : e ≠ q.e := fun heq => haj.fresh q.e rfl (heq ▸ he')
      exact ⟨hmem, hout e hlist' hneq, hnot,
        (congrArg EventBaseHolder.next (hother e hne)).trans hnull'⟩
    · have hneq : r ≠ q.e := by
        rintro rfl
        exact haj.used q.e (mem_uses_of_hand hr) rfl
      exact ⟨hout r (hj'.hand r hr).1 hneq, (hj'.hand r hr).2⟩
    · have hused : ∀ x ∈ (s.pc j).uses, x ≠ q.e := by
        rintro x hx rfl
        exact haj.used q.e hx rfl
      have hnextHead : ∀ hd hn : Pointer, hn ≠ null → hn = (s.waiters.nodes hd).next →
          hn = ((s.waiters.setNext tl q.e).nodes hd).next := by
        rintro hd hn hnn rfl
        have hne : hd ≠ tl := by
          rintro rfl
          exact hnn hnull
        exact (congrArg EventBaseHolder.next (hother hd hne)).symm
      have hnextOr : ∀ hd hn : Pointer, (hn = null ∨ hn = (s.waiters.nodes hd).next) →
          hn = null ∨ hn = ((s.waiters.setNext tl q.e).nodes hd).next := by
        intro hd hn hor
        rcases eq_or_ne hn null with hn0 | hnn
        · exact .inl hn0
        · exact .inr (hnextHead hd hn hnn (hor.resolve_left hnn))
      have hfacts := hj'.facts
      generalize s.pc j = pj at hfacts hused
      cases pj
      case pushTailNext => exact fun heq => absurd heq (hused _ (List.mem_singleton_self _))
      case pushLink => exact fun heq => absurd heq (hused _ (List.mem_singleton_self _))
      case pushSwing =>
        exact ⟨hused _ (List.mem_singleton_self _), fun heq => absurd (heq.trans htail) hfacts.1⟩
      case popNext => exact hfacts
      case popFree => exact hfacts
      case popTail => exact hfacts.imp_right (hnextOr _ _)
      case popCheckTail => exact hfacts.imp_right (hnextOr _ _)
      case popTailNext => exact hfacts.imp_right (hnextOr _ _)
      case popCompare => exact hfacts.imp_right (hnextOr _ _)
      case popEv =>
        obtain ⟨hhd, htl, hnn, hnext⟩ := hfacts
        exact ⟨hhd, htl, hnn, hnextHead _ _ hnn hnext⟩
      case popMoveHead =>
        obtain ⟨hhd, htl, hnn, hnext⟩ := hfacts
        exact ⟨hhd, htl, hnn, hnextHead _ _ hnn hnext⟩
      case popMark r => exact fun hnone => hfacts ((ev_setNext s.waiters tl q.e r).symm.trans hnone)
      case popHand r => exact fun hnone => hfacts ((ev_setNext s.waiters tl q.e r).symm.trans hnone)
      all_goals trivial

/-- A node that is linked behind one that a pop has taken off stays out of the list. -/
theorem link_outside (h : s.Invariant nodes last owner) (hpc : s.pc i = .pushLink q tl)
    (hlist : tl ∉ nodes ++ [last]) :
    (((s.setWaiters (s.waiters.setNext tl q.e)).note (.acquireOrWait q.ev q.wtype)
      (.acquired false)).setPc i (.pushSwing q tl)).Invariant nodes last owner := by
  have hsound := h.sound i
  have hapart := h.apart i
  have hsame : (ExclusivePc.pushSwing q tl).releasing = (s.pc i).releasing := by rw [hpc]; rfl
  rw [hpc] at hsound hapart
  have he := (hsound.fresh q.e rfl).1
  have hother : ∀ x, x ≠ tl → (s.waiters.setNext tl q.e).nodes x = s.waiters.nodes x :=
    fun x hx => by simp [hx]
  refine h.write_outside rfl rfl rfl (Finset.Subset.refl _) h.shape.address h.shape.retired
    (fun x hx => ?_) (fun x hx => (h.shape.linked x hx).2) (fun x hx hone => ?_)
    (fun j hj e hej => ⟨((h.sound j).fresh e hej).2.2.1, ?_⟩)
    (fun j _ r hr => ((h.sound j).hand r hr).2)
    (fun j _ x _ hev => (ev_setNext s.waiters tl q.e x).symm ▸ hev)
    ⟨nofun, fun x hx => hsound.uses x hx, nofun, fun heq => hlist (heq ▸ by simp),
      fun heq => absurd (heq ▸ h.shape.tail_mem) hlist⟩
    (h.link_apart hpc) Iff.rfl h.holders (h.releasing_same hsame) fun j _ => h.releasing j
  · have hne : x ≠ tl := fun heq => hlist (heq ▸ hx)
    exact congrArg EventBaseHolder.next (hother x hne)
  · rcases eq_or_ne x tl with rfl | hne
    · simp only [note_waiters, setWaiters_waiters, ExclusiveWaiterList.nodes_setNext,
        if_true] at hone
      exact absurd hone (ne_one_of_isNode (h.shape.address q.e he))
    · rw [note_waiters, setWaiters_waiters, hother x hne] at hone
      exact h.shape.one x hx hone
  · have hne : e ≠ tl := by
      rintro rfl
      exact (hapart j (Ne.symm hj)).uses e (List.mem_singleton_self e) hej
    exact congrArg EventBaseHolder.next (hother e hne)

end Link

end Invariant

/-! ## Runs -/

theorem new_initial {dummy : Pointer} (h : IsNode dummy) :
    Initial (new dummy : SharedExclusive θ) dummy where
  node := h
  inUse := rfl
  retired := rfl
  head := rfl
  tail := rfl
  dummy := by simp [new]
  pc _ := rfl
  holders := rfl
  noted := rfl

theorem Initial.invariant {s : SharedExclusive θ} {dummy : Pointer} (h : Initial s dummy) :
    s.Invariant [] dummy .free where
  shape :=
    { segment := h.head
      nodup := List.nodup_singleton dummy
      address := by
        simpa [h.inUse] using h.node
      retired := by simp [h.retired]
      linked := by simp [h.inUse, h.retired]
      held := fun hheld => absurd rfl hheld
      free := fun _ => ⟨rfl, by rw [h.dummy]⟩
      one := by simp [h.inUse]
      tail := .inl h.tail }
  sound i := by
    rw [h.pc i]
    exact Invariant.sound_idle
  apart i j _ := by
    rw [h.pc i]
    exact Invariant.apart_idle
  holders := h.holders
  releasing i := by
    rw [h.pc i]
    exact ⟨nofun, nofun⟩

section Runs

variable [DecidableEq θ] {s t : SharedExclusive θ} {nodes : List Pointer} {last : Pointer}
  {owner : Owner θ} {action : Action θ}

/-- Each step keeps the invariant. -/
theorem Invariant.step (h : s.Invariant nodes last owner) (hstep : Step s action t) :
    ∃ nodes' last' owner', t.Invariant nodes' last' owner' := by
  cases hstep with
  | acquireOrWait hpc hnode hnew => exact ⟨_, _, _, h.acquireOrWait hpc hnode hnew⟩
  | read hread => exact ⟨_, _, _, h.read hread⟩
  | take hpc hone => exact ⟨_, _, _, h.take hpc hone⟩
  | @link i q tl hpc _ hnull =>
      by_cases hlist : tl ∈ nodes ++ [last]
      · exact ⟨_, _, _, h.link_last hpc hnull hlist⟩
      · exact ⟨_, _, _, h.link_outside hpc hlist⟩
  | swing hpc => exact ⟨_, _, _, h.swing hpc⟩
  | store hpc => exact ⟨_, _, _, h.store hpc⟩
  | release _ hev => exact ⟨_, _, _, h.release hev⟩
  | moveHead hpc _ =>
      obtain ⟨rest, -, hrest⟩ := h.moveHead hpc
      exact ⟨_, _, _, hrest⟩
  | free hpc hnull => exact ⟨_, _, _, (h.free hpc hnull).2⟩
  | clear hpc => exact ⟨_, _, _, h.clear hpc⟩
  | mark hpc => exact ⟨_, _, _, h.mark hpc⟩
  | hand hpc =>
      obtain ⟨ev, hev, hafter⟩ := h.handOver hpc
      rw [hev]
      exact ⟨_, _, _, hafter⟩
  | reclaim hx hunused => exact ⟨_, _, _, h.reclaim hx hunused⟩

theorem exists_invariant (h : (system θ).Reachable s) :
    ∃ nodes last owner, s.Invariant nodes last owner := by
  refine h.invariant (P := fun s => ∃ nodes last owner, s.Invariant nodes last owner) ?_ ?_
  · rintro s ⟨dummy, hinit⟩
    exact ⟨_, _, _, hinit.invariant⟩
  · rintro s action t ⟨nodes, last, owner, hs⟩ hstep
    exact hs.step hstep

/-- In every interleaving at most one event holds the atomic, and none does while a release is going
on; at most one release goes on at a time. -/
theorem one_holder (h : (system θ).Reachable s) :
    s.holders.length ≤ 1 ∧
      (∀ i, (s.pc i).releasing = true → s.holders = []) ∧
      ∀ i j, (s.pc i).releasing = true → (s.pc j).releasing = true → i = j := by
  obtain ⟨nodes, last, owner, hs⟩ := exists_invariant h
  refine ⟨?_, fun i hi => ?_, fun i j => hs.eq_of_releasing⟩
  · rw [hs.holders]
    cases owner <;> simp [Owner.holders]
  · rw [hs.holders, (hs.releasing i).mp hi]
    rfl

/-- A thread gets the atomic while another one is between its two reads of the head. -/
theorem one_holder_taken :
    ∃ s : SharedExclusive (Fin 2), s.holders = [1] ∧ s.pc 1 = .pushCheckHead ⟨12, 2, 3⟩ 4 ∧
      s.holders.length ≤ 1 := by
  have hnew : (system (Fin 2)).Reachable (new 4) := .init ⟨4, new_initial ⟨rfl, by decide⟩⟩
  have hfirst := (hnew.step (.acquireOrWait (i := 0) (v := 1) (w := 3) (e := 8) rfl
    ⟨rfl, by decide⟩ (by decide))).step (.read (i := 0) (p := .pushCheckHead ⟨8, 1, 3⟩ 4) rfl)
  have hsecond := (hfirst.step (.acquireOrWait (i := 1) (v := 2) (w := 3) (e := 12) rfl
    ⟨rfl, by decide⟩ (by decide))).step (.read (i := 1) (p := .pushCheckHead ⟨12, 2, 3⟩ 4) rfl)
  have htaken := ((hsecond.step (.read (i := 0) (p := .pushNext ⟨8, 1, 3⟩ 4) rfl)).step
    (.read (i := 0) (p := .pushTake ⟨8, 1, 3⟩ 4) rfl)).step
    (.take (i := 0) (q := ⟨8, 1, 3⟩) (h := 4) rfl rfl)
  exact ⟨_, rfl, rfl, (one_holder htaken).1⟩

end Runs

end SharedExclusive

end Lockfree
end OFlux
