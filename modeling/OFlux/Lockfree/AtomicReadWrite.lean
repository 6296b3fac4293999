import OFlux.Guards.ReadWriteLock
import OFlux.Lockfree.Atomic

/-!
# The lock-free read/write atomic

The waiting events stand in a linked list that ends with a node without event.  The link
of that last node is no pointer: it packs the count of the holders, whether they read, and
a mark.  Calls are taken one after another, with their loops; the pointers are those of
a 32-bit machine, on which a link and the packed word share their place.

Main results:

- Theorem {lit}`AtomicReadWrite.bisimulation`: each call matches the call on the classic
  read/write atomic.
- Theorem {lit}`AtomicReadWrite.refines_classic_iff`: along every run the two give the
  same answers, no assertion fails, and the modes agree exactly as long as no release
  leaves the atomic free.
-/

namespace OFlux
namespace Lockfree

open Library
open Guards

/-! ## Packed words -/

/-- A counter beside a pointer or a packed word; both change in one step. -/
structure RWWaiterPtr where
  epoch : BitVec 32 := 0
  word : Nat := 0
deriving DecidableEq

namespace RWWaiterPtr

/-- The count is that of events in memory, so that it never reaches the bits that a shift
would lose. -/
def pack (rc : Nat) (md mk : Bool) : Nat :=
  rc <<< 2 ||| (if md then 0x0002 else 0x0000) ||| (if mk then 0x0001 else 0x0000)

/-- The word of a free or read atomic: its count and its two marks. -/
def counted (rc : Nat) (md mk : Bool) (epoch : BitVec 32) : RWWaiterPtr :=
  { epoch := epoch, word := pack rc md mk }

/-- The word of a link to a node. -/
def toNode (n : Pointer) (epoch : BitVec 32) : RWWaiterPtr :=
  { epoch := epoch, word := n }

/-- The mark bit of a word. -/
def mkd (p : RWWaiterPtr) : Bool := p.word &&& 0x0001 != 0

/-- True if and only if read. -/
def mode (p : RWWaiterPtr) : Bool := (p.word &&& 0x0002) >>> 1 != 0

/-- The number of readers in a word. -/
def rcount (p : RWWaiterPtr) : Nat := p.word >>> 2

/-- The word read as a link. -/
def ptr (p : RWWaiterPtr) : Pointer := p.word

theorem pack_eq (rc : Nat) (md mk : Bool) : pack rc md mk = 4 * rc + 2 * md.toNat + mk.toNat := by
  have hlow : ∀ b < 2 ^ 2, rc <<< 2 ||| b = rc <<< 2 + b :=
    fun b hb => (Nat.shiftLeft_add_eq_or_of_lt hb rc).symm
  have hhigh : rc <<< 2 = 4 * rc := by rw [Nat.shiftLeft_eq, Nat.mul_comm]
  unfold pack
  rw [Nat.or_assoc, hlow _ (by cases md <;> cases mk <;> decide), hhigh]
  cases md <;> cases mk <;> rfl

theorem mkd_eq (p : RWWaiterPtr) : p.mkd = (p.word % 2 != 0) := by
  rw [mkd, Nat.and_one_is_mod]

theorem mode_eq (p : RWWaiterPtr) : p.mode = (p.word / 2 % 2 != 0) := by
  rw [mode, Nat.shiftRight_and_distrib, Nat.shiftRight_one]
  exact congrArg (· != 0) (Nat.and_one_is_mod _)

theorem rcount_eq (p : RWWaiterPtr) : p.rcount = p.word / 4 := Nat.shiftRight_eq_div_pow _ 2

variable {p : RWWaiterPtr} {rc : Nat} {md mk : Bool}

/-- The mark that was packed. -/
theorem mkd_of_word (h : p.word = pack rc md mk) : p.mkd = mk := by
  rw [mkd_eq, h, pack_eq]
  cases mk <;> simp <;> omega

/-- The mode that was packed. -/
theorem mode_of_word (h : p.word = pack rc md mk) : p.mode = md := by
  rw [mode_eq, h, pack_eq]
  cases md <;> cases mk <;> simp <;> omega

/-- The count that was packed. -/
theorem rcount_of_word (h : p.word = pack rc md mk) : p.rcount = rc := by
  rw [rcount_eq, h, pack_eq]
  cases md <;> cases mk <;> simp <;> omega

/-- A marked word is not the null link. -/
theorem ptr_ne_null_of_word (h : p.word = pack rc md true) : p.ptr ≠ null := by
  have hword : p.word = 4 * rc + 2 * md.toNat + 1 := h.trans (pack_eq rc md true)
  intro hnull
  have hzero : p.word = 0 := hnull
  omega

/-- The word of a free atomic. -/
theorem mkd_of_zero (h : p.word = 0) : p.mkd = false := by
  rw [mkd_eq, h]
  rfl

/-- A link to a node is not marked. -/
theorem mkd_of_node (h : IsNode p.word) : p.mkd = false := by
  have hmod := h.1
  have heven : p.word % 2 = 0 := by omega
  rw [mkd_eq, heven]
  rfl

end RWWaiterPtr

/-! ## The waiter list -/

namespace Readwrite

/-- A node of the waiter list: its link, its event and the mode it waits for. -/
structure EventBaseHolder where
  next : RWWaiterPtr := {}
  val : Option EventId := none
  mode : Nat := WType.none

end Readwrite

/-- The address of the static node that ends the chain of the released ones. -/
def sentinel : Pointer := 4

/-- The waiters of a read-write atomic: list nodes in memory with a head and a tail. -/
structure ReadWriteWaiterList where
  nodes : Pointer → Readwrite.EventBaseHolder
  head : Pointer
  tail : Pointer

namespace ReadWriteWaiterList

/-- Rewrites the node at `p`. -/
def modify (w : ReadWriteWaiterList) (p : Pointer)
    (f : Readwrite.EventBaseHolder → Readwrite.EventBaseHolder) : ReadWriteWaiterList :=
  { w with nodes := Function.update w.nodes p (f (w.nodes p)) }

/-- Writes the link of node `p`. -/
def setNext (w : ReadWriteWaiterList) (p : Pointer) (next : RWWaiterPtr) :
    ReadWriteWaiterList :=
  w.modify p fun x => { x with next := next }

/-- The node of a granted request gets its event back. -/
def grant (w : ReadWriteWaiterList) (e : Pointer) (ev : Option EventId) (mode : Nat) :
    Turn String ReadWriteWaiterList Bool :=
  if (w.nodes e).val ≠ none then .fail "!ev"
  else .done (w.modify e fun x => { x with val := ev, mode := mode }) true

/-- A new node takes over the packed word and becomes the last one. -/
def link (w : ReadWriteWaiterList) (e : Pointer) : ReadWriteWaiterList :=
  let rwptr := (w.nodes w.tail).next
  { (w.setNext e (.counted rwptr.rcount rwptr.mode true (rwptr.epoch + 1))).setNext w.tail
      (.toNode e (rwptr.epoch + 1)) with tail := e }

/-- One turn of the loop of {lit}`push`, with the event and the mode taken out of the
node. -/
def pushTurn (e : Pointer) (ev : Option EventId) (mode : Nat) (w : ReadWriteWaiterList) :
    Turn String ReadWriteWaiterList Bool :=
  let h := w.head
  let t := w.tail
  let rwptr := (w.nodes t).next
  if h = t ∧ rwptr.ptr = null then
    -- 1->2
    (w.setNext t (.counted 1 (mode == WType.read) true (rwptr.epoch + 1))).grant e ev mode
  else if h = t ∧ rwptr.mkd = true ∧ rwptr.mode = true ∧ mode = WType.read then
    -- 2->2
    (w.setNext t (.counted (rwptr.rcount + 1) true true (rwptr.epoch + 1))).grant e ev mode
  else if h = t ∧ rwptr.mkd = true ∧ ¬ (mode = WType.read ∧ rwptr.mode = true) then
    -- 2->3
    if ((w.link e).nodes t).val ≠ none then .fail "t->val == 0"
    else .done ((w.link e).modify t fun x => { x with mode := mode, val := ev }) false
  else if h ≠ t ∧ (w.nodes h).next.mkd = false ∧ rwptr.mkd = true then
    -- 3->3
    .done ((w.link e).modify t fun x => { x with mode := mode, val := ev }) false
  else .again w

/-- A call of {lit}`push` that returns: true when the request is granted. -/
def Push (w : ReadWriteWaiterList) (e : Pointer)
    (out : Except String (ReadWriteWaiterList × Bool)) : Prop :=
  Returns (pushTurn e (w.nodes e).val (w.nodes e).mode)
    (w.modify e fun x => { x with val := none, mode := WType.none }) out

/-- Where a call of {lit}`pop` is, with its local variables. -/
inductive PopAt where
  | loop
  | readers (el h t : Pointer) (rwptr : RWWaiterPtr) (newRcount : Nat)
  | convert (el h t : Pointer) (rwptr : RWWaiterPtr) (newRcount : Nat)
  | swing (el h t : Pointer) (rwptr : RWWaiterPtr) (newRcount : Nat)
  | commit (el h t : Pointer) (rwptr : RWWaiterPtr) (newRcount : Nat)
  | busyWaitOnEv (el traverse : Pointer)

/-- One turn of a loop of {lit}`pop`.  A compare-and-swap with a value that was read
earlier is made; the others, with a value just read, succeed. -/
def popTurn (mode : Nat) :
    ReadWriteWaiterList × PopAt → Turn String (ReadWriteWaiterList × PopAt) Pointer
  | (w, .loop) =>
      let h := w.head
      let t := w.tail
      let rwptr := (w.nodes t).next
      if rwptr.mkd = false then .again (w, .loop)
      else if (mode == WType.read) ≠ rwptr.mode then
        .fail "release mode should match waiter state"
      else if h = t ∧ rwptr.rcount = 1 then
        -- 2->1
        .done (w.setNext t (.counted 0 false false (rwptr.epoch + 1)), .loop) null
      else if rwptr.rcount > 1 then
        -- (2,3)->(2,3)
        .done (w.setNext t (.counted (rwptr.rcount - 1) rwptr.mode rwptr.mkd (rwptr.epoch + 1)),
          .loop) null
      else if h ≠ t ∧ (w.nodes h).val ≠ none ∧ (w.nodes h).next.ptr ≠ null ∧
          (w.nodes h).mode ≠ WType.none ∧ (w.nodes h).next.mkd = false ∧ rwptr.rcount = 1 then
        -- 3->(2,3)
        .again (w, .readers h h t rwptr 1)
      else .again (w, .loop)
  | (w, .readers el h t rwptr newRcount) =>
      let n := (w.nodes h).next.ptr
      if n ≠ null ∧ (w.nodes el).mode = WType.read ∧ (w.nodes h).val ≠ none ∧
          (w.nodes n).mode = WType.read ∧ (w.nodes n).next.mkd = false ∧ n ≠ sentinel then
        .again (w, .readers el n t rwptr (newRcount + 1))
      else if n = sentinel then .again (w, .loop)
      else .again (w, .convert el h t rwptr newRcount)
  | (w, .convert el h t rwptr newRcount) =>
      -- going to write mode from read mode
      if t = (w.nodes h).next.ptr ∧ (w.nodes el).mode = WType.write ∧ rwptr.mode = true then
        if (w.nodes t).next = rwptr then
          .again (w.setNext t (.counted 1 false true (rwptr.epoch + 1)),
            .swing el h t rwptr newRcount)
        else .again (w, .convert el h w.tail (w.nodes w.tail).next newRcount)
      else .again (w, .swing el h t rwptr newRcount)
  | (w, .swing el h t rwptr newRcount) =>
      if w.head = el then
        .again ({ w with head := (w.nodes h).next.ptr }, .commit el h t rwptr newRcount)
      else .again (w, .loop)
  | (w, .commit el h t rwptr newRcount) =>
      if t ≠ w.tail ∨ (w.nodes t).next.mkd = false ∨ (w.nodes t).next ≠ rwptr then
        .again (w, .commit el h w.tail (w.nodes w.tail).next newRcount)
      else
        let isRead := (w.nodes el).mode == WType.read
        .again ((w.setNext t (.counted newRcount isRead true (rwptr.epoch + 1))).setNext h
          (.toNode sentinel 0), .busyWaitOnEv el el)
  | (w, .busyWaitOnEv el traverse) =>
      if traverse = null ∨ traverse = sentinel then .done (w, .busyWaitOnEv el traverse) el
      else if (w.nodes traverse).val = none then .again (w, .busyWaitOnEv el traverse)
      else .again (w, .busyWaitOnEv el (w.nodes traverse).next.ptr)

/-- One turn of the walk of {lit}`count_waiters` over the waiting events. -/
def walkTurn (w : ReadWriteWaiterList) :
    Pointer × List EventId → Turn String (Pointer × List EventId) (List EventId)
  | (e, seen) =>
      if e = null ∨ (w.nodes e).next.ptr = null ∨ (w.nodes e).next.mkd = true then
        .done (e, seen) seen
      else .again ((w.nodes e).next.ptr, seen ++ (w.nodes e).val.toList)

/-- The events that the walk meets. -/
def Waiting (w : ReadWriteWaiterList) (evs : List EventId) : Prop :=
  ∃ e, Returns w.walkTurn (w.head, []) (.ok ((e, evs), evs))

/-- One turn of the loop of {lit}`rcount`. -/
def rcountTurn (w : ReadWriteWaiterList) : Unit → Turn String Unit Nat
  | () =>
      let rwptr := (w.nodes w.tail).next
      if w.head = w.tail ∧ rwptr.mkd = false then .done () 0
      else if rwptr.mkd = true then .done () rwptr.rcount
      else .again ()

/-- The reader count that the list reports. -/
def Rcount (w : ReadWriteWaiterList) (rc : Nat) : Prop :=
  Returns w.rcountTurn () (.ok ((), rc))

@[simp]
theorem nodes_modify (w : ReadWriteWaiterList) (p q : Pointer)
    (f : Readwrite.EventBaseHolder → Readwrite.EventBaseHolder) :
    (w.modify p f).nodes q = if q = p then f (w.nodes p) else w.nodes q := by
  simp [modify, Function.update_apply]

@[simp]
theorem head_modify (w : ReadWriteWaiterList) (p : Pointer)
    (f : Readwrite.EventBaseHolder → Readwrite.EventBaseHolder) :
    (w.modify p f).head = w.head := rfl

@[simp]
theorem tail_modify (w : ReadWriteWaiterList) (p : Pointer)
    (f : Readwrite.EventBaseHolder → Readwrite.EventBaseHolder) :
    (w.modify p f).tail = w.tail := rfl

@[simp]
theorem nodes_setNext (w : ReadWriteWaiterList) (p q : Pointer) (next : RWWaiterPtr) :
    (w.setNext p next).nodes q = if q = p then { w.nodes p with next := next } else w.nodes q :=
  nodes_modify w p q _

@[simp]
theorem head_setNext (w : ReadWriteWaiterList) (p : Pointer) (next : RWWaiterPtr) :
    (w.setNext p next).head = w.head := rfl

@[simp]
theorem tail_setNext (w : ReadWriteWaiterList) (p : Pointer) (next : RWWaiterPtr) :
    (w.setNext p next).tail = w.tail := rfl

/-! ## What a list represents -/

/-- The links, events and modes of the nodes, as a queue. -/
abbrev Queue (w : ReadWriteWaiterList) (head : Pointer) (nodes : List Pointer)
    (waiters : List AtomicQueueEntry) : Prop :=
  LinkedQueue (fun a b => (w.nodes a).next.word = b) (fun a => ((w.nodes a).val, (w.nodes a).mode))
    head nodes w.tail (waiters.map fun x => (some x.event, x.wtype))

/-- The nodes are allocated, and the last one has the packed word and no event. -/
structure Represents (w : ReadWriteWaiterList) (inUse nodes : List Pointer) (word : Nat)
    (waiters : List AtomicQueueEntry) : Prop where
  queue : w.Queue w.head nodes waiters
  allocated : ∀ p ∈ nodes ++ [w.tail], IsNode p ∧ p ∈ inUse ∧ p ≠ sentinel
  idle : (w.nodes w.tail).val = none ∧ (w.nodes w.tail).mode = WType.none
  word : (w.nodes w.tail).next.word = word

variable {w w' : ReadWriteWaiterList} {inUse nodes front rest : List Pointer} {word rc : Nat}
  {md : Bool} {waiters run : List AtomicQueueEntry} {e el h last t : Pointer} {mode n : Nat}
  {rwptr : RWWaiterPtr}

namespace Represents

/-- With nobody waiting the head and the tail are one node. -/
theorem head_eq_tail (h : w.Represents inUse nodes word []) : w.head = w.tail :=
  h.queue.head_eq_tail_iff.mpr rfl

/-- With somebody waiting the head is not the tail. -/
theorem head_ne_tail {x : AtomicQueueEntry} (h : w.Represents inUse nodes word (x :: waiters)) :
    w.head ≠ w.tail := by
  intro heq
  have hnil := h.queue.head_eq_tail_iff.mp heq
  simp at hnil

/-- A node that is not in use is not on the list. -/
theorem not_mem_of_fresh (h : w.Represents inUse nodes word waiters) (hfresh : e ∉ inUse) :
    e ∉ nodes ++ [w.tail] :=
  fun hp => hfresh (h.allocated e hp).2.1

/-- A node that is not in use is none of the list. -/
theorem ne_of_fresh (h : w.Represents inUse nodes word waiters) (hfresh : e ∉ inUse) :
    ∀ p ∈ nodes ++ [w.tail], p ≠ e :=
  fun _ hp heq => h.not_mem_of_fresh hfresh (heq ▸ hp)

/-- No waiting node is the tail. -/
theorem ne_tail (h : w.Represents inUse nodes word waiters) : ∀ p ∈ nodes, p ≠ w.tail :=
  fun _ hp heq => h.queue.tail_not_mem (heq ▸ hp)

/-- Each link of the list but the last one is a pointer. -/
theorem next_node (h : w.Represents inUse nodes word waiters) {a : Pointer} (ha : a ∈ nodes) :
    IsNode (w.nodes a).next.word ∧ (w.nodes a).next.word ≠ sentinel := by
  obtain ⟨b, hb, hlink⟩ := h.queue.segment.exists_link ha
  have hword : (w.nodes a).next.word = b := hlink
  rw [hword]
  exact ⟨(h.allocated b hb).1, (h.allocated b hb).2.2⟩

/-- The head holds the first event that waits, with its mode. -/
theorem first_node {x : AtomicQueueEntry} (h : w.Represents inUse nodes word (x :: waiters)) :
    w.head ∈ nodes ∧ (w.nodes w.head).val = some x.event ∧ (w.nodes w.head).mode = x.wtype := by
  obtain ⟨next, rest, rfl, hitem, hlink, hrest⟩ := LinkedQueue.pop h.queue
  simp only [Prod.mk.injEq] at hitem
  exact ⟨List.mem_cons_self, hitem⟩

/-- Nodes outside the list do not matter, and of the last one only its packed word may
change. -/
theorem congr (h : w.Represents inUse nodes word waiters) {inUse' : List Pointer} {word' : Nat}
    (hhead : w'.head = w.head) (htail : w'.tail = w.tail)
    (hnodes : ∀ p ∈ nodes, w'.nodes p = w.nodes p)
    (hidle : (w'.nodes w.tail).val = none ∧ (w'.nodes w.tail).mode = WType.none)
    (hword : (w'.nodes w.tail).next.word = word')
    (hinUse : ∀ p ∈ nodes ++ [w.tail], p ∈ inUse → p ∈ inUse') :
    w'.Represents inUse' nodes word' waiters := by
  constructor
  · rw [Queue, hhead, htail]
    refine h.queue.congr (fun a ha b hab => ?_) (fun a ha => ?_)
    · rw [hnodes a ha]
      exact hab
    · rw [hnodes a ha]
  · rw [htail]
    intro p hp
    have hold := h.allocated p hp
    exact ⟨hold.1, hinUse p hp hold.2.1, hold.2.2⟩
  · rw [htail]
    exact hidle
  · rw [htail]
    exact hword

/-- A new packed word. -/
theorem setNext_tail (h : w.Represents inUse nodes word waiters) (next : RWWaiterPtr) :
    (w.setNext w.tail next).Represents inUse nodes next.word waiters := by
  refine h.congr rfl rfl (fun p hp => ?_) ?_ ?_ (fun _ _ hp => hp)
  · simp [h.ne_tail p hp]
  · simpa using h.idle
  · simp

/-- A change to a node outside the list. -/
theorem modify_fresh (h : w.Represents inUse nodes word waiters) (hfresh : e ∉ inUse)
    (f : Readwrite.EventBaseHolder → Readwrite.EventBaseHolder) :
    (w.modify e f).Represents inUse nodes word waiters := by
  have hne := h.ne_of_fresh hfresh
  have htail : w.tail ≠ e := hne w.tail (by simp)
  refine h.congr rfl rfl (fun p hp => ?_) ?_ ?_ (fun _ _ hp => hp)
  · simp [hne p (List.mem_append_left _ hp)]
  · simpa [htail] using h.idle
  · simpa [htail] using h.word

/-! ## Requests on a list -/

/-- A granted request changes the packed word and keeps its node out of the list. -/
theorem grant_fresh (h : w.Represents inUse nodes word waiters) (hfresh : e ∉ inUse)
    (hval : (w.nodes e).val = none) (next : RWWaiterPtr) (ev : Option EventId) :
    ∃ w', (w.setNext w.tail next).grant e ev mode = .done w' true ∧
      w'.Represents inUse nodes next.word waiters := by
  have htail : e ≠ w.tail := Ne.symm (h.ne_of_fresh hfresh w.tail (by simp))
  refine ⟨_, ?_, (h.setNext_tail next).modify_fresh hfresh
    fun x => { x with val := ev, mode := mode }⟩
  simp [grant, htail, hval]

/-- A push on a free atomic takes it. -/
theorem push_free (h : w.Represents inUse nodes 0 []) (hfresh : e ∉ inUse)
    (hval : (w.nodes e).val = none) (ev : Option EventId) :
    ∃ w', pushTurn e ev mode w = .done w' true ∧
      w'.Represents inUse nodes (RWWaiterPtr.pack 1 (mode == WType.read) true) [] := by
  have hptr : (w.nodes w.tail).next.ptr = null := h.word
  obtain ⟨w', hgrant, hw'⟩ := h.grant_fresh hfresh hval
    (.counted 1 (mode == WType.read) true ((w.nodes w.tail).next.epoch + 1)) ev
  refine ⟨w', ?_, hw'⟩
  simpa [pushTurn, h.head_eq_tail, hptr] using hgrant

/-- A reader joins readers when nobody waits. -/
theorem push_join (h : w.Represents inUse nodes (RWWaiterPtr.pack rc true true) [])
    (hfresh : e ∉ inUse) (hval : (w.nodes e).val = none) (hread : mode = WType.read)
    (ev : Option EventId) :
    ∃ w', pushTurn e ev mode w = .done w' true ∧
      w'.Represents inUse nodes (RWWaiterPtr.pack (rc + 1) true true) [] := by
  have hptr := RWWaiterPtr.ptr_ne_null_of_word h.word
  have hmkd := RWWaiterPtr.mkd_of_word h.word
  have hmode := RWWaiterPtr.mode_of_word h.word
  have hrc := RWWaiterPtr.rcount_of_word h.word
  obtain ⟨w', hgrant, hw'⟩ := h.grant_fresh hfresh hval
    (.counted (rc + 1) true true ((w.nodes w.tail).next.epoch + 1)) ev
  refine ⟨w', ?_, hw'⟩
  simpa [pushTurn, h.head_eq_tail, hptr, hmkd, hmode, hrc, hread] using hgrant

/-- The last node takes the event, and a new one the packed word. -/
theorem link (h : w.Represents inUse nodes (RWWaiterPtr.pack rc md true) waiters)
    (hnode : IsNode e) (hfresh : e ∉ inUse) (hsentinel : e ≠ sentinel)
    (hidle : (w.nodes e).val = none ∧ (w.nodes e).mode = WType.none) (ev : EventId) :
    ((w.link e).modify w.tail fun x => { x with mode := mode, val := some ev }).Represents
      (e :: inUse) (nodes ++ [w.tail]) (RWWaiterPtr.pack rc md true)
      (waiters ++ [⟨ev, mode⟩]) := by
  have htail : w.tail ≠ e := h.ne_of_fresh hfresh w.tail (by simp)
  have hmode := RWWaiterPtr.mode_of_word h.word
  have hrc := RWWaiterPtr.rcount_of_word h.word
  have hne : ∀ a ∈ nodes, a ≠ w.tail ∧ a ≠ e := fun a ha =>
    ⟨h.ne_tail a ha, h.ne_of_fresh hfresh a (List.mem_append_left _ ha)⟩
  constructor
  · rw [Queue, List.map_append]
    refine h.queue.push (h.not_mem_of_fresh hfresh) ?_ ?_ ?_ ?_
    · intro a ha b hab
      simpa [ReadWriteWaiterList.link, hne a ha] using hab
    · simp [ReadWriteWaiterList.link, RWWaiterPtr.toNode]
    · intro a ha
      simp [ReadWriteWaiterList.link, hne a ha]
    · simp [ReadWriteWaiterList.link]
  · intro p hp
    rcases List.mem_append.mp hp with hold | hnew
    · have hold' := h.allocated p hold
      exact ⟨hold'.1, List.mem_cons_of_mem e hold'.2.1, hold'.2.2⟩
    · have heq : p = e := by simpa [ReadWriteWaiterList.link] using hnew
      rw [heq]
      exact ⟨hnode, List.mem_cons_self, hsentinel⟩
  · simpa [ReadWriteWaiterList.link, Ne.symm htail] using hidle
  · simp [ReadWriteWaiterList.link, Ne.symm htail, RWWaiterPtr.counted, hmode, hrc]

/-- Every other push puts its event at the end. -/
theorem push_wait (h : w.Represents inUse nodes (RWWaiterPtr.pack rc md true) waiters)
    (hnode : IsNode e) (hfresh : e ∉ inUse) (hsentinel : e ≠ sentinel)
    (hidle : (w.nodes e).val = none ∧ (w.nodes e).mode = WType.none)
    (hjoin : ¬ (waiters = [] ∧ md = true ∧ mode = WType.read)) (ev : EventId) :
    ∃ w', pushTurn e (some ev) mode w = .done w' false ∧
      w'.Represents (e :: inUse) (nodes ++ [w.tail]) (RWWaiterPtr.pack rc md true)
        (waiters ++ [⟨ev, mode⟩]) := by
  have hptr := RWWaiterPtr.ptr_ne_null_of_word h.word
  have hmkd := RWWaiterPtr.mkd_of_word h.word
  have hmode := RWWaiterPtr.mode_of_word h.word
  have htail : w.tail ≠ e := h.ne_of_fresh hfresh w.tail (by simp)
  refine ⟨_, ?_, h.link hnode hfresh hsentinel hidle ev⟩
  cases waiters with
  | nil =>
      have hval : ((w.link e).nodes w.tail).val = none := by
        simp [ReadWriteWaiterList.link, htail, h.idle]
      have hjoin' : ¬ (md = true ∧ mode = WType.read) := fun hread => hjoin ⟨rfl, hread⟩
      have hwait : ¬ (mode = WType.read ∧ md = true) := fun hread => hjoin' hread.symm
      simp only [pushTurn, h.head_eq_tail, hptr, hmkd, hmode, hjoin', hwait, hval,
        true_and, and_false, if_false, not_false_eq_true, if_true, ne_eq,
        not_true_eq_false]
  | cons x waiters =>
      have hne := h.head_ne_tail
      have hfirst := RWWaiterPtr.mkd_of_node (h.next_node h.first_node.1).1
      simp [pushTurn, hne, hmkd, hfirst]

/-! ## Releases on a list -/

/-- The last holder frees the atomic when nobody waits. -/
theorem pop_free (h : w.Represents inUse nodes (RWWaiterPtr.pack 1 md true) [])
    (hmode : (mode == WType.read) = md) :
    ∃ w' at_, Returns (popTurn mode) (w, .loop) (.ok ((w', at_), null)) ∧
      w'.Represents inUse nodes 0 [] := by
  have hmkd := RWWaiterPtr.mkd_of_word h.word
  have hmd := RWWaiterPtr.mode_of_word h.word
  have hrc := RWWaiterPtr.rcount_of_word h.word
  refine ⟨w.setNext w.tail (.counted 0 false false ((w.nodes w.tail).next.epoch + 1)), .loop,
    Returns.done ?_, h.setNext_tail _⟩
  simp [popTurn, h.head_eq_tail, hmkd, hmd, hrc, hmode]

/-- A holder that is not the last only counts itself out. -/
theorem pop_others (h : w.Represents inUse nodes (RWWaiterPtr.pack rc md true) waiters)
    (hmode : (mode == WType.read) = md) (hothers : 1 < rc) :
    ∃ w' at_, Returns (popTurn mode) (w, .loop) (.ok ((w', at_), null)) ∧
      w'.Represents inUse nodes (RWWaiterPtr.pack (rc - 1) md true) waiters := by
  have hmkd := RWWaiterPtr.mkd_of_word h.word
  have hmd := RWWaiterPtr.mode_of_word h.word
  have hrc := RWWaiterPtr.rcount_of_word h.word
  have hone : rc ≠ 1 := by omega
  refine ⟨w.setNext w.tail (.counted (rc - 1) md true ((w.nodes w.tail).next.epoch + 1)), .loop,
    Returns.done ?_, h.setNext_tail _⟩
  simp [popTurn, hmkd, hmd, hrc, hmode, hone, hothers]

/-- A release with waiting events begins to take nodes off the list. -/
theorem pop_start {x : AtomicQueueEntry}
    (h : w.Represents inUse nodes (RWWaiterPtr.pack 1 md true) (x :: waiters))
    (hmode : (mode == WType.read) = md) (hx : x.wtype ≠ WType.none)
    (out : Except String ((ReadWriteWaiterList × PopAt) × Pointer)) :
    Returns (popTurn mode) (w, .loop) out ↔
      Returns (popTurn mode)
        (w, .readers w.head w.head w.tail (w.nodes w.tail).next 1) out := by
  have hmkd := RWWaiterPtr.mkd_of_word h.word
  have hmd := RWWaiterPtr.mode_of_word h.word
  have hrc := RWWaiterPtr.rcount_of_word h.word
  obtain ⟨hmem, hval, hfirst⟩ := h.first_node
  have hnode := (h.next_node hmem).1
  have hfirstMkd := RWWaiterPtr.mkd_of_node hnode
  have hptr : (w.nodes w.head).next.ptr ≠ null := hnode.ne_null
  apply Returns.again_iff
  simp [popTurn, h.head_ne_tail, hmkd, hmd, hrc, hmode, hval, hfirst, hfirstMkd, hptr, hx]

end Represents

/-- The scan goes on to the last one of a run of readers. -/
theorem readers_scan (hseg : Segment (fun a b => (w.nodes a).next.word = b) h front last)
    (hel : (w.nodes el).mode = WType.read)
    (hnodes : ∀ a ∈ front ++ [last], IsNode a ∧ a ≠ sentinel ∧ (w.nodes a).val ≠ none ∧
      (w.nodes a).mode = WType.read ∧ (w.nodes a).next.mkd = false)
    (out : Except String ((ReadWriteWaiterList × PopAt) × Pointer)) :
    Returns (popTurn mode) (w, .readers el h t rwptr n) out ↔
      Returns (popTurn mode) (w, .readers el last t rwptr (n + front.length)) out := by
  induction front generalizing h n with
  | nil =>
      have heq : h = last := hseg
      rw [heq]
      rfl
  | cons a front ih =>
      obtain ⟨rfl, b, hlink, hrest⟩ := hseg
      have hb := hnodes b (List.mem_cons_of_mem _ hrest.head_mem)
      have hh := hnodes h List.mem_cons_self
      have hptr : (w.nodes h).next.ptr = b := hlink
      have hturn : popTurn mode (w, .readers el h t rwptr n) =
          .again (w, .readers el b t rwptr (n + 1)) := by
        simp [popTurn, hptr, hb.1.ne_null, hb.2.1, hb.2.2.2, hh.2.2.1, hel]
      rw [Returns.again_iff hturn, ih hrest fun c hc => hnodes c (List.mem_cons_of_mem _ hc),
        List.length_cons, Nat.add_assoc, Nat.add_comm 1]

/-- The list with its first nodes taken off, the packed word changed, and the end of the
chain of those nodes set. -/
def detach (w : ReadWriteWaiterList) (last : Pointer) (next : RWWaiterPtr) :
    ReadWriteWaiterList :=
  ({ w with head := (w.nodes last).next.ptr }.setNext w.tail next).setNext last
    (.toNode sentinel 0)

/-- The second of two writes of a link stands. -/
theorem setNext_setNext (w : ReadWriteWaiterList) (p : Pointer) (a b : RWWaiterPtr) :
    (w.setNext p a).setNext p b = w.setNext p b := by
  unfold setNext modify
  simp

/-- The turn that moves the head behind the events handed over. -/
theorem turn_swing (hhead : w.head = el) :
    popTurn mode (w, .swing el h t rwptr n) =
      .again ({ w with head := (w.nodes h).next.ptr }, .commit el h t rwptr n) :=
  if_pos hhead

/-- The turn that writes the count of the new holders. -/
theorem turn_commit (hmkd : (w.nodes w.tail).next.mkd = true) :
    popTurn mode (w, .commit el h w.tail (w.nodes w.tail).next n) =
      .again ((w.setNext w.tail (.counted n ((w.nodes el).mode == WType.read) true
        ((w.nodes w.tail).next.epoch + 1))).setNext h (.toNode sentinel 0),
        .busyWaitOnEv el el) := by
  simp [popTurn, hmkd]

/-- The turn that reads the tail again when it has changed. -/
theorem turn_commit_stale (hstale : (w.nodes t).next ≠ rwptr) :
    popTurn mode (w, .commit el h t rwptr n) =
      .again (w, .commit el h w.tail (w.nodes w.tail).next n) := by
  simp [popTurn, hstale]

/-- Once the scan has stopped, the nodes are taken off.  In read mode, with one writer
waiting, the packed word changes twice. -/
theorem readers_detach (mode n : Nat) (htail : last ≠ w.tail) (hel : el ≠ w.tail) (hhead : w.head = el)
    (hstop : ¬ ((w.nodes el).mode = WType.read ∧
      (w.nodes (w.nodes last).next.ptr).mode = WType.read))
    (hsentinel : (w.nodes last).next.ptr ≠ sentinel)
    (hmkd : (w.nodes w.tail).next.mkd = true) :
    ∃ epoch, ∀ out : Except String ((ReadWriteWaiterList × PopAt) × Pointer),
      Returns (popTurn mode) (w, .readers el last w.tail (w.nodes w.tail).next n) out ↔
        Returns (popTurn mode)
          (w.detach last (.counted n ((w.nodes el).mode == WType.read) true epoch),
            .busyWaitOnEv el el) out := by
  have hscan : popTurn mode (w, .readers el last w.tail (w.nodes w.tail).next n) =
      .again (w, .convert el last w.tail (w.nodes w.tail).next n) := by
    simp only [popTurn]
    rw [if_neg fun hall => hstop ⟨hall.2.1, hall.2.2.2.1⟩, if_neg hsentinel]
  by_cases hconvert : w.tail = (w.nodes last).next.ptr ∧ (w.nodes el).mode = WType.write ∧
      (w.nodes w.tail).next.mode = true
  · -- the first commit finds a word that has changed, and reads it again
    let word := RWWaiterPtr.counted 1 false true ((w.nodes w.tail).next.epoch + 1)
    have hturn : popTurn mode (w, .convert el last w.tail (w.nodes w.tail).next n) =
        .again (w.setNext w.tail word, .swing el last w.tail (w.nodes w.tail).next n) := by
      simp [popTurn, hconvert.2, ← hconvert.1, word]
    have hword : word.mode = false := RWWaiterPtr.mode_of_word rfl
    have hmarked : word.mkd = true := RWWaiterPtr.mkd_of_word rfl
    have hchanged : word ≠ (w.nodes w.tail).next := by
      intro heq
      rw [heq, hconvert.2.2] at hword
      cases hword
    let w' : ReadWriteWaiterList :=
      { w with head := (w.nodes last).next.ptr }.setNext w.tail word
    have hnext : (w'.nodes w'.tail).next = word := by simp [w']
    have hmode : (w'.nodes el).mode = (w.nodes el).mode := by simp [w', hel]
    have hswing : popTurn mode
        (w.setNext w.tail word, .swing el last w.tail (w.nodes w.tail).next n) =
          .again (w', .commit el last w.tail (w.nodes w.tail).next n) := by
      simp [popTurn, hhead, htail, w']
      rfl
    have hstale : popTurn mode (w', .commit el last w.tail (w.nodes w.tail).next n) =
        .again (w', .commit el last w'.tail (w'.nodes w'.tail).next n) :=
      turn_commit_stale (ne_of_eq_of_ne hnext hchanged)
    have hcommit : popTurn mode (w', .commit el last w'.tail (w'.nodes w'.tail).next n) =
        .again (w.detach last (.counted n ((w.nodes el).mode == WType.read) true
          (word.epoch + 1)), .busyWaitOnEv el el) := by
      rw [turn_commit (by rw [hnext]; exact hmarked), hmode]
      exact congrArg (fun w => Turn.again (ReadWriteWaiterList.setNext w last _, _))
        (by rw [hnext]; exact setNext_setNext _ _ _ _)
    refine ⟨word.epoch + 1, fun out => ?_⟩
    rw [Returns.again_iff hscan, Returns.again_iff hturn, Returns.again_iff hswing,
      Returns.again_iff hstale, Returns.again_iff hcommit]
  · refine ⟨(w.nodes w.tail).next.epoch + 1, fun out => ?_⟩
    have hturn : popTurn mode (w, .convert el last w.tail (w.nodes w.tail).next n) =
        .again (w, .swing el last w.tail (w.nodes w.tail).next n) :=
      if_neg hconvert
    rw [Returns.again_iff hscan, Returns.again_iff hturn, Returns.again_iff (turn_swing hhead)]
    exact Returns.again_iff (turn_commit hmkd)

/-- The events of a chain that ends at the sentinel are all there. -/
theorem busyWaitOnEv_done (hseg : Segment (fun a b => (w.nodes a).next.word = b) h front last)
    (hnodes : ∀ a ∈ front ++ [last], IsNode a ∧ a ≠ sentinel ∧ (w.nodes a).val ≠ none)
    (hlast : (w.nodes last).next.ptr = sentinel) :
    Returns (popTurn mode) (w, .busyWaitOnEv el h)
      (.ok ((w, .busyWaitOnEv el sentinel), el)) := by
  induction front generalizing h with
  | nil =>
      have heq : h = last := hseg
      subst heq
      obtain ⟨hnode, hsentinel, hval⟩ := hnodes h (List.mem_singleton_self h)
      have hturn : popTurn mode (w, .busyWaitOnEv el h) =
          .again (w, .busyWaitOnEv el sentinel) := by
        simp [popTurn, hnode.ne_null, hsentinel, hval, hlast]
      exact Returns.again hturn (Returns.done (by simp [popTurn]))
  | cons a front ih =>
      obtain ⟨rfl, b, hlink, hrest⟩ := hseg
      obtain ⟨hnode, hsentinel, hval⟩ := hnodes h List.mem_cons_self
      have hptr : (w.nodes h).next.ptr = b := hlink
      have hturn : popTurn mode (w, .busyWaitOnEv el h) = .again (w, .busyWaitOnEv el b) := by
        simp [popTurn, hnode.ne_null, hsentinel, hval, hptr]
      exact Returns.again hturn (ih hrest fun c hc => hnodes c (List.mem_cons_of_mem _ hc))

/-- What a node holds that stands for an entry. -/
theorem exists_entry {nodes : List Pointer} {entries : List AtomicQueueEntry}
    (hitems : nodes.map (fun a => ((w.nodes a).val, (w.nodes a).mode)) =
      entries.map fun x => (some x.event, x.wtype)) {a : Pointer} (ha : a ∈ nodes) :
    ∃ x ∈ entries, (w.nodes a).val = some x.event ∧ (w.nodes a).mode = x.wtype := by
  have hmem : ((w.nodes a).val, (w.nodes a).mode) ∈
      entries.map fun x => (some x.event, x.wtype) := by
    rw [← hitems]
    exact List.mem_map_of_mem ha
  obtain ⟨x, hx, heq⟩ := List.mem_map.mp hmem
  simp only [Prod.mk.injEq] at heq
  exact ⟨x, hx, heq.1.symm, heq.2.symm⟩

/-- The nodes that a release takes off the list: a chain from the old first node to the
sentinel, which holds the first events. -/
structure Detached (w : ReadWriteWaiterList) (el last : Pointer) (front : List Pointer)
    (handed : List AtomicQueueEntry) : Prop where
  segment : Segment (fun a b => (w.nodes a).next.word = b) el front last
  nodes : ∀ a ∈ front ++ [last], IsNode a ∧ a ≠ sentinel
  items : (front ++ [last]).map (fun a => ((w.nodes a).val, (w.nodes a).mode)) =
    handed.map fun x => (some x.event, x.wtype)
  last : (w.nodes last).next.ptr = sentinel

/-- Inside the part handed over no link is marked. -/
theorem Detached.mkd_eq_false {handed : List AtomicQueueEntry}
    (h : w.Detached el last front handed) {a : Pointer} (ha : a ∈ front ++ [last]) :
    (w.nodes a).next.mkd = false := by
  apply RWWaiterPtr.mkd_of_node
  rcases List.mem_append.mp ha with hmem | hmem
  · obtain ⟨b, hb, hlink⟩ := h.segment.exists_link hmem
    have hword : (w.nodes a).next.word = b := hlink
    rw [hword]
    exact (h.nodes b hb).1
  · rw [List.mem_singleton.mp hmem]
    have hword : (w.nodes last).next.word = sentinel := h.last
    rw [hword]
    exact ⟨by decide, by decide⟩

/-- A list cut behind the nodes that a release takes off it. -/
structure Cut (w : ReadWriteWaiterList) (nodes front : List Pointer) (last : Pointer)
    (rest : List Pointer) (handed waiters : List AtomicQueueEntry) : Prop where
  nodes_eq : nodes = front ++ last :: rest
  segment : Segment (fun a b => (w.nodes a).next.word = b) w.head front last
  items : (front ++ [last]).map (fun a => ((w.nodes a).val, (w.nodes a).mode)) =
    handed.map fun x => (some x.event, x.wtype)
  queue : w.Queue (w.nodes last).next.word rest waiters

/-- The list can be cut behind any run at its front. -/
theorem Represents.exists_cut {x : AtomicQueueEntry}
    (h : w.Represents inUse nodes word (x :: run ++ waiters)) :
    ∃ front last rest, w.Cut nodes front last rest (x :: run) waiters := by
  have hqueue := h.queue
  simp only [Queue, List.map_append, List.map_cons] at hqueue
  obtain ⟨front, last, next, rest, hnodes, hseg, hitems, hlink, hrest⟩ := hqueue.popRun
  have hnext : (w.nodes last).next.word = next := hlink
  exact ⟨front, last, rest, hnodes, hseg, hitems, hnext ▸ hrest⟩

namespace Cut

variable {handed : List AtomicQueueEntry}

/-- The nodes handed over were on the list. -/
theorem mem_nodes (hcut : w.Cut nodes front last rest handed waiters) {a : Pointer}
    (ha : a ∈ front ++ [last]) : a ∈ nodes := by
  rw [hcut.nodes_eq]
  rcases List.mem_append.mp ha with hmem | hmem
  · exact List.mem_append_left _ hmem
  · rw [List.mem_singleton.mp hmem]
    simp

/-- The nodes that stay were on the list. -/
theorem mem_of_rest (hcut : w.Cut nodes front last rest handed waiters) {a : Pointer}
    (ha : a ∈ rest ++ [w.tail]) : a ∈ nodes ++ [w.tail] := by
  rw [hcut.nodes_eq, List.append_assoc]
  exact List.mem_append_right _ (List.mem_cons_of_mem _ ha)

/-- The two parts have no node in common. -/
theorem disjoint (hcut : w.Cut nodes front last rest handed waiters)
    (h : w.Represents inUse nodes word (handed ++ waiters)) :
    ∀ p ∈ rest ++ [w.tail], p ∉ front ++ [last] := by
  have hnodup := h.queue.nodup
  have hsplit : nodes ++ [w.tail] = (front ++ [last]) ++ (rest ++ [w.tail]) := by
    simp [hcut.nodes_eq]
  rw [hsplit, List.nodup_append] at hnodup
  exact fun p hp hmem => hnodup.2.2 p hmem p hp rfl

/-- The node behind the first part is not one of a reader unless a reader waits first. -/
theorem next_mode (hcut : w.Cut nodes front last rest handed waiters)
    (h : w.Represents inUse nodes word (handed ++ waiters))
    (hstop : ∀ y ∈ waiters.head?, y.wtype ≠ WType.read) :
    (w.nodes (w.nodes last).next.word).mode ≠ WType.read := by
  cases waiters with
  | nil =>
      have htail : (w.nodes last).next.word = w.tail := hcut.queue.head_eq_tail_iff.mpr rfl
      rw [htail, h.idle.2]
      decide
  | cons y waiters =>
      obtain ⟨next, rest', -, hitem, -, -⟩ := LinkedQueue.pop hcut.queue
      simp only [Prod.mk.injEq] at hitem
      rw [hitem.2]
      exact hstop y rfl

/-- Cutting the link leaves the front as a list of its own. -/
theorem detached (hcut : w.Cut nodes front last rest handed waiters)
    (h : w.Represents inUse nodes word (handed ++ waiters)) (next : RWWaiterPtr) :
    (w.detach last next).Detached w.head last front handed := by
  have htail : ∀ a ∈ front ++ [last], a ≠ w.tail := fun a ha => h.ne_tail a (hcut.mem_nodes ha)
  have hlast : ∀ a ∈ front, a ≠ last := by
    intro a ha heq
    have hnodup := h.queue.nodup
    rw [hcut.nodes_eq, List.append_assoc, List.nodup_append] at hnodup
    exact hnodup.2.2 a ha last List.mem_cons_self heq
  constructor
  · refine hcut.segment.congr fun a ha b hab => ?_
    simpa [detach, hlast a ha, htail a (List.mem_append_left _ ha)] using hab
  · intro a ha
    have hold := h.allocated a (List.mem_append_left _ (hcut.mem_nodes ha))
    exact ⟨hold.1, hold.2.2⟩
  · rw [← hcut.items]
    refine List.map_congr_left fun a ha => ?_
    by_cases heq : a = last
    · simp [detach, heq, htail last (by simp)]
    · simp [detach, heq, htail a ha]
  · simp [detach, RWWaiterPtr.toNode, RWWaiterPtr.ptr]

/-- Cutting the link leaves the rest as the list of waiters. -/
theorem represents (hcut : w.Cut nodes front last rest handed waiters)
    (h : w.Represents inUse nodes word (handed ++ waiters)) (next : RWWaiterPtr) :
    (w.detach last next).Represents inUse rest next.word waiters := by
  have hlast : ∀ a ∈ rest ++ [w.tail], a ≠ last := by
    intro a ha heq
    exact hcut.disjoint h a ha (heq ▸ List.mem_append_right _ (List.mem_singleton_self a))
  have htail : ∀ a ∈ rest, a ≠ w.tail := by
    intro a ha
    refine h.ne_tail a ?_
    rw [hcut.nodes_eq]
    exact List.mem_append_right _ (List.mem_cons_of_mem _ ha)
  constructor
  · refine hcut.queue.congr (fun a ha b hab => ?_) (fun a ha => ?_)
    · simpa [detach, hlast a (List.mem_append_left _ ha), htail a ha] using hab
    · simp [detach, hlast a (List.mem_append_left _ ha), htail a ha]
  · exact fun p hp => h.allocated p (hcut.mem_of_rest hp)
  · simpa [detach, hlast w.tail (by simp)] using h.idle
  · simp [detach, hlast w.tail (by simp)]

/-- The scan stops at the last one of the nodes that are taken off. -/
theorem scan {x : AtomicQueueEntry} (hcut : w.Cut nodes front last rest (x :: run) waiters)
    (h : w.Represents inUse nodes word (x :: run ++ waiters))
    (hrun : ∀ y ∈ run, x.wtype = WType.read ∧ y.wtype = WType.read)
    (out : Except String ((ReadWriteWaiterList × PopAt) × Pointer)) :
    Returns (popTurn mode) (w, .readers w.head w.head t rwptr 1) out ↔
      Returns (popTurn mode) (w, .readers w.head last t rwptr (1 + run.length)) out := by
  have hlength : front.length = run.length := by
    have hcount := congrArg List.length hcut.items
    simpa using hcount
  rw [← hlength]
  by_cases hread : x.wtype = WType.read
  · refine readers_scan hcut.segment (h.first_node.2.2.trans hread) (fun a ha => ?_) out
    have hold := h.allocated a (List.mem_append_left _ (hcut.mem_nodes ha))
    obtain ⟨y, hy, hval, hmode⟩ := exists_entry hcut.items ha
    have hyread : y.wtype = WType.read := by
      rcases List.mem_cons.mp hy with rfl | hmem
      · exact hread
      · exact (hrun y hmem).2
    exact ⟨hold.1, hold.2.2, by simp [hval], hmode.trans hyread,
      RWWaiterPtr.mkd_of_node (h.next_node (hcut.mem_nodes ha)).1⟩
  · -- a writer is taken off alone
    have hnil : run = [] := by
      rw [List.eq_nil_iff_forall_not_mem]
      exact fun y hy => hread (hrun y hy).1
    have hfront : front = [] := List.length_eq_zero_iff.mp (by rw [hlength, hnil]; rfl)
    subst hfront
    have heq : w.head = last := hcut.segment
    rw [heq]
    rfl

end Cut

/-- A release takes the first waiting event off the list and, when it reads, the readers
right behind it. -/
theorem Represents.pop_waiting {x : AtomicQueueEntry}
    (h : w.Represents inUse nodes (RWWaiterPtr.pack 1 md true) (x :: run ++ waiters))
    (hmode : (mode == WType.read) = md) (hx : x.wtype ≠ WType.none)
    (hrun : ∀ y ∈ run, x.wtype = WType.read ∧ y.wtype = WType.read)
    (hstop : x.wtype = WType.read → ∀ y ∈ waiters.head?, y.wtype ≠ WType.read) :
    ∃ w' at_ front last rest,
      Returns (popTurn mode) (w, .loop) (.ok ((w', at_), w.head)) ∧
      w'.Detached w.head last front (x :: run) ∧
      w'.Represents inUse rest
        (RWWaiterPtr.pack (1 + run.length) (x.wtype == WType.read) true) waiters ∧
      (∀ p ∈ rest ++ [w'.tail], p ∉ front ++ [last]) := by
  obtain ⟨front, last, rest, hcut⟩ := h.exists_cut
  obtain ⟨hhead, -, hfirst⟩ := h.first_node
  have hlast : last ∈ nodes := hcut.mem_nodes (by simp)
  have hscanned : ¬ ((w.nodes w.head).mode = WType.read ∧
      (w.nodes (w.nodes last).next.ptr).mode = WType.read) := by
    rintro ⟨hread, hnext⟩
    exact hcut.next_mode h (hstop (hfirst ▸ hread)) hnext
  obtain ⟨epoch, hdetach⟩ := readers_detach mode (1 + run.length)
    (h.ne_tail last hlast) (h.ne_tail _ hhead) rfl hscanned (h.next_node hlast).2
    (RWWaiterPtr.mkd_of_word h.word)
  simp only [hfirst] at hdetach
  have hdetached := hcut.detached h
    (.counted (1 + run.length) (x.wtype == WType.read) true epoch)
  have hrepresents := hcut.represents h
    (.counted (1 + run.length) (x.wtype == WType.read) true epoch)
  refine ⟨_, .busyWaitOnEv w.head sentinel, front, last, rest, ?_, hdetached, ?_,
    hcut.disjoint h⟩
  · rw [h.pop_start hmode hx, hcut.scan h hrun, hdetach]
    refine busyWaitOnEv_done hdetached.segment (fun a ha => ?_) hdetached.last
    obtain ⟨y, -, hval, -⟩ := exists_entry hdetached.items ha
    exact ⟨(hdetached.nodes a ha).1, (hdetached.nodes a ha).2, by simp [hval]⟩
  · exact hrepresents

/-- A release of a free list goes around for ever. -/
theorem Represents.not_pop_free (h : w.Represents inUse nodes 0 [])
    (out : Except String ((ReadWriteWaiterList × PopAt) × Pointer)) :
    ¬ Returns (popTurn mode) (w, .loop) out := by
  have hmkd := RWWaiterPtr.mkd_of_zero h.word
  exact not_returns_of_stuck (by simp [popTurn, hmkd]) out

/-- The walk from some node on. -/
theorem Represents.walk {p : Pointer} {items : List AtomicQueueEntry} (seen : List EventId)
    (hqueue : w.Queue p rest items)
    (hnodes : ∀ q ∈ rest, IsNode q ∧ IsNode (w.nodes q).next.word)
    (hlast : (w.nodes w.tail).next.ptr = null ∨ (w.nodes w.tail).next.mkd = true) :
    Returns w.walkTurn (p, seen)
      (.ok ((w.tail, seen ++ items.map AtomicQueueEntry.event),
        seen ++ items.map AtomicQueueEntry.event)) := by
  induction items generalizing p rest seen with
  | nil =>
      have heq : p = w.tail := hqueue.head_eq_tail_iff.mpr rfl
      subst heq
      apply Returns.done
      rw [walkTurn, if_pos (Or.inr hlast)]
      simp
  | cons x items ih =>
      obtain ⟨next, rest', rfl, hitem, hlink, hrest⟩ := LinkedQueue.pop hqueue
      simp only [Prod.mk.injEq] at hitem
      obtain ⟨hnode, hnext⟩ := hnodes p List.mem_cons_self
      have hptr : (w.nodes p).next.ptr = next := hlink
      have hnull : next ≠ null := hptr ▸ hnext.ne_null
      have hturn : w.walkTurn (p, seen) = .again (next, seen ++ [x.event]) := by
        simp [walkTurn, hnode.ne_null, hptr, hnull, RWWaiterPtr.mkd_of_node hnext, hitem.1]
      have hmore := ih (seen ++ [x.event]) hrest fun q hq => hnodes q (List.mem_cons_of_mem _ hq)
      rw [List.append_assoc, List.singleton_append] at hmore
      exact Returns.again hturn hmore

/-- The packed word of an atomic with that many holders. -/
def wordOf (held : Nat) (readMode : Bool) : Nat :=
  if held = 0 then 0 else RWWaiterPtr.pack held readMode true

/-- The walk meets exactly the events that wait. -/
theorem Represents.waiting_iff (h : w.Represents inUse nodes (wordOf rc md) waiters)
    {evs : List EventId} : w.Waiting evs ↔ evs = waiters.map AtomicQueueEntry.event := by
  have hlast : (w.nodes w.tail).next.ptr = null ∨ (w.nodes w.tail).next.mkd = true := by
    have hword := h.word
    unfold wordOf at hword
    split at hword
    · exact .inl hword
    · exact .inr (RWWaiterPtr.mkd_of_word hword)
  have hwalk := walk [] h.queue
    (fun q hq => ⟨(h.allocated q (List.mem_append_left _ hq)).1, (h.next_node hq).1⟩) hlast
  constructor
  · rintro ⟨p, hreturns⟩
    have heq := hreturns.unique hwalk
    simp only [Except.ok.injEq, Prod.mk.injEq, List.nil_append] at heq
    exact heq.2
  · rintro rfl
    exact ⟨_, hwalk⟩

/-- The count that the list reports is the number of holders. -/
theorem Represents.rcount_iff (h : w.Represents inUse nodes (wordOf rc md) waiters)
    (hfree : rc = 0 → waiters = []) {held : Nat} : w.Rcount held ↔ held = rc := by
  have hreturns : Returns w.rcountTurn () (.ok ((), rc)) := by
    apply Returns.done
    have hword := h.word
    unfold wordOf at hword
    split at hword
    next hzero =>
      have hnil := hfree hzero
      subst hnil
      simp [rcountTurn, h.head_eq_tail, RWWaiterPtr.mkd_of_zero hword, hzero]
    next => simp [rcountTurn, RWWaiterPtr.mkd_of_word hword, RWWaiterPtr.rcount_of_word hword]
  constructor
  · intro hcount
    have heq := Returns.unique hcount hreturns
    simpa using heq
  · rintro rfl
    exact hreturns

end ReadWriteWaiterList

/-! ## Calls on an atomic -/

namespace AtomicReadWrite

/-- The requests without upgradeable ones. -/
inductive Request where
  | read
  | write
deriving DecidableEq

/-- The wtype of a request. -/
def Request.wtype : Request → Nat
  | .read => WType.read
  | .write => WType.write

/-- A call on a read-write atomic. -/
inductive Call where
  | acquireOrWait (ev : EventId) (request : Request)
  | release

/-- What a call answers, and what the atomic says afterwards. -/
structure Answer where
  granted : Bool := false
  handed : List EventId := []
  held : Nat
  waiting : List EventId

/-- The loop of {lit}`release` over the nodes taken off the list. -/
structure ReleaseLoop where
  e : Pointer
  wtype : Nat
  inUse : List Pointer
  handed : List EventId := []

end AtomicReadWrite

/-- The waiter list, the mode of the last grant and the nodes that the allocator has given
out. -/
structure AtomicReadWrite (D : Type) where
  data : Option D
  waiters : ReadWriteWaiterList
  wtype : Nat := WType.none
  inUse : List Pointer

namespace AtomicReadWrite

variable {D : Type}

/-- The constructor: one node with a zero link. -/
def Initial (atom : AtomicReadWrite D) : Prop :=
  ∃ dummy, IsNode dummy ∧ dummy ≠ sentinel ∧ atom.inUse = [dummy] ∧
    atom.waiters.head = dummy ∧ atom.waiters.tail = dummy ∧ atom.waiters.nodes dummy = {} ∧
    atom.wtype = WType.none

/-- The mode an upgradeable request resolves to: reading where there is data. -/
def localWtype (atom : AtomicReadWrite D) (wtype : Nat) : Nat :=
  if wtype = WType.upgradeable then
    if atom.data.isSome then WType.read else WType.write
  else wtype

/-- The end of a request: a node that is not needed goes back to the allocator. -/
def afterPush (atom : AtomicReadWrite D) (wtype : Nat) (e : Pointer)
    (w : ReadWriteWaiterList) : Bool → AtomicReadWrite D
  | true => { atom with waiters := w, wtype := atom.localWtype wtype }
  | false => { atom with waiters := w, inUse := e :: atom.inUse }

/-- A request with a new node. -/
def AcquireOrWait (atom : AtomicReadWrite D) (ev : EventId) (wtype : Nat)
    (out : Except String (AtomicReadWrite D × Bool)) : Prop :=
  ∃ e pushed, IsNode e ∧ e ≠ sentinel ∧ e ∉ atom.inUse ∧
    (atom.waiters.modify e fun _ =>
      { val := some ev, mode := atom.localWtype wtype }).Push e pushed ∧
    match pushed with
    | .error assertion => out = .error assertion
    | .ok (w, granted) => out = .ok (atom.afterPush wtype e w granted, granted)

/-- One turn of the loop of {lit}`release`. -/
def releaseTurn (w : ReadWriteWaiterList) (s : ReleaseLoop) : Turn String ReleaseLoop Unit :=
  if s.e = null ∨ s.e = sentinel then .done s ()
  else if (w.nodes s.e).next.mkd = true then
    .fail "rw atom should not have released a marked ebh"
  else
    .again { e := (w.nodes s.e).next.ptr, wtype := (w.nodes s.e).mode,
             inUse := s.inUse.erase s.e, handed := s.handed ++ (w.nodes s.e).val.toList }

/-- A release hands back the events of the nodes that it takes off the list. -/
def Release (atom : AtomicReadWrite D) (out : Except String (AtomicReadWrite D × List EventId)) :
    Prop :=
  ∃ popped, Returns (ReadWriteWaiterList.popTurn atom.wtype) (atom.waiters, .loop) popped ∧
    match popped with
    | .error assertion => out = .error assertion
    | .ok ((w, _), el) =>
        ∃ ended, Returns (releaseTurn w) { e := el, wtype := atom.wtype, inUse := atom.inUse }
            ended ∧
          match ended with
          | .error assertion => out = .error assertion
          | .ok (s, ()) =>
              out = .ok ({ atom with waiters := w, wtype := s.wtype, inUse := s.inUse }, s.handed)

/-- The calls on the lock-free atomic that return. -/
def lockfree (D : Type) : Machine (AtomicReadWrite D) Call Answer where
  init := Initial
  call atom call answer atom' :=
    atom'.waiters.Waiting answer.waiting ∧ atom'.waiters.Rcount answer.held ∧
      match call with
      | .acquireOrWait ev request =>
          atom.AcquireOrWait ev request.wtype (.ok (atom', answer.granted)) ∧ answer.handed = []
      | .release => atom.Release (.ok (atom', answer.handed)) ∧ answer.granted = false

/-- The calls on which an assertion fails. -/
def Fails (atom : AtomicReadWrite D) (assertion : String) : Call → Prop
  | .acquireOrWait ev request => atom.AcquireOrWait ev request.wtype (.error assertion)
  | .release => atom.Release (.error assertion)

/-- The calls on the classic atomic, which only its holders release. -/
def classic (D : Type) : Machine (Guards.AtomicReadWrite D) Call Answer where
  init atom := ∃ data, atom = { data := data }
  call atom call answer atom' :=
    answer.waiting = atom'.waiters.map AtomicQueueEntry.event ∧ answer.held = atom'.held ∧
      match call with
      | .acquireOrWait ev request =>
          atom.acquireOrWait ev request.wtype = (atom', answer.granted) ∧ answer.handed = []
      | .release =>
          atom.held ≠ 0 ∧ atom.release = (atom', answer.handed) ∧ answer.granted = false

/-! ### The loop of a release -/

variable {w : ReadWriteWaiterList} {el last : Pointer} {front : List Pointer}
  {handed : List AtomicQueueEntry} {s : ReleaseLoop}

/-- The walk over the events handed over ends at the sentinel. -/
theorem releaseTurn_end (h : s.e = null ∨ s.e = sentinel) :
    Returns (releaseTurn w) s (.ok (s, ())) :=
  Returns.done (if_pos h)

/-- The loop hands back the events of the chain, in its order. -/
theorem releaseTurn_chain
    (hseg : Segment (fun a b => (w.nodes a).next.word = b) s.e front last)
    (hnodes : ∀ a ∈ front ++ [last], IsNode a ∧ a ≠ sentinel ∧ (w.nodes a).next.mkd = false)
    (hitems : (front ++ [last]).map (fun a => ((w.nodes a).val, (w.nodes a).mode)) =
      handed.map fun x => (some x.event, x.wtype))
    (hlast : (w.nodes last).next.ptr = sentinel) :
    ∃ s', Returns (releaseTurn w) s (.ok (s', ())) ∧
      s'.handed = s.handed ++ handed.map AtomicQueueEntry.event ∧
      s'.wtype = (w.nodes last).mode ∧
      ∀ p ∈ s.inUse, p ∉ front ++ [last] → p ∈ s'.inUse := by
  induction front generalizing s handed with
  | nil =>
      have heq : s.e = last := hseg
      obtain ⟨hnode, hsentinel, hmkd⟩ := hnodes last (List.mem_singleton_self last)
      obtain ⟨x, hx, hval, -⟩ := ReadWriteWaiterList.exists_entry hitems
        (List.mem_singleton_self last)
      have hhanded : handed = [x] := by
        have hlength := congrArg List.length hitems
        simp only [List.nil_append, List.map_cons, List.map_nil, List.length_cons,
          List.length_nil, List.length_map, zero_add] at hlength
        obtain ⟨y, rfl⟩ := List.length_eq_one_iff.mp hlength.symm
        rw [List.mem_singleton.mp hx]
      refine ⟨{ e := sentinel, wtype := (w.nodes last).mode,
                inUse := s.inUse.erase last, handed := s.handed ++ [x.event] },
        ?_, ?_, rfl, ?_⟩
      · refine Returns.again ?_ (releaseTurn_end (Or.inr rfl))
        simp [releaseTurn, heq, hnode.ne_null, hsentinel, hmkd, hlast, hval]
      · rw [hhanded]
        rfl
      · intro p hp hne
        exact (List.mem_erase_of_ne (by simpa using hne)).mpr hp
  | cons a front ih =>
      obtain ⟨ha, b, hlink, hrest⟩ := hseg
      subst ha
      obtain ⟨hnode, hsentinel, hmkd⟩ := hnodes s.e List.mem_cons_self
      cases handed with
      | nil => cases hitems
      | cons x handed =>
          simp only [List.cons_append, List.map_cons, List.cons.injEq, Prod.mk.injEq] at hitems
          have hptr : (w.nodes s.e).next.ptr = b := hlink
          let s₁ : ReleaseLoop :=
            { e := b, wtype := x.wtype, inUse := s.inUse.erase s.e,
              handed := s.handed ++ [x.event] }
          have hrest₁ : Segment (fun a b => (w.nodes a).next.word = b) s₁.e front last := hrest
          obtain ⟨s', hreturns, hhanded, hwtype, hinUse⟩ :=
            ih hrest₁ (fun c hc => hnodes c (List.mem_cons_of_mem _ hc)) hitems.2
          refine ⟨s', Returns.again ?_ hreturns, ?_, hwtype, ?_⟩
          · simp [releaseTurn, hnode.ne_null, hsentinel, hmkd, hptr, hitems.1.1, hitems.1.2, s₁]
          · simp [hhanded, s₁]
          · intro p hp hne
            simp only [List.cons_append, List.mem_cons, not_or] at hne
            exact hinUse p ((List.mem_erase_of_ne hne.1).mpr hp) hne.2

/-! ### What the atomic represents -/

/-- A lock-free atomic with that many holders, the mode of its packed word and the waiting
events. -/
def Represents (atom : AtomicReadWrite D) (held : Nat) (readMode : Bool)
    (waiters : List AtomicQueueEntry) : Prop :=
  ∃ nodes, atom.waiters.Represents atom.inUse nodes
    (ReadWriteWaiterList.wordOf held readMode) waiters

namespace Represents

variable {atom atom' : AtomicReadWrite D} {held : Nat} {readMode : Bool} {ev : EventId}
  {wtype : Nat} {waiters run : List AtomicQueueEntry}
  {pushed : Except String (AtomicReadWrite D × Bool)}
  {released : Except String (AtomicReadWrite D × List EventId)}

/-- The waiter list with a new node whose event has been taken out. -/
def taken (atom : AtomicReadWrite D) (ev : EventId) (wtype : Nat) (e : Pointer) :
    ReadWriteWaiterList :=
  (atom.waiters.modify e fun _ => { val := some ev, mode := atom.localWtype wtype }).modify e
    fun x => { x with val := none, mode := WType.none }

/-- What a push of any new node comes to is what the request comes to. -/
theorem acquire_of_push (granted : Bool) (P : AtomicReadWrite D → Prop)
    (hpush : ∀ e, IsNode e → e ≠ sentinel → e ∉ atom.inUse → ∃ w,
      ReadWriteWaiterList.pushTurn e (some ev) (atom.localWtype wtype) (taken atom ev wtype e) =
        .done w granted ∧ P (atom.afterPush wtype e w granted)) :
    (∃ atom', atom.AcquireOrWait ev wtype (.ok (atom', granted))) ∧
      ∀ out, atom.AcquireOrWait ev wtype out → ∃ atom', out = .ok (atom', granted) ∧ P atom' := by
  have hreturns : ∀ e w, ReadWriteWaiterList.pushTurn e (some ev) (atom.localWtype wtype)
      (taken atom ev wtype e) = .done w granted →
      (atom.waiters.modify e fun _ => { val := some ev, mode := atom.localWtype wtype }).Push e
        (.ok (w, granted)) := by
    intro e w hturn
    simpa [ReadWriteWaiterList.Push, taken] using Returns.done hturn
  constructor
  · obtain ⟨e, hnode, hfresh⟩ := IsNode.exists_fresh (sentinel :: atom.inUse)
    simp only [List.mem_cons, not_or] at hfresh
    obtain ⟨w, hturn, -⟩ := hpush e hnode hfresh.1 hfresh.2
    exact ⟨atom.afterPush wtype e w granted, e, _, hnode, hfresh.1, hfresh.2,
      hreturns e w hturn, rfl⟩
  · rintro out ⟨e, pushed, hnode, hsentinel, hfresh, hcall, hout⟩
    obtain ⟨w, hturn, hP⟩ := hpush e hnode hsentinel hfresh
    have heq := Returns.unique hcall (hreturns e w hturn)
    subst heq
    exact ⟨_, hout, hP⟩

/-- Taking a fresh node leaves the list as it is. -/
theorem taken_represents (ev : EventId) (wtype : Nat) {nodes : List Pointer} {word : Nat} {e : Pointer}
    (h : atom.waiters.Represents atom.inUse nodes word waiters) (hfresh : e ∉ atom.inUse) :
    (taken atom ev wtype e).Represents atom.inUse nodes word waiters ∧
      ((taken atom ev wtype e).nodes e).val = none ∧
      ((taken atom ev wtype e).nodes e).mode = WType.none :=
  ⟨(h.modify_fresh hfresh _).modify_fresh hfresh _, by simp [taken], by simp [taken]⟩

/-- A request on a free atomic is granted. -/
theorem acquire_free (h : atom.Represents 0 readMode []) (ev : EventId) (wtype : Nat) :
    (∃ atom', atom.AcquireOrWait ev wtype (.ok (atom', true))) ∧
      ∀ out, atom.AcquireOrWait ev wtype out → ∃ atom', out = .ok (atom', true) ∧
        atom'.wtype = atom.localWtype wtype ∧ atom'.data = atom.data ∧
        atom'.Represents 1 (atom.localWtype wtype == WType.read) [] := by
  obtain ⟨nodes, h⟩ := h
  apply acquire_of_push
  intro e hnode hsentinel hfresh
  obtain ⟨htaken, hval, -⟩ := taken_represents ev wtype h hfresh
  obtain ⟨w, hturn, hw⟩ := htaken.push_free hfresh hval (some ev)
  exact ⟨w, hturn, rfl, rfl, nodes, hw⟩

/-- A read request joins readers for which nobody waits. -/
theorem acquire_join (h : atom.Represents held true []) (hheld : held ≠ 0) (ev : EventId)
    (hread : atom.localWtype wtype = WType.read) :
    (∃ atom', atom.AcquireOrWait ev wtype (.ok (atom', true))) ∧
      ∀ out, atom.AcquireOrWait ev wtype out → ∃ atom', out = .ok (atom', true) ∧
        atom'.wtype = atom.localWtype wtype ∧ atom'.data = atom.data ∧
        atom'.Represents (held + 1) true [] := by
  obtain ⟨nodes, h⟩ := h
  rw [ReadWriteWaiterList.wordOf, if_neg hheld] at h
  apply acquire_of_push
  intro e hnode hsentinel hfresh
  obtain ⟨htaken, hval, -⟩ := taken_represents ev wtype h hfresh
  obtain ⟨w, hturn, hw⟩ := htaken.push_join hfresh hval hread (some ev)
  exact ⟨w, hturn, rfl, rfl, nodes, hw⟩

/-- Other requests on a held atomic wait. -/
theorem acquire_wait (h : atom.Represents held readMode waiters) (hheld : held ≠ 0)
    (ev : EventId)
    (hjoin : ¬ (waiters = [] ∧ readMode = true ∧ atom.localWtype wtype = WType.read)) :
    (∃ atom', atom.AcquireOrWait ev wtype (.ok (atom', false))) ∧
      ∀ out, atom.AcquireOrWait ev wtype out → ∃ atom', out = .ok (atom', false) ∧
        atom'.wtype = atom.wtype ∧ atom'.data = atom.data ∧
        atom'.Represents held readMode (waiters ++ [⟨ev, atom.localWtype wtype⟩]) := by
  obtain ⟨nodes, h⟩ := h
  rw [ReadWriteWaiterList.wordOf, if_neg hheld] at h
  apply acquire_of_push
  intro e hnode hsentinel hfresh
  obtain ⟨htaken, hidle⟩ := taken_represents ev wtype h hfresh
  obtain ⟨w, hturn, hw⟩ := htaken.push_wait hnode hfresh hsentinel hidle hjoin ev
  refine ⟨w, hturn, rfl, rfl, nodes ++ [atom.waiters.tail], ?_⟩
  rw [ReadWriteWaiterList.wordOf, if_neg hheld]
  exact hw

/-- A release that takes no node off the list. -/
theorem release_of_pop {w : ReadWriteWaiterList} {at_ : ReadWriteWaiterList.PopAt}
    (hpop : Returns (ReadWriteWaiterList.popTurn atom.wtype) (atom.waiters, .loop)
      (.ok ((w, at_), null)))
    (out : Except String (AtomicReadWrite D × List EventId)) :
    atom.Release out ↔ out = .ok ({ atom with waiters := w }, []) := by
  have hend : Returns (releaseTurn w) { e := null, wtype := atom.wtype, inUse := atom.inUse } _ :=
    releaseTurn_end (Or.inl rfl)
  constructor
  · rintro ⟨popped, hpopped, hout⟩
    have heq := hpopped.unique hpop
    subst heq
    obtain ⟨ended, hended, hout⟩ := hout
    have heq := hended.unique hend
    subst heq
    exact hout
  · rintro rfl
    exact ⟨_, hpop, _, hend, rfl⟩

/-- The last holder frees an atomic for which nobody waits; its mode stays behind. -/
theorem release_free (h : atom.Represents 1 readMode [])
    (hmode : (atom.wtype == WType.read) = readMode) :
    ∃ atom', (∀ out, atom.Release out ↔ out = .ok (atom', [])) ∧ atom'.wtype = atom.wtype ∧
      atom'.data = atom.data ∧ atom'.Represents 0 false [] := by
  obtain ⟨nodes, h⟩ := h
  obtain ⟨w, at_, hpop, hw⟩ := h.pop_free hmode
  exact ⟨_, release_of_pop hpop, rfl, rfl, nodes, hw⟩

/-- A release by one of several holders hands nothing over. -/
theorem release_others (h : atom.Represents held readMode waiters)
    (hmode : (atom.wtype == WType.read) = readMode) (hothers : 1 < held) :
    ∃ atom', (∀ out, atom.Release out ↔ out = .ok (atom', [])) ∧ atom'.wtype = atom.wtype ∧
      atom'.data = atom.data ∧ atom'.Represents (held - 1) readMode waiters := by
  obtain ⟨nodes, h⟩ := h
  have hheld : held ≠ 0 := by omega
  have hleft : held - 1 ≠ 0 := by omega
  rw [ReadWriteWaiterList.wordOf, if_neg hheld] at h
  obtain ⟨w, at_, hpop, hw⟩ := h.pop_others hmode hothers
  refine ⟨_, release_of_pop hpop, rfl, rfl, nodes, ?_⟩
  rw [ReadWriteWaiterList.wordOf, if_neg hleft]
  exact hw

/-- The last holder hands over to the first waiting event and, when that one reads, to
the readers right behind it. -/
theorem release_waiting {x : AtomicQueueEntry} (h : atom.Represents 1 readMode (x :: run ++ waiters))
    (hmode : (atom.wtype == WType.read) = readMode) (hx : x.wtype ≠ WType.none)
    (hrun : ∀ y ∈ run, x.wtype = WType.read ∧ y.wtype = WType.read)
    (hstop : x.wtype = WType.read → ∀ y ∈ waiters.head?, y.wtype ≠ WType.read) :
    ∃ atom', (∀ out, atom.Release out ↔
        out = .ok (atom', (x :: run).map AtomicQueueEntry.event)) ∧
      atom'.wtype = x.wtype ∧ atom'.data = atom.data ∧
      atom'.Represents (1 + run.length) (x.wtype == WType.read) waiters := by
  obtain ⟨nodes, h⟩ := h
  obtain ⟨w, at_, front, last, rest, hpop, hdetached, hw, hdisjoint⟩ :=
    h.pop_waiting hmode hx hrun hstop
  let start : ReleaseLoop :=
    { e := atom.waiters.head, wtype := atom.wtype, inUse := atom.inUse }
  have hseg : Segment (fun a b => (w.nodes a).next.word = b) start.e front last :=
    hdetached.segment
  obtain ⟨s, hended, hhanded, hwtype, hinUse⟩ := releaseTurn_chain hseg
    (fun a ha => ⟨(hdetached.nodes a ha).1, (hdetached.nodes a ha).2, hdetached.mkd_eq_false ha⟩)
    hdetached.items hdetached.last
  have hmodes : (w.nodes last).mode = x.wtype := by
    obtain ⟨y, hy, -, hlast⟩ := ReadWriteWaiterList.exists_entry hdetached.items
      (List.mem_append_right front (List.mem_singleton_self last))
    rcases List.mem_cons.mp hy with rfl | hmem
    · exact hlast
    · rw [hlast, (hrun y hmem).1, (hrun y hmem).2]
  have hevents : s.handed = (x :: run).map AtomicQueueEntry.event := hhanded
  refine ⟨{ atom with waiters := w, wtype := s.wtype, inUse := s.inUse }, fun out => ?_,
    hwtype.trans hmodes, rfl, rest, ?_⟩
  · rw [← hevents]
    constructor
    · rintro ⟨popped, hpopped, hout⟩
      have heq := hpopped.unique hpop
      subst heq
      obtain ⟨ended, hended', hout⟩ := hout
      have heq := hended'.unique hended
      subst heq
      exact hout
    · rintro rfl
      exact ⟨_, hpop, _, hended, rfl⟩
  · have hword : ReadWriteWaiterList.wordOf (1 + run.length) (x.wtype == WType.read) =
        RWWaiterPtr.pack (1 + run.length) (x.wtype == WType.read) true :=
      if_neg (by omega)
    rw [hword]
    exact hw.congr rfl rfl (fun _ _ => rfl) hw.idle hw.word
      fun p hp hmem => hinUse p hmem (hdisjoint p hp)

/-- A release of a free atomic goes around for ever. -/
theorem not_release_free (h : atom.Represents 0 readMode [])
    (out : Except String (AtomicReadWrite D × List EventId)) : ¬ atom.Release out := by
  obtain ⟨nodes, h⟩ := h
  rintro ⟨popped, hpopped, -⟩
  exact h.not_pop_free popped hpopped

end Represents

/-! ## The classic atomic -/

/-- A request reads or writes. -/
theorem Request.cases (request : Request) :
    request.wtype = WType.read ∨ request.wtype = WType.write := by
  cases request with
  | read => exact .inl rfl
  | write => exact .inr rfl

/-- A request always has a mode. -/
theorem Request.ne_none (request : Request) : request.wtype ≠ WType.none := by
  cases request <;> decide

/-- The mode of a request needs no resolving. -/
theorem localWtype_request (atom : AtomicReadWrite D) (request : Request) :
    atom.localWtype request.wtype = request.wtype := by
  cases request <;> rfl

/-- The lock-free atomic represents the state of the classic one.  While the atomic is
held both say the same mode. -/
structure Refines (atom : AtomicReadWrite D) (spec : Guards.AtomicReadWrite D) : Prop where
  represents : atom.Represents spec.held (spec.mode == WType.read) spec.waiters
  free : spec.held = 0 → spec.waiters = [] ∧ spec.mode = WType.none
  mode : spec.held ≠ 0 → atom.wtype = spec.mode ∧ spec.mode ≠ WType.none
  requests : ∀ x ∈ spec.waiters, x.wtype = WType.read ∨ x.wtype = WType.write

namespace Refines

variable {atom atom' : AtomicReadWrite D} {spec : Guards.AtomicReadWrite D} {ev : EventId}
  {request : Request}

theorem initial (hatom : atom.Initial) (hspec : (classic D).init spec) : Refines atom spec := by
  obtain ⟨data, rfl⟩ := hspec
  obtain ⟨dummy, hnode, hsentinel, hinUse, hhead, htail, hdummy, hwtype⟩ := hatom
  refine ⟨⟨[], ?_, ?_, ?_, ?_⟩, fun _ => ⟨rfl, rfl⟩, fun hne => absurd rfl hne, by simp⟩
  · rw [hhead, ReadWriteWaiterList.Queue, htail]
    exact LinkedQueue.empty _ _ dummy
  · simp [htail, hinUse, hnode, hsentinel]
  · simp [htail, hdummy]
  · rw [htail, hdummy]
    rfl

/-- Without upgradeable requests only readers join readers. -/
theorem joinsReaders_eq {wtype : Nat} (h : wtype = WType.read ∨ wtype = WType.write) :
    spec.joinsReaders wtype = (wtype == WType.read) := by
  rcases h with rfl | rfl <;>
    simp [Guards.AtomicReadWrite.joinsReaders, WType.read, WType.write, WType.upgradeable]

/-- A call returns, and answers as the classic atomic does. -/
theorem acquireOrWait (h : Refines atom spec) (ev : EventId) (request : Request) :
    (∃ atom', atom.AcquireOrWait ev request.wtype
      (.ok (atom', (spec.acquireOrWait ev request.wtype).2))) ∧
    ∀ out, atom.AcquireOrWait ev request.wtype out →
      ∃ atom', out = .ok (atom', (spec.acquireOrWait ev request.wtype).2) ∧
        (spec.acquireOrWait ev request.wtype).1.held ≠ 0 ∧
        Refines atom' (spec.acquireOrWait ev request.wtype).1 := by
  have hlocal := atom.localWtype_request request
  by_cases hfree : spec.held = 0
  · have hrepr := h.represents
    rw [hfree, (h.free hfree).1] at hrepr
    obtain ⟨hexists, hall⟩ := hrepr.acquire_free ev request.wtype
    have hgrant : spec.acquireOrWait ev request.wtype =
        ({ spec with held := 1, mode := request.wtype }, true) := by
      rw [Guards.AtomicReadWrite.acquireOrWait, if_pos hfree]
    rw [hgrant]
    refine ⟨hexists, fun out hout => ?_⟩
    obtain ⟨atom', rfl, hwtype, -, hafter⟩ := hall out hout
    rw [hlocal] at hwtype hafter
    refine ⟨atom', rfl, by simp, ?_, by simp, fun _ => ⟨hwtype, request.ne_none⟩, h.requests⟩
    simpa [(h.free hfree).1] using hafter
  · rw [Guards.AtomicReadWrite.acquireOrWait_of_held hfree, joinsReaders_eq request.cases]
    obtain ⟨hwtype, hmode⟩ := h.mode hfree
    split
    next hjoin =>
      obtain ⟨hread, hnil, hrequest⟩ := hjoin
      have hrepr := h.represents
      rw [hread, hnil, beq_self_eq_true] at hrepr
      have hlocalRead : atom.localWtype request.wtype = WType.read := by
        rw [hlocal]
        exact eq_of_beq hrequest
      obtain ⟨hexists, hall⟩ := hrepr.acquire_join hfree ev hlocalRead
      refine ⟨hexists, fun out hout => ?_⟩
      obtain ⟨atom', rfl, hwtype', -, hafter⟩ := hall out hout
      refine ⟨atom', rfl, by simp, ?_, by simp,
        fun _ => ⟨hwtype'.trans (hlocalRead.trans hread.symm), hmode⟩, h.requests⟩
      simpa [hread, hnil] using hafter
    next hjoin =>
      have hwait : ¬ (spec.waiters = [] ∧ (spec.mode == WType.read) = true ∧
          atom.localWtype request.wtype = WType.read) := by
        rintro ⟨hnil, hread, hrequest⟩
        exact hjoin ⟨eq_of_beq hread, hnil, beq_iff_eq.mpr (hlocal ▸ hrequest)⟩
      obtain ⟨hexists, hall⟩ := h.represents.acquire_wait hfree ev hwait
      refine ⟨hexists, fun out hout => ?_⟩
      obtain ⟨atom', rfl, hwtype', -, hafter⟩ := hall out hout
      rw [hlocal] at hafter
      refine ⟨atom', rfl, hfree, hafter, fun hzero => absurd hzero hfree,
        fun _ => ⟨hwtype'.trans hwtype, hmode⟩, ?_⟩
      intro x hx
      rcases List.mem_append.mp hx with hold | hnew
      · exact h.requests x hold
      · rw [List.mem_singleton.mp hnew]
        exact request.cases

/-- The readers right behind a reader, and the others. -/
theorem takeWhile_readers (h : Refines atom spec) {x : AtomicQueueEntry}
    {rest : List AtomicQueueEntry} (hwaiters : spec.waiters = x :: rest) :
    (rest.takeWhile fun y => spec.joinsReaders y.wtype) =
        rest.takeWhile (fun y => y.wtype == WType.read) ∧
      (rest.dropWhile fun y => spec.joinsReaders y.wtype) =
        rest.dropWhile (fun y => y.wtype == WType.read) := by
  have hall : ∀ y ∈ rest, spec.joinsReaders y.wtype = (y.wtype == WType.read) := by
    intro y hy
    apply joinsReaders_eq
    exact h.requests y (hwaiters ▸ List.mem_cons_of_mem _ hy)
  clear hwaiters
  induction rest with
  | nil => simp
  | cons y rest ih =>
      have hrest := ih fun z hz => hall z (List.mem_cons_of_mem _ hz)
      simp [List.takeWhile_cons, List.dropWhile_cons, hall y List.mem_cons_self, hrest]

/-- A release returns, and hands over as the classic atomic does. -/
theorem release (h : Refines atom spec) (hheld : spec.held ≠ 0) :
    ∃ atom', (∀ out, atom.Release out ↔ out = .ok (atom', spec.release.2)) ∧
      Refines atom' spec.release.1 ∧
      (atom'.wtype = spec.release.1.mode ↔ ¬ (spec.held = 1 ∧ spec.waiters = [])) := by
  obtain ⟨hwtype, hmode⟩ := h.mode hheld
  have hmatch : (atom.wtype == WType.read) = (spec.mode == WType.read) := by rw [hwtype]
  have hrepr := h.represents
  by_cases hlast : spec.held - 1 = 0
  · have hone : spec.held = 1 := by omega
    rw [hone] at hrepr
    cases hwaiters : spec.waiters with
    | nil =>
        rw [hwaiters] at hrepr
        rw [Guards.AtomicReadWrite.release_of_no_waiters hlast hwaiters]
        obtain ⟨atom', hrelease, hwtype', -, hafter⟩ := hrepr.release_free hmatch
        refine ⟨atom', hrelease, ⟨?_, fun _ => ⟨hwaiters, rfl⟩, fun hne => absurd rfl hne,
          h.requests⟩, ?_⟩
        · simpa [hwaiters, WType.none, WType.read] using hafter
        · simp [hwtype', hwtype, hmode, hone]
    | cons x rest =>
        rw [hwaiters] at hrepr
        have hx := h.requests x (by simp [hwaiters])
        have hxnone : x.wtype ≠ WType.none := by
          rcases hx with hx | hx <;> rw [hx] <;> decide
        obtain ⟨hrun, hleft⟩ := h.takeWhile_readers hwaiters
        by_cases hread : x.wtype = WType.read
        · rw [Guards.AtomicReadWrite.release_of_reader hlast hwaiters hread, hrun, hleft]
          have hsplit : x :: rest = x :: rest.takeWhile (fun y => y.wtype == WType.read) ++
              rest.dropWhile (fun y => y.wtype == WType.read) := by simp
          have hnext := List.head?_dropWhile_not (fun y => y.wtype == WType.read) rest
          have hstop : ∀ y ∈ (rest.dropWhile fun y => y.wtype == WType.read).head?,
              y.wtype ≠ WType.read := by
            intro y hy
            rw [Option.mem_def.mp hy] at hnext
            simpa using hnext
          rw [hsplit] at hrepr
          obtain ⟨atom', hrelease, hwtype', -, hafter⟩ := hrepr.release_waiting hmatch hxnone
            (fun y hy => ⟨hread, by simpa using List.mem_takeWhile_imp hy⟩) (fun _ => hstop)
          refine ⟨atom', hrelease, ⟨by simpa [hread] using hafter, by simp,
            fun _ => ⟨hwtype'.trans hread, hread ▸ hxnone⟩, fun y hy => ?_⟩,
            by simp [hwtype', hread]⟩
          have hmem := (List.dropWhile_sublist _).mem hy
          exact h.requests y (hwaiters ▸ List.mem_cons_of_mem _ hmem)
        · rw [Guards.AtomicReadWrite.release_of_other hlast hwaiters hread]
          have halone : x :: rest = x :: [] ++ rest := rfl
          rw [halone] at hrepr
          obtain ⟨atom', hrelease, hwtype', -, hafter⟩ := hrepr.release_waiting hmatch hxnone
            (by simp) (fun hx => absurd hx hread)
          refine ⟨atom', hrelease, ⟨by simpa using hafter, by simp,
            fun _ => ⟨hwtype', hxnone⟩, fun y hy => ?_⟩, by simp [hwtype']⟩
          exact h.requests y (hwaiters ▸ List.mem_cons_of_mem _ hy)
  · rw [Guards.AtomicReadWrite.release_of_others hlast]
    obtain ⟨atom', hrelease, hwtype', -, hafter⟩ := hrepr.release_others hmatch (by omega)
    refine ⟨atom', hrelease, ⟨hafter, fun hzero => absurd hzero hlast,
      fun _ => ⟨hwtype'.trans hwtype, hmode⟩, h.requests⟩, ?_⟩
    have hmany : spec.held ≠ 1 := by omega
    simp [hwtype', hwtype, hmany]

/-- Both atomics have the same events waiting, in order. -/
theorem waiting_iff (h : Refines atom spec) {evs : List EventId} :
    atom.waiters.Waiting evs ↔ evs = spec.waiters.map AtomicQueueEntry.event := by
  obtain ⟨nodes, hlist⟩ := h.represents
  exact hlist.waiting_iff

/-- Both atomics have the same number of holders. -/
theorem rcount_iff (h : Refines atom spec) {held : Nat} :
    atom.waiters.Rcount held ↔ held = spec.held := by
  obtain ⟨nodes, hlist⟩ := h.represents
  exact hlist.rcount_iff fun hzero => (h.free hzero).1

/-- No assertion of a call fails. -/
theorem not_fails (h : Refines atom spec) (assertion : String) (call : Call) :
    ¬ atom.Fails assertion call := by
  cases call with
  | acquireOrWait ev request =>
      intro hfails
      obtain ⟨atom', heq, -⟩ := (h.acquireOrWait ev request).2 _ hfails
      cases heq
  | release =>
      intro hfails
      by_cases hheld : spec.held = 0
      · have hrepr := h.represents
        rw [hheld, (h.free hheld).1] at hrepr
        exact hrepr.not_release_free _ hfails
      · obtain ⟨atom', hrelease, -⟩ := h.release hheld
        have heq := (hrelease _).mp hfails
        cases heq

end Refines

/-- Each call that returns on one of the two atomics returns on the other one, with the
same answer. -/
theorem bisimulation : Machine.Bisimulation (lockfree D) (classic D) Refines := by
  constructor
  · intro atom spec call answer atom' h hcall
    obtain ⟨hwaiting, hheld, hcall⟩ := hcall
    cases call with
    | acquireOrWait ev request =>
        obtain ⟨hacquire, hhanded⟩ := hcall
        obtain ⟨atom'', heq, -, hafter⟩ := (h.acquireOrWait ev request).2 _ hacquire
        simp only [Except.ok.injEq, Prod.mk.injEq] at heq
        obtain ⟨rfl, hgranted⟩ := heq
        exact ⟨_, ⟨hafter.waiting_iff.mp hwaiting, hafter.rcount_iff.mp hheld,
          Prod.ext rfl hgranted.symm, hhanded⟩, hafter⟩
    | release =>
        obtain ⟨hrelease, hgranted⟩ := hcall
        have hholder : spec.held ≠ 0 := by
          intro hfree
          have hrepr := h.represents
          rw [hfree, (h.free hfree).1] at hrepr
          exact hrepr.not_release_free _ hrelease
        obtain ⟨atom'', hiff, hafter, -⟩ := h.release hholder
        have heq := (hiff _).mp hrelease
        simp only [Except.ok.injEq, Prod.mk.injEq] at heq
        obtain ⟨rfl, hhanded⟩ := heq
        exact ⟨_, ⟨hafter.waiting_iff.mp hwaiting, hafter.rcount_iff.mp hheld, hholder,
          Prod.ext rfl hhanded.symm, hgranted⟩, hafter⟩
  · intro atom spec call answer spec' h hcall
    obtain ⟨hwaiting, hheld, hcall⟩ := hcall
    cases call with
    | acquireOrWait ev request =>
        obtain ⟨hspec, hhanded⟩ := hcall
        obtain ⟨⟨atom', hatom⟩, hall⟩ := h.acquireOrWait ev request
        obtain ⟨atom'', heq, -, hafter⟩ := hall _ hatom
        simp only [Except.ok.injEq, Prod.mk.injEq, and_true] at heq
        subst heq
        rw [hspec] at hatom hafter
        exact ⟨atom', ⟨hafter.waiting_iff.mpr hwaiting, hafter.rcount_iff.mpr hheld, hatom,
          hhanded⟩, hafter⟩
    | release =>
        obtain ⟨hholder, hspec, hgranted⟩ := hcall
        obtain ⟨atom', hiff, hafter, -⟩ := h.release hholder
        rw [hspec] at hiff hafter
        exact ⟨atom', ⟨hafter.waiting_iff.mpr hwaiting, hafter.rcount_iff.mpr hheld,
          (hiff _).mpr rfl, hgranted⟩, hafter⟩

/-- The classic atomic has one answer to each call. -/
theorem classic_deterministic : (classic D).Deterministic := by
  intro spec call a b spec' spec'' ha hb
  obtain ⟨hwaiting, hheld, ha⟩ := ha
  obtain ⟨hwaiting', hheld', hb⟩ := hb
  cases call with
  | acquireOrWait ev request =>
      obtain ⟨hspec, hhanded⟩ := ha
      obtain ⟨hspec', hhanded'⟩ := hb
      have heq := hspec.symm.trans hspec'
      simp only [Prod.mk.injEq] at heq
      obtain ⟨rfl, hgranted⟩ := heq
      exact ⟨by cases a; cases b; simp_all, rfl⟩
  | release =>
      obtain ⟨-, hspec, hgranted⟩ := ha
      obtain ⟨-, hspec', hgranted'⟩ := hb
      have heq := hspec.symm.trans hspec'
      simp only [Prod.mk.injEq] at heq
      obtain ⟨rfl, hhanded⟩ := heq
      exact ⟨by cases a; cases b; simp_all, rfl⟩

/-! ### Both atomics side by side -/

/-- A lock-free atomic and a classic one, and their answers to the last call. -/
abbrev Pair (D : Type) := Machine.Beside (AtomicReadWrite D) (Guards.AtomicReadWrite D) Answer

/-- The same calls on both. -/
abbrev pair (D : Type) : TransitionSystem (Pair D) Call := (lockfree D).beside (classic D)

/-- The same answers, the same mode, and no call on which an assertion fails. -/
def Agree (s : Pair D) : Prop :=
  s.SameAnswers ∧ s.left.wtype = s.right.mode ∧ ∀ assertion call, ¬ s.left.Fails assertion call

/-- A release after which nothing holds the atomic. -/
def Frees (spec : Guards.AtomicReadWrite D) : Call → Prop
  | .acquireOrWait _ _ => False
  | .release => spec.held = 1 ∧ spec.waiters = []

instance (spec : Guards.AtomicReadWrite D) : (call : Call) → Decidable (Frees spec call)
  | .acquireOrWait _ _ => .isFalse id
  | .release => inferInstanceAs (Decidable (spec.held = 1 ∧ spec.waiters = []))

variable {s t : Pair D}

/-- After a call the modes agree unless the call frees the atomic. -/
theorem mode_eq_iff {call : Call} (h : Refines s.left s.right)
    (hstep : (pair D).step s call t) :
    t.left.wtype = t.right.mode ↔ ¬ Frees s.right call := by
  obtain ⟨c, a, hc, ha, -⟩ := hstep
  cases call with
  | acquireOrWait ev request =>
      obtain ⟨atom', heq, hheld, hafter⟩ := (h.acquireOrWait ev request).2 _ hc.2.2.1
      simp only [Except.ok.injEq, Prod.mk.injEq] at heq
      obtain ⟨rfl, -⟩ := heq
      rw [ha.2.2.1] at hheld hafter
      exact ⟨fun _ => id, fun _ => (hafter.mode hheld).1⟩
  | release =>
      obtain ⟨hholder, hspec, -⟩ := ha.2.2
      obtain ⟨atom', hiff, -, hmode⟩ := h.release hholder
      have heq := (hiff _).mp hc.2.2.1
      simp only [Except.ok.injEq, Prod.mk.injEq] at heq
      obtain ⟨rfl, -⟩ := heq
      rw [hspec] at hmode
      exact hmode

theorem refines_of_reachable (h : (pair D).Reachable s) :
    Refines s.left s.right ∧ s.SameAnswers := by
  apply TransitionSystem.Reachable.invariant ?_ ?_ h
  · rintro s ⟨hatom, hspec, hanswers⟩
    exact ⟨Refines.initial hatom hspec, fun p hp => by rw [hanswers] at hp; cases hp⟩
  · intro s call t hs hstep
    exact bisimulation.beside_step classic_deterministic hs.1 hstep

/-- A run agrees exactly when none of its releases frees the atomic. -/
theorem statesMeet_agree_iff {path : List (Call × Pair D)} (hinit : (pair D).init s)
    (hrun : (pair D).Run s path) :
    TransitionSystem.StatesMeet Agree path ↔
      TransitionSystem.StepsMeet (fun s call _ => ¬ Frees s.right call) s path := by
  have hstart := refines_of_reachable (.init hinit)
  have hmode : s.left.wtype = s.right.mode := by
    obtain ⟨⟨dummy, hdummy⟩, ⟨data, hdata⟩, -⟩ := hinit
    rw [hdummy.2.2.2.2.2.2, hdata]
  refine hrun.statesMeet_iff_stepsMeet (I := fun s => Refines s.left s.right)
    ?_ ?_ hstart.1 ⟨hstart.2, hmode, hstart.1.not_fails⟩
  · intro s call t hs hstep
    exact (bisimulation.beside_step classic_deterministic hs hstep).1
  · intro s call t hs _ hstep
    obtain ⟨hafter, hanswers⟩ := bisimulation.beside_step classic_deterministic hs hstep
    rw [← mode_eq_iff hs hstep]
    exact ⟨fun hagree => hagree.2.1, fun hmode => ⟨hanswers, hmode, hafter.not_fails⟩⟩

/-- In every run of the same calls on both atomics the answers are the same, every call that
the classic atomic allows returns, and no assertion fails; the modes agree exactly as long as
no release leaves the atomic free. -/
theorem refines_classic_iff {path : List (Call × Pair D)} (hinit : (pair D).init s)
    (hrun : (pair D).Run s path) :
    (TransitionSystem.StatesMeet Agree path ↔
        TransitionSystem.StepsMeet (fun s call _ => ¬ Frees s.right call) s path) ∧
      ∀ t, t = s ∨ t ∈ path.map Prod.snd →
        t.SameAnswers ∧ (t.right.held ≠ 0 → t.left.wtype = t.right.mode) ∧
        (∀ assertion call, ¬ t.left.Fails assertion call) ∧
        ∀ call answer spec, (classic D).call t.right call answer spec →
          ∃ atom, (lockfree D).call t.left call answer atom := by
  refine ⟨statesMeet_agree_iff hinit hrun, fun t ht => ?_⟩
  have hreachable : (pair D).Reachable t := by
    rcases ht with rfl | hmem
    · exact .init hinit
    · obtain ⟨p, hp, rfl⟩ := List.mem_map.mp hmem
      exact hrun.statesMeet_reachable (.init hinit) p hp
  obtain ⟨hrefines, hanswers⟩ := refines_of_reachable hreachable
  refine ⟨hanswers, fun hheld => (hrefines.mode hheld).1, hrefines.not_fails, ?_⟩
  intro call answer spec hcall
  obtain ⟨atom, hatom, -⟩ := bisimulation.back hrefines hcall
  exact ⟨atom, hatom⟩

/-! ### A hand-over and a release -/

/-- Two free atomics. -/
def free : Pair Unit where
  left := { data := some (), waiters := { nodes := fun _ => {}, head := 8, tail := 8 },
            inUse := [8] }
  right := { data := some () }

/-- The free atomics are an initial pair. -/
theorem free_init : (pair Unit).init free :=
  ⟨⟨8, ⟨by decide, by decide⟩, by decide, rfl, rfl, rfl, rfl, rfl⟩, ⟨some (), rfl⟩, rfl⟩

/-- A call on the classic atomic can be made on both. -/
theorem exists_step (h : (pair D).Reachable s) {call : Call} {answer : Answer}
    {spec : Guards.AtomicReadWrite D} (hcall : (classic D).call s.right call answer spec) :
    ∃ t, (pair D).step s call t ∧ t.right = spec ∧ (pair D).Reachable t := by
  obtain ⟨t, hstep, hright, -⟩ :=
    bisimulation.exists_beside_step (refines_of_reachable h).1 hcall
  exact ⟨t, hstep, hright, h.step hstep⟩

/-- A reader, a writer that waits, and the release that hands over. -/
theorem refines_classic_iff_handOver :
    ∃ path, (pair Unit).Run free path ∧
      path.map Prod.fst = [.acquireOrWait 1 .read, .acquireOrWait 2 .write, .release] ∧
      TransitionSystem.StatesMeet Agree path := by
  have hread : (classic Unit).call free.right (.acquireOrWait 1 .read)
      { granted := true, held := 1, waiting := [] }
      { data := some (), held := 1, mode := WType.read } := ⟨rfl, rfl, rfl, rfl⟩
  obtain ⟨t₁, hstep₁, hright₁, hreach₁⟩ := exists_step (.init free_init) hread
  have hwrite : (classic Unit).call t₁.right (.acquireOrWait 2 .write)
      { held := 1, waiting := [2] }
      { data := some (), held := 1, waiters := [⟨2, WType.write⟩], mode := WType.read } := by
    rw [hright₁]
    exact ⟨rfl, rfl, rfl, rfl⟩
  obtain ⟨t₂, hstep₂, hright₂, hreach₂⟩ := exists_step hreach₁ hwrite
  have hrelease : (classic Unit).call t₂.right .release
      { handed := [2], held := 1, waiting := [] }
      { data := some (), held := 1, mode := WType.write } := by
    rw [hright₂]
    exact ⟨rfl, rfl, by decide, rfl, rfl⟩
  obtain ⟨t₃, hstep₃, -, -⟩ := exists_step hreach₂ hrelease
  have hrun : (pair Unit).Run free
      [(.acquireOrWait 1 .read, t₁), (.acquireOrWait 2 .write, t₂), (.release, t₃)] :=
    .cons hstep₁ (.cons hstep₂ (.cons hstep₃ (.nil t₃)))
  refine ⟨_, hrun, rfl, (refines_classic_iff free_init hrun).1.mpr ?_⟩
  simp [Frees, hright₂]

/-- A writer comes and goes: the lock-free atomic still says that it is held to write. -/
theorem not_agree_release :
    ¬ ∀ (s : Pair Unit) (path : List (Call × Pair Unit)), (pair Unit).init s →
        (pair Unit).Run s path → TransitionSystem.StatesMeet Agree path := by
  intro hall
  have hwrite : (classic Unit).call free.right (.acquireOrWait 1 .write)
      { granted := true, held := 1, waiting := [] }
      { data := some (), held := 1, mode := WType.write } := ⟨rfl, rfl, rfl, rfl⟩
  obtain ⟨t₁, hstep₁, hright₁, hreach₁⟩ := exists_step (.init free_init) hwrite
  have hrelease : (classic Unit).call t₁.right .release { held := 0, waiting := [] }
      { data := some () } := by
    rw [hright₁]
    exact ⟨rfl, rfl, by decide, rfl, rfl⟩
  obtain ⟨t₂, hstep₂, -, -⟩ := exists_step hreach₁ hrelease
  have hrun : (pair Unit).Run free [(.acquireOrWait 1 .write, t₁), (.release, t₂)] :=
    .cons hstep₁ (.cons hstep₂ (.nil t₂))
  have hsteps := (statesMeet_agree_iff free_init hrun).mp (hall _ _ free_init hrun)
  exact hsteps.2.1 (by rw [hright₁]; exact ⟨rfl, rfl⟩)

end AtomicReadWrite

end Lockfree
end OFlux
