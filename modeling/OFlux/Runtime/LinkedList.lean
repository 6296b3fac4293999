import OFlux.Library.Loop
import OFlux.Library.TwoWayList

/-!
# Linked lists that nodes can be removed from

{lit}`LinkedListRemovable` is a two-way list: a node knows the next one and the variable that points
at itself, and the list knows its last variable unless it is empty.  What a node is, and whether
{lit}`destroy` frees it, is left to the node class.

Main results:

- Theorems {lit}`LinkedListRemovable.Represents.insertFront`,
  {lit}`LinkedListRemovable.Represents.insertBack` and
  {lit}`LinkedListRemovable.Represents.remove`: each call does to the links what it does to the
  contents.
- Theorem {lit}`LinkedListRemovable.returns_fold`: {lit}`fold` sees the contents in their order.
- Theorem {lit}`LinkedListRemovable.run_represents`: the same for all sequences of calls.
-/

namespace OFlux
namespace Runtime

open Library

/-- The list with its nodes: the links of those that are allocated. -/
structure LinkedListRemovable (N : Type) where
  head : Option N
  tail : Option (LinkLocation N)
  next : N → Option N
  previous : N → Option (LinkLocation N)
  allocated : N → Bool

/-- The assertion of the insertions fails. -/
inductive LinkedListAssertion where
  | inAnotherList

/-- The calls; {lit}`create` makes a new node, as the insertion of contents does first. -/
inductive LinkedListCall (N : Type) where
  | create (n : N)
  | insertFront (n : N)
  | insertBack (n : N)
  | remove (n : N)

namespace LinkedListRemovable

variable {N : Type} [DecidableEq N]

/-- The pointer in a variable. -/
def links (s : LinkedListRemovable N) : LinkLocation N → Option N
  | .head => s.head
  | .next n => s.next n

/-- Assign one {lit}`next` field. -/
def setNext (s : LinkedListRemovable N) (n : N) (p : Option N) : LinkedListRemovable N :=
  { s with next := Function.update s.next n p }

/-- Assign one {lit}`previous` field. -/
def setPrevious (s : LinkedListRemovable N) (n : N) (p : Option (LinkLocation N)) :
    LinkedListRemovable N :=
  { s with previous := Function.update s.previous n p }

/-- Assign the tail of the list. -/
def setTail (s : LinkedListRemovable N) (p : Option (LinkLocation N)) : LinkedListRemovable N :=
  { s with tail := p }

/-- Assign to a variable. -/
def store (s : LinkedListRemovable N) (loc : LinkLocation N) (p : Option N) :
    LinkedListRemovable N :=
  match loc with
  | .head => { s with head := p }
  | .next n => s.setNext n p

/-- The backward link of a node, if there is one. -/
def setPreviousOf (s : LinkedListRemovable N) (p : Option N) (loc : LinkLocation N) :
    LinkedListRemovable N :=
  match p with
  | none => s
  | some n => s.setPrevious n (some loc)

/-! ## Calls -/

/-- {lit}`insert_front`: the node has to be in no list. -/
def insertFront (s : LinkedListRemovable N) (n : N) :
    Except LinkedListAssertion (LinkedListRemovable N) :=
  if s.next n = none ∧ s.previous n = none then
    let s := s.setTail (if s.tail = none then some (.next n) else s.tail)
    let s := s.setPrevious n (some .head)
    let s := s.setPreviousOf (s.links .head) (.next n)
    let s := s.setNext n (s.links .head)
    .ok (s.store .head (some n))
  else .error .inAnotherList

/-- {lit}`insert_back`: the node has to be in no list. -/
def insertBack (s : LinkedListRemovable N) (n : N) :
    Except LinkedListAssertion (LinkedListRemovable N) :=
  if s.next n = none ∧ s.previous n = none then
    match s.tail with
    | none => s.insertFront n
    | some loc =>
        let s := s.setPrevious n (some loc)
        let s := s.store loc (some n)
        .ok (s.setTail (some (.next n)))
  else .error .inAnotherList

/-- {lit}`remove` of a node. -/
def removeNode (s : LinkedListRemovable N) (n : N) : Bool × LinkedListRemovable N :=
  let (res, s) := match s.previous n with
    | none => (false, s)
    | some loc =>
        let s := s.store loc (s.next n)
        (true, s.setPreviousOf (s.links loc) loc)
  (res, (s.setPrevious n none).setNext n none)

/-- A list whose tail is the variable of its head is empty again. -/
def emptyAgain (s : LinkedListRemovable N) : LinkedListRemovable N :=
  if s.tail = some .head then (s.setTail none).store .head none else s

/-- {lit}`destroy` frees a node if {lit}`create` allocates one. -/
def destroy (createDoesNew : Bool) (s : LinkedListRemovable N) (n : N) :
    LinkedListRemovable N :=
  { s with allocated :=
      if createDoesNew then Function.update s.allocated n false else s.allocated }

/-- {lit}`remove` of the list. -/
def remove (createDoesNew : Bool) (s : LinkedListRemovable N) (n : N) :
    Bool × LinkedListRemovable N :=
  let s := s.setTail (if s.tail = some (.next n) then s.previous n else s.tail)
  ((s.removeNode n).1, (s.removeNode n).2.emptyAgain.destroy createDoesNew n)

/-- A new node has no links. -/
def create (s : LinkedListRemovable N) (n : N) : LinkedListRemovable N :=
  let s := (s.setNext n none).setPrevious n none
  { s with allocated := Function.update s.allocated n true }

/-- A call, with the result of those that return one. -/
def call (createDoesNew : Bool) (s : LinkedListRemovable N) :
    LinkedListCall N → Except LinkedListAssertion (Option Bool × LinkedListRemovable N)
  | .create n => .ok (none, s.create n)
  | .insertFront n => (s.insertFront n).map fun s => (none, s)
  | .insertBack n => (s.insertBack n).map fun s => (none, s)
  | .remove n => .ok ((some (s.remove createDoesNew n).1, (s.remove createDoesNew n).2))

/-- The calls one after another, with their answers. -/
def run (createDoesNew : Bool) (s : LinkedListRemovable N) :
    List (LinkedListCall N) →
      Except LinkedListAssertion (List (Option Bool) × LinkedListRemovable N)
  | [] => .ok ([], s)
  | c :: calls => do
      let (result, s) ← s.call createDoesNew c
      let (results, s) ← s.run createDoesNew calls
      pure (result :: results, s)

end LinkedListRemovable

/-! ## Contents -/

/-- What a list is for: a sequence of nodes, out of those that are allocated. -/
structure NodeSequence (N : Type) where
  contents : List N
  allocated : N → Bool

namespace NodeSequence

variable {N : Type} [DecidableEq N]

/-- A new node is one that is not allocated, and a node is inserted once at a time and removed
while it is there. -/
def Allowed (a : NodeSequence N) : LinkedListCall N → Prop
  | .create n => a.allocated n = false
  | .insertFront n => a.allocated n = true ∧ n ∉ a.contents
  | .insertBack n => a.allocated n = true ∧ n ∉ a.contents
  | .remove n => n ∈ a.contents

/-- One call on the sequence of the nodes. -/
def call (createDoesNew : Bool) (a : NodeSequence N) :
    LinkedListCall N → Option Bool × NodeSequence N
  | .create n => (none, { a with allocated := Function.update a.allocated n true })
  | .insertFront n => (none, { a with contents := n :: a.contents })
  | .insertBack n => (none, { a with contents := a.contents ++ [n] })
  | .remove n =>
      (some true, {
        contents := a.contents.erase n
        allocated := if createDoesNew then Function.update a.allocated n false
          else a.allocated })

/-- The calls one after another, on the sequence of the nodes. -/
def run (createDoesNew : Bool) (a : NodeSequence N) :
    List (LinkedListCall N) → List (Option Bool) × NodeSequence N
  | [] => ([], a)
  | c :: calls =>
      let (result, a) := a.call createDoesNew c
      let (results, a) := a.run createDoesNew calls
      (result :: results, a)

/-- Each call is allowed when it is its turn. -/
def AllAllowed (createDoesNew : Bool) (a : NodeSequence N) : List (LinkedListCall N) → Prop
  | [] => True
  | c :: calls => a.Allowed c ∧ AllAllowed createDoesNew (a.call createDoesNew c).2 calls

end NodeSequence

namespace LinkedListRemovable

open LinkLocation

variable {N : Type} [DecidableEq N] {s : LinkedListRemovable N} {a : NodeSequence N}

/-! ## Assignments to links -/

@[simp]
theorem links_store (s : LinkedListRemovable N) (loc : LinkLocation N) (p : Option N) :
    (s.store loc p).links = Function.update s.links loc p := by
  funext loc'
  cases loc with
  | head => cases loc' <;> simp [store, links]
  | next n =>
      cases loc' with
      | head => simp [store, links, setNext]
      | next k => simp [store, links, setNext, Function.update_apply]

@[simp]
theorem links_setNext (s : LinkedListRemovable N) (n : N) (p : Option N) :
    (s.setNext n p).links = Function.update s.links (.next n) p :=
  s.links_store (.next n) p

omit [DecidableEq N] in
@[simp]
theorem links_setTail (s : LinkedListRemovable N) (p : Option (LinkLocation N)) :
    (s.setTail p).links = s.links :=
  rfl

@[simp]
theorem links_setPrevious (s : LinkedListRemovable N) (n : N) (p : Option (LinkLocation N)) :
    (s.setPrevious n p).links = s.links :=
  rfl

@[simp]
theorem links_setPreviousOf (s : LinkedListRemovable N) (p : Option N) (loc : LinkLocation N) :
    (s.setPreviousOf p loc).links = s.links := by
  cases p <;> rfl

@[simp]
theorem previous_store (s : LinkedListRemovable N) (loc : LinkLocation N) (p : Option N) :
    (s.store loc p).previous = s.previous := by
  cases loc <;> rfl

@[simp]
theorem previous_setNext (s : LinkedListRemovable N) (n : N) (p : Option N) :
    (s.setNext n p).previous = s.previous :=
  rfl

/-- The back link of the node written. -/
theorem previous_setPreviousOf_of_mem {p : Option N} {loc : LinkLocation N} {m : N} (hm : m ∈ p) :
    (s.setPreviousOf p loc).previous m = some loc := by
  obtain rfl : p = some m := hm
  exact Function.update_self _ _ _

/-- The other back links stay. -/
theorem previous_setPreviousOf_of_notMem {p : Option N} {loc : LinkLocation N} {m : N}
    (hm : m ∉ p) : (s.setPreviousOf p loc).previous m = s.previous m := by
  cases p with
  | none => rfl
  | some k =>
      refine Function.update_of_ne ?_ _ _
      rintro rfl
      exact hm rfl

@[simp]
theorem tail_store (s : LinkedListRemovable N) (loc : LinkLocation N) (p : Option N) :
    (s.store loc p).tail = s.tail := by
  cases loc <;> rfl

@[simp]
theorem tail_setPreviousOf (s : LinkedListRemovable N) (p : Option N) (loc : LinkLocation N) :
    (s.setPreviousOf p loc).tail = s.tail := by
  cases p <;> rfl

@[simp]
theorem allocated_store (s : LinkedListRemovable N) (loc : LinkLocation N) (p : Option N) :
    (s.store loc p).allocated = s.allocated := by
  cases loc <;> rfl

@[simp]
theorem allocated_setPreviousOf (s : LinkedListRemovable N) (p : Option N)
    (loc : LinkLocation N) : (s.setPreviousOf p loc).allocated = s.allocated := by
  cases p <;> rfl

/-! ## What the calls do to the links -/

/-- A node is linked in at a variable, in front of another node if there is one. -/
structure LinkedIn (s : LinkedListRemovable N) (n : N) (loc : LinkLocation N)
    (behind : Option N) (s' : LinkedListRemovable N) : Prop where
  links_loc : s'.links loc = some n
  links_next : s'.links (.next n) = behind
  links_other : ∀ loc', loc' ≠ loc → loc' ≠ .next n → s'.links loc' = s.links loc'
  previous_self : s'.previous n = some loc
  previous_behind : ∀ m ∈ behind, s'.previous m = some (.next n)
  previous_other : ∀ m, m ≠ n → m ∉ behind → s'.previous m = s.previous m
  allocated : s'.allocated = s.allocated

/-- Inserting in front links the node in at the head. -/
theorem linkedIn_insertFront {n : N} (hdetached : s.next n = none ∧ s.previous n = none)
    (hn : n ∉ s.head) :
    ∃ s', s.insertFront n = .ok s' ∧ s.LinkedIn n .head s.head s' ∧
      s'.tail = if s.tail = none then some (.next n) else s.tail := by
  refine ⟨_, if_pos hdetached, ⟨?_, ?_, ?_, ?_, ?_, ?_, ?_⟩, ?_⟩
  · simp only [links_store, Function.update_self]
  · simp only [links_store, links_setNext, links_setPreviousOf, links_setPrevious, links_setTail]
    rw [Function.update_of_ne (by simp), Function.update_self]
    rfl
  · intro loc hfirst hlast
    simp [hfirst, hlast]
  · simp only [previous_store, previous_setNext]
    exact (previous_setPreviousOf_of_notMem hn).trans (Function.update_self _ _ _)
  · intro m hm
    simp only [previous_store, previous_setNext]
    exact previous_setPreviousOf_of_mem hm
  · intro m hm hbehind
    simp only [previous_store, previous_setNext]
    exact (previous_setPreviousOf_of_notMem hbehind).trans (Function.update_of_ne hm _ _)
  · rw [allocated_store]
    exact allocated_setPreviousOf _ _ _
  · rw [tail_store]
    exact tail_setPreviousOf _ _ _

/-- Inserting at the back links the node in at the tail. -/
theorem linkedIn_insertBack {n : N} {loc : LinkLocation N}
    (hdetached : s.next n = none ∧ s.previous n = none) (htail : s.tail = some loc)
    (hloc : loc ≠ .next n) :
    ∃ s', s.insertBack n = .ok s' ∧ s.LinkedIn n loc none s' ∧ s'.tail = some (.next n) := by
  refine ⟨_, by rw [LinkedListRemovable.insertBack, if_pos hdetached, htail],
    ⟨?_, ?_, ?_, ?_, ?_, ?_, ?_⟩, rfl⟩
  · simp
  · simp only [links_setTail, links_store, links_setPrevious, Function.update_of_ne hloc.symm]
    exact hdetached.1
  · intro loc' hfirst _
    simp [hfirst]
  · change ((s.setPrevious n (some loc)).store loc (some n)).previous n = some loc
    rw [previous_store]
    exact Function.update_self _ _ _
  · intro m hm
    cases hm
  · intro m hm _
    change ((s.setPrevious n (some loc)).store loc (some n)).previous m = s.previous m
    rw [previous_store]
    exact Function.update_of_ne hm _ _
  · change ((s.setPrevious n (some loc)).store loc (some n)).allocated = s.allocated
    rw [allocated_store]
    rfl

/-- A node is linked out at the variable that points at it. -/
structure LinkedOut (s : LinkedListRemovable N) (n : N) (loc : LinkLocation N)
    (s' : LinkedListRemovable N) : Prop where
  links_loc : s'.links loc = s.next n
  links_next : s'.next n = none
  links_other : ∀ loc', loc' ≠ loc → loc' ≠ .next n → s'.links loc' = s.links loc'
  previous_self : s'.previous n = none
  previous_behind : ∀ m ∈ s.next n, s'.previous m = some loc
  previous_other : ∀ m, m ≠ n → m ∉ s.next n → s'.previous m = s.previous m
  tail : s'.tail = s.tail
  allocated : s'.allocated = s.allocated

/-- Removing a node links it out. -/
theorem linkedOut_removeNode {n : N} {loc : LinkLocation N} (hprevious : s.previous n = some loc)
    (hloc : loc ≠ .next n) (hn : n ∉ s.next n) :
    (s.removeNode n).1 = true ∧ s.LinkedOut n loc (s.removeNode n).2 := by
  have hresult : s.removeNode n = (true,
      (((s.store loc (s.next n)).setPreviousOf (s.next n) loc).setPrevious n none).setNext n
        none) := by
    simp [removeNode, hprevious]
  rw [hresult]
  refine ⟨rfl, ⟨?_, ?_, ?_, ?_, ?_, ?_, ?_, ?_⟩⟩
  · simp [hloc]
  · exact Function.update_self _ _ _
  · intro loc' hfirst hlast
    simp [hfirst, hlast]
  · exact Function.update_self _ _ _
  · intro m hm
    have hne : m ≠ n := fun heq => hn (heq ▸ hm)
    exact (Function.update_of_ne hne _ _).trans (previous_setPreviousOf_of_mem hm)
  · intro m hm hbehind
    refine (Function.update_of_ne hm _ _).trans ?_
    rw [previous_setPreviousOf_of_notMem hbehind, previous_store]
  · exact (tail_setPreviousOf _ _ _).trans (tail_store _ _ _)
  · exact (allocated_setPreviousOf _ _ _).trans (allocated_store _ _ _)

/-! ## The links represent the contents -/

/-- The links lead through the contents in both directions, the tail is the last variable, and nodes
that are not in the list have no links. -/
structure Represents (s : LinkedListRemovable N) (a : NodeSequence N) : Prop where
  list : TwoWayList s.links s.previous a.contents
  tail_eq : s.tail = if a.contents = [] then none else some (endOf .head a.contents)
  allocated_eq : s.allocated = a.allocated
  allocated : ∀ n ∈ a.contents, a.allocated n = true
  detached : ∀ n, a.allocated n = true → n ∉ a.contents → s.next n = none ∧ s.previous n = none

namespace Represents

section

omit [DecidableEq N]

variable (h : s.Represents a)
include h

theorem head_eq : s.head = a.contents.head? :=
  TwoWayList.links_endOf [] h.list

/-- There is no head exactly when the list is empty. -/
theorem head_eq_none_iff : s.head = none ↔ a.contents = [] := by
  rw [h.head_eq, List.head?_eq_none_iff]

/-- There is no tail exactly when the list is empty. -/
theorem tail_eq_none_iff : s.tail = none ↔ a.contents = [] := by
  rw [h.tail_eq]
  split
  next hnil => simp [hnil]
  next hne => simp [hne]

end

variable {n : N} (createDoesNew : Bool)

/-! ## Calls keep the representation -/

/-- A created node is not on the list yet. -/
theorem create (h : s.Represents a) (hnew : a.allocated n = false) :
    (s.create n).Represents (a.call createDoesNew (.create n)).2 := by
  have hn : ∀ m ∈ a.contents, m ≠ n := by
    rintro m hm rfl
    rw [h.allocated m hm] at hnew
    cases hnew
  refine ⟨h.list.congr rfl ?_ ?_, h.tail_eq, ?_, ?_, ?_⟩
  · intro m hm
    exact Function.update_of_ne (hn m hm) _ _
  · intro m hm
    exact Function.update_of_ne (hn m hm) _ _
  · exact congrArg (Function.update · n true) h.allocated_eq
  · intro m hm
    exact (Function.update_of_ne (hn m hm) _ _).trans (h.allocated m hm)
  · intro m hm hnot
    by_cases heq : m = n
    · subst heq
      exact ⟨Function.update_self _ _ _, Function.update_self _ _ _⟩
    · have hold : a.allocated m = true := (Function.update_of_ne heq _ _).symm.trans hm
      obtain ⟨hnext, hprevious⟩ := h.detached m hold hnot
      exact ⟨(Function.update_of_ne heq _ _).trans hnext,
        (Function.update_of_ne heq _ _).trans hprevious⟩

omit [DecidableEq N] in
/-- Linking in a node puts it into the contents. -/
theorem linkIn (l₁ : List N) {l₂ : List N} {s' : LinkedListRemovable N}
    (h : s.Represents { a with contents := l₁ ++ l₂ }) (hn : a.allocated n = true)
    (hnot : n ∉ l₁ ++ l₂) (hin : s.LinkedIn n (endOf .head l₁) l₂.head? s')
    (htail : s'.tail = some (endOf .head (l₁ ++ n :: l₂))) :
    s'.Represents { a with contents := l₁ ++ n :: l₂ } := by
  refine ⟨h.list.insert hnot hin.links_loc hin.links_next hin.links_other hin.previous_self
    hin.previous_behind hin.previous_other, ?_, hin.allocated.trans h.allocated_eq, ?_, ?_⟩
  · rw [htail, if_neg (by simp)]
  · intro m hm
    rcases List.mem_cons.mp (List.perm_middle.subset hm) with rfl | hm
    · exact hn
    · exact h.allocated m hm
  · intro m hm hout
    have hmn : m ≠ n := fun heq => hout (heq ▸ by simp)
    have hml : m ∉ l₁ ++ l₂ := fun hmem =>
      hout (List.perm_middle.symm.subset (List.mem_cons_of_mem n hmem))
    obtain ⟨hnext, hprevious⟩ := h.detached m hm hml
    have hl₁ : m ∉ l₁ := fun hmem => hml (List.mem_append_left _ hmem)
    refine ⟨?_, ?_⟩
    · exact (hin.links_other (.next m) (endOf_head_ne_next hl₁).symm (by simpa using hmn)).trans
        hnext
    · refine (hin.previous_other m hmn fun hbehind => ?_).trans hprevious
      exact hml (List.mem_append_right _ (List.mem_of_mem_head? hbehind))

/-- Inserting in front puts the node first. -/
theorem insertFront (h : s.Represents a) (hn : a.allocated n = true) (hnot : n ∉ a.contents) :
    ∃ s', s.insertFront n = .ok s' ∧
      s'.Represents (a.call createDoesNew (.insertFront n)).2 := by
  have hself : n ∉ s.head := fun hmem => hnot (List.mem_of_mem_head? (h.head_eq ▸ hmem))
  obtain ⟨s', hcall, hin, htail⟩ := linkedIn_insertFront (h.detached n hn hnot) hself
  rw [h.head_eq] at hin
  refine ⟨s', hcall, h.linkIn [] hn hnot hin ?_⟩
  change s'.tail = some (endOf (.next n) a.contents)
  rw [htail, h.tail_eq]
  cases a.contents with
  | nil => rfl
  | cons m l => rfl

/-- Inserting at the back puts the node last. -/
theorem insertBack (h : s.Represents a) (hn : a.allocated n = true) (hnot : n ∉ a.contents) :
    ∃ s', s.insertBack n = .ok s' ∧
      s'.Represents (a.call createDoesNew (.insertBack n)).2 := by
  have hdetached := h.detached n hn hnot
  by_cases hl : a.contents = []
  · have htail : s.tail = none := h.tail_eq_none_iff.mpr hl
    obtain ⟨s', hcall, hrep⟩ := h.insertFront createDoesNew hn hnot
    refine ⟨s', ?_, ?_⟩
    · rw [LinkedListRemovable.insertBack, if_pos hdetached, htail]
      exact hcall
    · simpa [NodeSequence.call, hl] using hrep
  · have htail : s.tail = some (endOf .head a.contents) := by rw [h.tail_eq, if_neg hl]
    obtain ⟨s', hcall, hin, htail'⟩ :=
      linkedIn_insertBack hdetached htail (endOf_head_ne_next hnot)
    have hrep : s.Represents { a with contents := a.contents ++ [] } := by
      rw [List.append_nil]
      exact h
    refine ⟨s', hcall, hrep.linkIn a.contents hn (by simpa using hnot) hin ?_⟩
    rw [htail', endOf_append]
    rfl

/-- The tail once the removal of a node has looked at it. -/
theorem tail_of_remove {l₁ l₂ : List N} (h : s.Represents a) (hl : a.contents = l₁ ++ n :: l₂)
    (hprevious : s.previous n = some (endOf .head l₁)) (hn : n ∉ l₂) :
    (if s.tail = some (.next n) then s.previous n else s.tail) =
      some (endOf .head (l₁ ++ l₂)) := by
  have htail : s.tail = some (endOf (.next n) l₂) := by
    rw [h.tail_eq, if_neg (by simp [hl]), hl, endOf_append]
    rfl
  cases l₂ with
  | nil =>
      have hlast : s.tail = some (.next n) := htail
      rw [if_pos hlast, hprevious, List.append_nil]
  | cons m l₂ =>
      have hne : s.tail ≠ some (.next n) := by
        obtain ⟨k, hk, heq⟩ := endOf_next_mem m l₂
        rw [htail, endOf, heq]
        simp only [ne_eq, Option.some.injEq, LinkLocation.next.injEq]
        rintro rfl
        exact hn hk
      rw [if_neg hne, htail, endOf_append]
      rfl

/-- A list whose last variable is its head is empty. -/
theorem emptyAgain_eq {l : List N} (hlist : TwoWayList s.links s.previous l)
    (htail : s.tail = some (endOf .head l)) :
    s.emptyAgain = s.setTail (if l = [] then none else some (endOf .head l)) := by
  by_cases hl : l = []
  · subst hl
    have hhead : s.head = none := hlist.end_eq
    have hfirst : s.tail = some .head := htail
    rw [emptyAgain, if_pos hfirst, if_pos rfl]
    simp only [store, setTail, hhead]
  · have hne : s.tail ≠ some .head := by
      rw [htail]
      simpa using mt endOf_head_eq_iff.mp hl
    rw [emptyAgain, if_neg hne, if_neg hl, ← htail]
    rfl

/-- Linking out a node takes it from the contents. -/
theorem linkOut {l₁ l₂ : List N} (h : s.Represents a) (hl : a.contents = l₁ ++ n :: l₂) :
    let s₁ := s.setTail (if s.tail = some (.next n) then s.previous n else s.tail)
    (s₁.removeNode n).1 = true ∧
      (s₁.removeNode n).2.emptyAgain.Represents { a with contents := l₁ ++ l₂ } := by
  intro s₁
  have hlist : TwoWayList s.links s.previous (l₁ ++ n :: l₂) := hl ▸ h.list
  obtain ⟨hnot, hnodup⟩ := List.nodup_cons.mp ((List.perm_middle.nodup_iff).mp hlist.nodup)
  have hn₁ : n ∉ l₁ := fun hmem => hnot (List.mem_append_left _ hmem)
  have hn₂ : n ∉ l₂ := fun hmem => hnot (List.mem_append_right _ hmem)
  have hprevious : s.previous n = some (endOf .head l₁) := hlist.back_eq
  have hbehind : s₁.next n = l₂.head? := by
    have hparts : TwoWayList s.links s.previous ((l₁ ++ [n]) ++ l₂) := by
      rwa [List.append_assoc]
    have hlinks := TwoWayList.links_endOf (l₁ ++ [n]) hparts
    rw [endOf_append] at hlinks
    exact hlinks
  obtain ⟨hres, hout⟩ := linkedOut_removeNode (s := s₁) hprevious (endOf_head_ne_next hn₁)
    fun hmem => hn₂ (List.mem_of_mem_head? (hbehind ▸ hmem))
  have hlist₂ : TwoWayList (s₁.removeNode n).2.links (s₁.removeNode n).2.previous (l₁ ++ l₂) :=
    hlist.remove hout.links_loc hout.links_other (hbehind ▸ hout.previous_behind)
      (hbehind ▸ hout.previous_other)
  have htail₂ : (s₁.removeNode n).2.tail = some (endOf .head (l₁ ++ l₂)) :=
    hout.tail.trans (h.tail_of_remove hl hprevious hn₂)
  refine ⟨hres, ?_⟩
  rw [emptyAgain_eq hlist₂ htail₂]
  refine ⟨hlist₂, rfl, hout.allocated.trans h.allocated_eq, fun m hm => ?_, fun m hm hml => ?_⟩
  · exact h.allocated m (hl ▸ List.perm_middle.symm.subset (List.mem_cons_of_mem n hm))
  · by_cases hmn : m = n
    · subst hmn
      exact ⟨hout.links_next, hout.previous_self⟩
    · have hold : m ∉ a.contents := by
        rw [hl]
        exact fun hmem => (List.mem_cons.mp (List.perm_middle.subset hmem)).elim hmn hml
      obtain ⟨hmnext, hmprevious⟩ := h.detached m hm hold
      have hm₁ : m ∉ l₁ := fun hmem => hml (List.mem_append_left _ hmem)
      refine ⟨?_, ?_⟩
      · exact (hout.links_other (.next m) (endOf_head_ne_next hm₁).symm
          (by simpa using hmn)).trans hmnext
      · refine (hout.previous_other m hmn fun hmem => ?_).trans hmprevious
        rw [hbehind] at hmem
        exact hml (List.mem_append_right _ (List.mem_of_mem_head? hmem))

/-- Freeing a node that is not in the list changes nothing for the others. -/
theorem destroy (h : s.Represents a) (hnot : n ∉ a.contents) :
    (s.destroy createDoesNew n).Represents
      { a with allocated :=
          if createDoesNew then Function.update a.allocated n false else a.allocated } := by
  cases createDoesNew with
  | false => exact ⟨h.list, h.tail_eq, h.allocated_eq, h.allocated, h.detached⟩
  | true =>
      have hother : ∀ m, m ≠ n → Function.update a.allocated n false m = a.allocated m :=
        fun m hm => Function.update_of_ne hm _ _
      refine ⟨h.list, h.tail_eq,
        congrArg (fun f : N → Bool => Function.update f n false) h.allocated_eq,
        fun m hm => ?_, fun m hm hml => ?_⟩
      · exact (hother m fun heq => hnot (heq ▸ hm)).trans (h.allocated m hm)
      · have hkept : Function.update a.allocated n false m = true := hm
        have hmn : m ≠ n := by
          rintro rfl
          rw [Function.update_self] at hkept
          cases hkept
        exact h.detached m ((hother m hmn).symm.trans hkept) hml

/-- Removing takes the node out. -/
theorem remove (h : s.Represents a) (hn : n ∈ a.contents) :
    (s.remove createDoesNew n).1 = true ∧
      (s.remove createDoesNew n).2.Represents (a.call createDoesNew (.remove n)).2 := by
  obtain ⟨l₁, l₂, hl⟩ := List.append_of_mem hn
  have hnodup : (l₁ ++ n :: l₂).Nodup := hl ▸ h.list.nodup
  have hnot := (List.nodup_cons.mp ((List.perm_middle.nodup_iff).mp hnodup)).1
  have herase : a.contents.erase n = l₁ ++ l₂ := by
    rw [hl, List.erase_append_right _ fun hmem => hnot (List.mem_append_left _ hmem),
      List.erase_cons_head]
  obtain ⟨hres, hout⟩ := h.linkOut hl
  refine ⟨hres, ?_⟩
  simp only [NodeSequence.call, herase]
  exact hout.destroy createDoesNew hnot

end Represents

/-! ## Reading the contents -/

/-- One turn of the loop of {lit}`fold`, at a node. -/
def foldTurn {β : Type} (s : LinkedListRemovable N) (f : β → N → β) (n : Option N × β) :
    Turn Empty (Option N × β) β :=
  match n with
  | (none, fixed) => .done (none, fixed) fixed
  | (some n, fixed) => .again (s.next n, f fixed n)

omit [DecidableEq N] in
/-- From a variable of the list on, {lit}`fold` goes through the nodes behind it. -/
theorem returns_foldFrom {β : Type} (f : β → N → β) {loc : LinkLocation N} {l : List N}
    (hchain : Chain s.links s.previous loc l) (hend : s.links (endOf loc l) = none) (fixed : β) :
    ∃ n, Returns (s.foldTurn f) (s.links loc, fixed) (.ok (n, l.foldl f fixed)) := by
  induction l generalizing loc fixed with
  | nil =>
      have hnone : s.links loc = none := hend
      rw [hnone]
      exact ⟨_, Returns.done rfl⟩
  | cons n l ih =>
      obtain ⟨hlink, -, hrest⟩ := hchain
      obtain ⟨n', hreturns⟩ := ih hrest hend (f fixed n)
      rw [hlink]
      exact ⟨n', Returns.again rfl hreturns⟩

omit [DecidableEq N] in
/-- A fold returns, and folds the nodes in order. -/
theorem returns_fold {β : Type} (h : s.Represents a) (f : β → N → β) (fixed : β) :
    ∃ n, Returns (s.foldTurn f) (s.head, fixed) (.ok (n, a.contents.foldl f fixed)) :=
  returns_foldFrom f h.list.chain h.list.end_eq fixed

/-! ## All calls -/

/-- A call answers as on the sequence of nodes. -/
theorem call_represents (createDoesNew : Bool) {c : LinkedListCall N} (h : s.Represents a)
    (hallowed : a.Allowed c) :
    ∃ s', s.call createDoesNew c = .ok ((a.call createDoesNew c).1, s') ∧
      s'.Represents (a.call createDoesNew c).2 := by
  cases c with
  | create n => exact ⟨s.create n, rfl, h.create createDoesNew hallowed⟩
  | insertFront n =>
      obtain ⟨s', hcall, hrep⟩ := h.insertFront createDoesNew hallowed.1 hallowed.2
      exact ⟨s', by rw [call, hcall]; rfl, hrep⟩
  | insertBack n =>
      obtain ⟨s', hcall, hrep⟩ := h.insertBack createDoesNew hallowed.1 hallowed.2
      exact ⟨s', by rw [call, hcall]; rfl, hrep⟩
  | remove n =>
      obtain ⟨hres, hrep⟩ := h.remove createDoesNew hallowed
      exact ⟨_, by rw [call, hres]; rfl, hrep⟩

theorem run_represents (createDoesNew : Bool) (h : s.Represents a)
    {calls : List (LinkedListCall N)} (hallowed : a.AllAllowed createDoesNew calls) :
    ∃ s', s.run createDoesNew calls = .ok ((a.run createDoesNew calls).1, s') ∧
      s'.Represents (a.run createDoesNew calls).2 := by
  induction calls generalizing s a with
  | nil => exact ⟨s, rfl, h⟩
  | cons c calls ih =>
      obtain ⟨s₁, hcall, hrep⟩ := call_represents createDoesNew h hallowed.1
      obtain ⟨s₂, hrun, hrep₂⟩ := ih hrep hallowed.2
      refine ⟨s₂, ?_, hrep₂⟩
      rw [run, hcall]
      change (s₁.run createDoesNew calls >>= _) = _
      rw [hrun]
      rfl

/-- The constructor; the nodes that exist by then are in no list. -/
structure Initial (s : LinkedListRemovable N) : Prop where
  head : s.head = none
  tail : s.tail = none
  detached : ∀ n, s.allocated n = true → s.next n = none ∧ s.previous n = none

omit [DecidableEq N] in
/-- A new list is the empty sequence. -/
theorem Initial.represents (h : s.Initial) : s.Represents ⟨[], s.allocated⟩ :=
  ⟨⟨trivial, h.head, List.nodup_nil⟩, h.tail, rfl, fun _ hm => absurd hm List.not_mem_nil,
    fun n hn _ => h.detached n hn⟩

/-- Whatever calls are made, with each node inserted once at a time and removed while it is there:
no assertion fails, the results and the links are those of the sequence of the contents, both ends
are null exactly if it is empty, and {lit}`fold` goes through it. -/
theorem run_keeps_representation (createDoesNew : Bool) (hinit : s.Initial)
    {calls : List (LinkedListCall N)}
    (hallowed : NodeSequence.AllAllowed createDoesNew ⟨[], s.allocated⟩ calls) :
    ∃ s' results a', s.run createDoesNew calls = .ok (results, s') ∧
      NodeSequence.run createDoesNew ⟨[], s.allocated⟩ calls = (results, a') ∧
      s'.Represents a' ∧ (s'.head = none ↔ a'.contents = []) ∧
      (s'.tail = none ↔ a'.contents = []) ∧
      ∀ (f : List N → N → List N) (fixed : List N),
        ∃ n, Returns (s'.foldTurn f) (s'.head, fixed) (.ok (n, a'.contents.foldl f fixed)) := by
  obtain ⟨s', hrun, hrep⟩ := run_represents createDoesNew hinit.represents hallowed
  exact ⟨s', _, _, hrun, rfl, hrep, hrep.head_eq_none_iff, hrep.tail_eq_none_iff,
    fun f fixed => returns_fold hrep f fixed⟩

/-- A list without nodes, before any node has been allocated. -/
def empty : LinkedListRemovable Nat where
  head := none
  tail := none
  next := fun _ => none
  previous := fun _ => none
  allocated := fun _ => false

/-- Insertions at both ends; then the middle, the head and the last node are removed. -/
def exampleCalls : List (LinkedListCall Nat) :=
  [.create 1, .insertFront 1, .create 2, .insertFront 2, .create 3, .insertBack 3, .remove 1,
    .remove 2, .remove 3]

theorem run_exampleCalls :
    ∃ s' results a', empty.run true exampleCalls = .ok (results, s') ∧
      NodeSequence.run true ⟨[], empty.allocated⟩ exampleCalls = (results, a') ∧
      s'.Represents a' ∧ (s'.head = none ↔ a'.contents = []) ∧
      (s'.tail = none ↔ a'.contents = []) ∧
      ∀ (f : List Nat → Nat → List Nat) (fixed : List Nat),
        ∃ n, Returns (s'.foldTurn f) (s'.head, fixed) (.ok (n, a'.contents.foldl f fixed)) :=
  run_keeps_representation true ⟨rfl, rfl, fun _ _ => ⟨rfl, rfl⟩⟩ (by
    simp [exampleCalls, NodeSequence.AllAllowed, NodeSequence.Allowed, NodeSequence.call, empty])

end LinkedListRemovable

end Runtime
end OFlux
