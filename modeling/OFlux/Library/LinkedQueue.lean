import Mathlib.Data.List.Nodup

/-!
# Linked queues

A queue of linked nodes that ends with a node of its own, which holds no item yet: the
next item is stored there, and a new last node is linked behind it.  Nothing is said
about the memory but which node links to which and what item a node holds.

Main results:

- Theorem {lit}`LinkedQueue.push`: the last node takes the item, and a new one follows.
- Theorem {lit}`LinkedQueue.popRun`: the first nodes have the first items, and link to the
  rest.
- Theorem {lit}`LinkedQueue.head_eq_tail_iff`: the queue is empty exactly when it
  begins with its last node.
-/

namespace OFlux
namespace Library

universe u v

variable {A : Type u} {β : Type v}

/-- The links lead from {lit}`head` through the nodes of a list to {lit}`tail`. -/
def Segment (link : A → A → Prop) (head : A) : List A → A → Prop
  | [], tail => head = tail
  | a :: rest, tail => head = a ∧ ∃ b, link a b ∧ Segment link b rest tail

namespace Segment

variable {link link' : A → A → Prop} {head tail : A} {nodes : List A}

theorem congr (h : Segment link head nodes tail)
    (hlink : ∀ a ∈ nodes, ∀ b, link a b → link' a b) : Segment link' head nodes tail := by
  induction nodes generalizing head with
  | nil => exact h
  | cons a rest ih =>
      obtain ⟨hhead, b, hab, hrest⟩ := h
      refine ⟨hhead, b, hlink a List.mem_cons_self b hab, ih hrest ?_⟩
      exact fun c hc => hlink c (List.mem_cons_of_mem a hc)

theorem snoc (h : Segment link head nodes tail) {last : A} (hlink : link tail last) :
    Segment link head (nodes ++ [tail]) last := by
  induction nodes generalizing head with
  | nil =>
      have heq : head = tail := h
      exact ⟨heq, last, hlink, rfl⟩
  | cons a rest ih =>
      obtain ⟨hhead, b, hab, hrest⟩ := h
      exact ⟨hhead, b, hab, ih hrest⟩

/-- The head is on the segment. -/
theorem head_mem (h : Segment link head nodes tail) : head ∈ nodes ++ [tail] := by
  cases nodes with
  | nil =>
      have heq : head = tail := h
      simp [heq]
  | cons a rest =>
      have heq : head = a := h.1
      simp [heq]

/-- Each node links to the one behind it. -/
theorem exists_link (h : Segment link head nodes tail) {a : A} (ha : a ∈ nodes) :
    ∃ b ∈ nodes ++ [tail], link a b := by
  induction nodes generalizing head with
  | nil => cases ha
  | cons c rest ih =>
      obtain ⟨hhead, b, hcb, hrest⟩ := h
      rcases List.mem_cons.mp ha with rfl | hmem
      · exact ⟨b, List.mem_cons_of_mem _ hrest.head_mem, hcb⟩
      · obtain ⟨d, hd, had⟩ := ih hrest hmem
        exact ⟨d, List.mem_cons_of_mem _ hd, had⟩

end Segment

/-- The nodes from {lit}`head` on hold the items; {lit}`tail` holds none. -/
structure LinkedQueue (link : A → A → Prop) (item : A → β) (head : A) (nodes : List A)
    (tail : A) (items : List β) : Prop where
  segment : Segment link head nodes tail
  nodup : (nodes ++ [tail]).Nodup
  items_eq : nodes.map item = items

namespace LinkedQueue

variable {link link' : A → A → Prop} {item item' : A → β} {head tail : A} {nodes : List A}
  {items : List β}

/-- A single node is the empty queue. -/
theorem empty (link : A → A → Prop) (item : A → β) (head : A) :
    LinkedQueue link item head [] head [] :=
  ⟨rfl, by simp, rfl⟩

/-- The tail is not one of the nodes before it. -/
theorem tail_not_mem (h : LinkedQueue link item head nodes tail items) : tail ∉ nodes := by
  have hnodup := List.nodup_append.mp h.nodup
  exact fun hmem => hnodup.2.2 tail hmem tail (List.mem_singleton_self tail) rfl

/-- There are as many nodes as items. -/
theorem nodes_eq_nil_iff (h : LinkedQueue link item head nodes tail items) :
    nodes = [] ↔ items = [] := by
  rw [← h.items_eq, List.map_eq_nil_iff]

/-- The head is the tail exactly when the queue is empty. -/
theorem head_eq_tail_iff (h : LinkedQueue link item head nodes tail items) :
    head = tail ↔ items = [] := by
  rw [← h.nodes_eq_nil_iff]
  constructor
  · intro heq
    cases nodes with
    | nil => rfl
    | cons a rest =>
        have hhead : head = a := h.segment.1
        have hmem : tail ∈ a :: rest := by rw [← heq, hhead]; exact List.mem_cons_self
        exact absurd hmem h.tail_not_mem
  · intro hnil
    subst hnil
    exact h.segment

/-- The head is on the queue. -/
theorem head_mem (h : LinkedQueue link item head nodes tail items) : head ∈ nodes ++ [tail] :=
  h.segment.head_mem

/-- Only the links and items of the nodes matter. -/
theorem congr (h : LinkedQueue link item head nodes tail items)
    (hlink : ∀ a ∈ nodes, ∀ b, link a b → link' a b)
    (hitem : ∀ a ∈ nodes, item' a = item a) :
    LinkedQueue link' item' head nodes tail items := by
  refine ⟨h.segment.congr hlink, h.nodup, ?_⟩
  rw [← h.items_eq]
  exact List.map_congr_left hitem

/-- The last node takes an item and links to a new last node. -/
theorem push (h : LinkedQueue link item head nodes tail items) {last : A} {x : β}
    (hfresh : last ∉ nodes ++ [tail])
    (hlink : ∀ a ∈ nodes, ∀ b, link a b → link' a b) (hlast : link' tail last)
    (hitem : ∀ a ∈ nodes, item' a = item a) (hx : item' tail = x) :
    LinkedQueue link' item' head (nodes ++ [tail]) last (items ++ [x]) := by
  refine ⟨(h.segment.congr hlink).snoc hlast, ?_, ?_⟩
  · rw [List.nodup_append]
    refine ⟨h.nodup, by simp, fun a ha b hb heq => ?_⟩
    rw [List.mem_singleton] at hb
    exact hfresh (hb ▸ heq ▸ ha)
  · rw [List.map_append, List.map_congr_left hitem, h.items_eq]
    simp [hx]

/-- The first node holds the first item and links to the rest of the queue. -/
theorem pop {x : β} (h : LinkedQueue link item head nodes tail (x :: items)) :
    ∃ next rest, nodes = head :: rest ∧ item head = x ∧ link head next ∧
      LinkedQueue link item next rest tail items := by
  cases nodes with
  | nil => exact absurd (h.nodes_eq_nil_iff.mp rfl) (by simp)
  | cons a rest =>
      obtain ⟨hhead, b, hab, hrest⟩ := h.segment
      subst hhead
      have hitems := h.items_eq
      simp only [List.map_cons, List.cons.injEq] at hitems
      have hnodup := h.nodup
      rw [List.cons_append, List.nodup_cons] at hnodup
      exact ⟨b, rest, rfl, hitems.1, hab, hrest, hnodup.2, hitems.2⟩

/-- The first nodes hold the first items, and the last one of them links to the rest of
the queue. -/
theorem popRun {x : β} {xs ys : List β}
    (h : LinkedQueue link item head nodes tail (x :: xs ++ ys)) :
    ∃ front last next rest, nodes = front ++ last :: rest ∧ Segment link head front last ∧
      (front ++ [last]).map item = x :: xs ∧ link last next ∧
      LinkedQueue link item next rest tail ys := by
  induction xs generalizing head nodes x with
  | nil =>
      obtain ⟨next, rest, rfl, hitem, hlink, hrest⟩ := pop h
      exact ⟨[], head, next, rest, rfl, rfl, by simp [hitem], hlink, hrest⟩
  | cons y xs ih =>
      obtain ⟨next, rest, rfl, hitem, hlink, hrest⟩ := pop h
      obtain ⟨front, last, next', rest', rfl, hseg, hitems, hlink', hrest'⟩ := ih hrest
      refine ⟨head :: front, last, next', rest', rfl, ⟨rfl, next, hlink, hseg⟩, ?_, hlink',
        hrest'⟩
      rw [List.cons_append, List.map_cons, hitem, hitems]

end LinkedQueue

end Library
end OFlux
