import Mathlib.Logic.Function.Basic
import OFlux.Library.LinkedQueue

/-!
# Null-terminated lists

Nodes that link to one another up to a null, each of them once.  The links are a function on all
nodes, and are rewritten one at a time.

Main results:

- Theorem {lit}`NullTerminated.cons`, {lit}`NullTerminated.tail`: a node in front.
- Theorem {lit}`NullTerminated.splice`: the last node of a chain is linked to the first one of another.
- Theorem {lit}`NullTerminated.unique`: the links determine the nodes of a chain.
-/

namespace OFlux
namespace Library

universe u

variable {A : Type u} {null : A}

namespace Segment

variable {link : A → A → Prop} {head tail : A} {nodes nodes' : List A}

/-- A segment in two parts. -/
theorem append_iff : Segment link head (nodes ++ nodes') tail ↔
    ∃ a, Segment link head nodes a ∧ Segment link a nodes' tail := by
  induction nodes generalizing head with
  | nil =>
      constructor
      · exact fun h => ⟨head, rfl, h⟩
      · rintro ⟨a, rfl, h⟩
        exact h
  | cons b nodes ih =>
      constructor
      · rintro ⟨hhead, c, hlink, hrest⟩
        obtain ⟨a, hnodes, hrest⟩ := ih.mp hrest
        exact ⟨a, ⟨hhead, c, hlink, hnodes⟩, hrest⟩
      · rintro ⟨a, ⟨hhead, c, hlink, hnodes⟩, hrest⟩
        exact ⟨hhead, c, hlink, ih.mpr ⟨a, hnodes, hrest⟩⟩

end Segment

/-- The nodes from {lit}`head` on, up to {lit}`null`. -/
structure NullTerminated (next : A → A) (null head : A) (nodes : List A) : Prop where
  segment : Segment (fun a b => next a = b) head nodes null
  nodup : nodes.Nodup
  null_notMem : null ∉ nodes

namespace NullTerminated

variable {next : A → A} {head e : A} {nodes rest front : List A}

theorem nil : NullTerminated next null null [] :=
  ⟨rfl, List.nodup_nil, List.not_mem_nil⟩

/-- Only the null pointer is the empty list. -/
theorem eq_nil_iff (h : NullTerminated next null head nodes) : head = null ↔ nodes = [] := by
  cases nodes with
  | nil => exact iff_of_true h.segment rfl
  | cons a rest =>
      have hhead : head = a := h.segment.1
      refine iff_of_false ?_ (List.cons_ne_nil a rest)
      rintro rfl
      exact h.null_notMem (hhead ▸ List.mem_cons_self)

/-- A list is its head and the list behind it. -/
theorem tail (h : NullTerminated next null head (e :: rest)) :
    head = e ∧ NullTerminated next null (next e) rest := by
  obtain ⟨hhead, b, rfl, hrest⟩ := h.segment
  exact ⟨hhead, hrest, (List.nodup_cons.mp h.nodup).2,
    fun hmem => h.null_notMem (List.mem_cons_of_mem e hmem)⟩

/-- A chain that does not end at once begins with its head. -/
theorem exists_cons (h : NullTerminated next null head nodes) (hhead : head ≠ null) :
    ∃ rest, nodes = head :: rest ∧ NullTerminated next null (next head) rest := by
  cases nodes with
  | nil => exact absurd (h.eq_nil_iff.mpr rfl) hhead
  | cons a rest =>
      obtain ⟨rfl, hrest⟩ := h.tail
      exact ⟨rest, rfl, hrest⟩

variable [DecidableEq A]

/-- The link of a node elsewhere. -/
theorem update (h : NullTerminated next null head nodes) (he : e ∉ nodes) (a : A) :
    NullTerminated (Function.update next e a) null head nodes := by
  refine ⟨h.segment.congr fun b hb c hlink => ?_, h.nodup, h.null_notMem⟩
  rw [Function.update_of_ne (ne_of_mem_of_not_mem hb he)]
  exact hlink

/-- A node linked to a chain. -/
theorem cons (h : NullTerminated next null head nodes) (he : e ∉ nodes) (hnull : e ≠ null) :
    NullTerminated (Function.update next e head) null e (e :: nodes) := by
  refine ⟨⟨rfl, head, Function.update_self .., (h.update he head).segment⟩,
    List.nodup_cons.mpr ⟨he, h.nodup⟩, fun hmem => ?_⟩
  rcases List.mem_cons.mp hmem with heq | hmem
  · exact hnull heq.symm
  · exact h.null_notMem hmem

/-- A node linked to null. -/
theorem singleton (hnull : e ≠ null) : NullTerminated (Function.update next e null) null e [e] :=
  nil.cons List.not_mem_nil hnull

/-- The last node of a chain is linked to another chain. -/
theorem splice {head' : A} (h : NullTerminated next null head (front ++ [e]))
    (h' : NullTerminated next null head' nodes) (hdisjoint : (front ++ [e]).Disjoint nodes) :
    NullTerminated (Function.update next e head') null head (front ++ [e] ++ nodes) := by
  have hnodup := h.nodup
  rw [List.nodup_append] at hnodup
  have hfront : e ∉ front := fun hmem =>
    hnodup.2.2 e hmem e (List.mem_singleton_self e) rfl
  have he : e ∉ nodes := fun hmem => hdisjoint (by simp) hmem
  obtain ⟨a, hsegment, hlast⟩ := Segment.append_iff.mp h.segment
  obtain ⟨rfl, -⟩ := hlast
  refine ⟨?_, h.nodup.append h'.nodup hdisjoint, ?_⟩
  · have hrest := (h'.update he head').segment
    refine Segment.append_iff.mpr ⟨head', Segment.append_iff.mpr ⟨a, ?_, ?_⟩, hrest⟩
    · refine hsegment.congr fun b hb c hlink => ?_
      rw [Function.update_of_ne (ne_of_mem_of_not_mem hb hfront)]
      exact hlink
    · exact ⟨rfl, head', Function.update_self .., rfl⟩
  · rw [List.mem_append]
    exact not_or.mpr ⟨h.null_notMem, h'.null_notMem⟩

omit [DecidableEq A] in
/-- A head has one list. -/
theorem unique {nodes' : List A} (h : NullTerminated next null head nodes)
    (h' : NullTerminated next null head nodes') : nodes = nodes' := by
  induction nodes generalizing head nodes' with
  | nil => exact (h'.eq_nil_iff.mp (h.eq_nil_iff.mpr rfl)).symm
  | cons a rest ih =>
      obtain ⟨rfl, hrest⟩ := h.tail
      have hhead : head ≠ null := fun heq => List.cons_ne_nil _ _ (h.eq_nil_iff.mp heq)
      obtain ⟨rest', rfl, hrest'⟩ := h'.exists_cons hhead
      rw [ih hrest hrest']

end NullTerminated

end Library
end OFlux
