import OFlux.Library.Acyclic
import OFlux.Library.Fallible
import OFlux.Library.Saturation
import OFlux.Library.SortedMap
import Mathlib.Data.Set.Finite.List
import Mathlib.Order.Filter.AtTopBot.Basic
import Mathlib.Order.Filter.Finite

/-!
# Cycles in the guard precedences

The edges of a graph are added one by one to the successor lists of its trees, and each is
preceded by a search from its end for its start.  The search keeps no marks; it ends because
the graph that it goes over has no cycle yet.

Main results:

- Theorem {lit}`has_of_acyclic`: the search ends and decides whether there is a path.
- Theorem {lit}`acyclic_of_detect`: where no cycle is detected there is none.
- Theorem {lit}`detect_exact`: the detection ends and decides whether there is a cycle.
-/

namespace OFlux
namespace Frontend
namespace CycleFind

open Library
open Library.Saturation (Edge)

/-- What is raised: a cycle has been found, or the stack is too small for the descent. -/
inductive Raised where
  | cycle
  | stackOverflow
deriving DecidableEq, Repr

variable {α : Type} [DecidableEq α]

/-- The trees by their labels; successors are trees again, which stand for themselves by their
labels here. -/
abbrev TreeMap (α : Type) := List (α × List α)

/-- The successors of a tree. -/
def successors (tmap : TreeMap α) (i : α) : List α :=
  (tmap.lookup i).getD []

/-- A node without successors, unless it is there. -/
def addOrCreate (tmap : TreeMap α) (i : α) : TreeMap α :=
  match tmap.lookup i with
  | some _ => tmap
  | none => (i, []) :: tmap

/-- {lit}`add_succ`, on the tree with that label. -/
def addSucc (tmap : TreeMap α) (x y : α) : TreeMap α :=
  tmap.map fun entry => if entry.1 = x then (entry.1, y :: entry.2) else entry

/-- {lit}`List.exists` -/
def existsIn (p : α → Except Raised Bool) : List α → Except Raised Bool
  | [] => .ok false
  | a :: l => do
      if ← p a then return true
      else existsIn p l

/-- Is there a tree with the label {lit}`x` below the one with the label {lit}`y`?  The
recursion runs on a stack of a given depth. -/
def has (tmap : TreeMap α) : Nat → α → α → Except Raised Bool
  | 0, _, _ => .error .stackOverflow
  | depth + 1, x, y =>
      if x = y then .ok true
      else existsIn (has tmap depth x) (successors tmap y)

/-- {lit}`tfy` -/
def addEdge (depth : Nat) (tmap : TreeMap α) (edge : α × α) : Except Raised (TreeMap α) := do
  let tmap := addOrCreate tmap edge.1
  let tmap := addOrCreate tmap edge.2
  if ← has tmap depth edge.1 edge.2 then throw .cycle
  return addSucc tmap edge.1 edge.2

/-- All edges, added one after another. -/
def treeify (depth : Nat) (edgelist : List (α × α)) : Except Raised (TreeMap α) :=
  edgelist.foldlM (addEdge depth) []

/-- Whether the edges have a cycle. -/
def detect (depth : Nat) (edgelist : List (α × α)) : Except Raised Bool :=
  match treeify depth edgelist with
  | .ok _ => .ok false
  | .error .cycle => .ok true
  | .error .stackOverflow => .error .stackOverflow

/-! ## Successor lists -/

/-- There is an edge from the first node to the second one. -/
def Succ (tmap : TreeMap α) (a b : α) : Prop :=
  b ∈ successors tmap a

@[simp]
theorem successors_cons (i a : α) (tl : List α) (tmap : TreeMap α) :
    successors ((i, tl) :: tmap) a = if a = i then tl else successors tmap a := by
  unfold successors
  rw [List.lookup_cons]
  by_cases h : a = i
  · rw [if_pos h, beq_iff_eq.mpr h]
    rfl
  · rw [if_neg h, beq_eq_false_iff_ne.mpr h]

/-- Making a point adds no successor. -/
theorem successors_addOrCreate (tmap : TreeMap α) (i a : α) :
    successors (addOrCreate tmap i) a = successors tmap a := by
  unfold addOrCreate
  split
  · rfl
  next hnone =>
    rw [successors_cons]
    split
    next h => rw [h, successors, hnone, Option.getD_none]
    next => rfl

/-- Making the points of an edge adds none. -/
theorem succ_addOrCreate (tmap : TreeMap α) (edge : α × α) :
    Succ (addOrCreate (addOrCreate tmap edge.1) edge.2) = Succ tmap := by
  funext a b
  rw [Succ, successors_addOrCreate, successors_addOrCreate, Succ]

theorem acyclic_succ_nil : Acyclic (Succ ([] : TreeMap α)) := by
  intro a hcycle
  obtain ⟨b, hab, -⟩ := Relation.TransGen.head'_iff.mp hcycle
  cases hab

/-- The points after one was made. -/
theorem lookup_addOrCreate_isSome (tmap : TreeMap α) (i a : α) :
    ((addOrCreate tmap i).lookup a).isSome ↔ a = i ∨ (tmap.lookup a).isSome := by
  unfold addOrCreate
  split
  next hsome =>
    refine ⟨Or.inr, ?_⟩
    rintro (rfl | h)
    · rw [hsome]
      rfl
    · exact h
  next =>
    rw [SortedMap.lookup_cons]
    split
    next h => simp [h]
    next h => simp [h]

/-- The entries after a successor was added. -/
theorem lookup_addSucc (tmap : TreeMap α) (x y a : α) :
    (addSucc tmap x y).lookup a =
      (tmap.lookup a).map fun tl => if a = x then y :: tl else tl := by
  induction tmap with
  | nil => rfl
  | cons entry tmap ih =>
      unfold addSucc at ih ⊢
      rw [List.map_cons, SortedMap.lookup_cons, SortedMap.lookup_cons, ih]
      by_cases hx : entry.1 = x <;> by_cases ha : a = entry.1 <;> simp_all

/-- The successors after one was added. -/
theorem successors_addSucc {tmap : TreeMap α} {x : α} (y : α) (hx : (tmap.lookup x).isSome)
    (a : α) :
    successors (addSucc tmap x y) a =
      if a = x then y :: successors tmap a else successors tmap a := by
  unfold successors
  rw [lookup_addSucc]
  obtain ⟨tl, hx⟩ := Option.isSome_iff_exists.mp hx
  split
  next h =>
    rw [h, hx]
    rfl
  next => cases tmap.lookup a <;> rfl

/-- The trees with one more edge. -/
def withEdge (tmap : TreeMap α) (edge : α × α) : TreeMap α :=
  addSucc (addOrCreate (addOrCreate tmap edge.1) edge.2) edge.1 edge.2

/-- The edges after one was added. -/
theorem succ_withEdge_iff {tmap : TreeMap α} {edge : α × α} {a b : α} :
    Succ (withEdge tmap edge) a b ↔ AddEdge (Succ tmap) edge.1 edge.2 a b := by
  have hstart : ((addOrCreate (addOrCreate tmap edge.1) edge.2).lookup edge.1).isSome := by
    rw [lookup_addOrCreate_isSome, lookup_addOrCreate_isSome]
    exact Or.inr (Or.inl rfl)
  unfold Succ withEdge AddEdge
  rw [successors_addSucc _ hstart, successors_addOrCreate, successors_addOrCreate]
  split
  next h =>
    rw [List.mem_cons, or_comm]
    exact or_congr_right ⟨fun hb => ⟨h, hb⟩, And.right⟩
  next h => exact ⟨Or.inl, fun hb => hb.resolve_right fun hb => h hb.1⟩

/-- A map has finitely many successors. -/
theorem finite_succ (tmap : TreeMap α) : {b | ∃ a, Succ tmap a b}.Finite := by
  refine (List.finite_toSet (tmap.flatMap Prod.snd)).subset fun b hb => ?_
  obtain ⟨a, hab⟩ := hb
  unfold Succ successors at hab
  cases hlookup : tmap.lookup a with
  | none =>
      rw [hlookup] at hab
      cases hab
  | some tl =>
      rw [hlookup] at hab
      obtain ⟨l₁, l₂, htmap, -⟩ := List.lookup_eq_some_iff.mp hlookup
      refine List.mem_flatMap.mpr ⟨(a, tl), ?_, hab⟩
      rw [htmap]
      exact List.mem_append_right _ List.mem_cons_self

/-! ## The search -/

omit [DecidableEq α] in
/-- The search of a list finds what holds. -/
theorem existsIn_eq_ok {p : α → Except Raised Bool} {holds : α → Prop} {l : List α}
    (h : ∀ a ∈ l, ∃ b, p a = .ok b ∧ (b = true ↔ holds a)) :
    ∃ b, existsIn p l = .ok b ∧ (b = true ↔ ∃ a ∈ l, holds a) := by
  induction l with
  | nil => exact ⟨false, rfl, by simp⟩
  | cons a l ih =>
      obtain ⟨⟨b, hb, hholds⟩, hrest⟩ := List.forall_mem_cons.mp h
      unfold existsIn
      rw [hb]
      cases b with
      | true => exact ⟨true, rfl, by simp [hholds.mp rfl]⟩
      | false =>
          obtain ⟨b', hb', hrest⟩ := ih hrest
          have hnot : ¬ holds a := fun ha => Bool.false_ne_true (hholds.mpr ha)
          exact ⟨b', hb', by simp [hrest, hnot]⟩

/-- Without a cycle, the search ends on a stack that is deep enough, and says whether there is a
path.  The induction goes up from the trees that have no successors. -/
theorem has_of_acyclic {tmap : TreeMap α} (h : Acyclic (Succ tmap)) (x y : α) :
    ∀ᶠ depth in Filter.atTop, ∃ b, has tmap depth x y = .ok b ∧
      (b = true ↔ Relation.ReflTransGen (Succ tmap) y x) := by
  have hwf : WellFounded (Function.swap (Succ tmap)) :=
    (acyclic_swap_iff.mpr h).wellFounded (finite_succ tmap)
  induction y using hwf.induction with
  | _ y ih =>
    have hbelow : ∀ᶠ depth in Filter.atTop, ∀ z ∈ {z | Succ tmap y z},
        ∃ b, has tmap depth x z = .ok b ∧
          (b = true ↔ Relation.ReflTransGen (Succ tmap) z x) :=
      (Filter.eventually_all_finite (List.finite_toSet (successors tmap y))).mpr ih
    obtain ⟨bound, hbound⟩ := Filter.eventually_atTop.mp hbelow
    refine Filter.eventually_atTop.mpr ⟨bound + 1, fun depth hdepth => ?_⟩
    obtain ⟨depth, rfl⟩ := Nat.exists_eq_add_of_le' hdepth
    have hdepth : has tmap (depth + bound + 1) x y =
        if x = y then .ok true
        else existsIn (has tmap (depth + bound) x) (successors tmap y) := rfl
    rw [← Nat.add_assoc, hdepth]
    split
    next heq => exact ⟨true, rfl, by simp [heq, Relation.ReflTransGen.refl]⟩
    next hne =>
      obtain ⟨b, hb, hpath⟩ := existsIn_eq_ok (hbound (depth + bound) (Nat.le_add_left _ _))
      refine ⟨b, hb, hpath.trans ?_⟩
      rw [Relation.ReflTransGen.cases_head_iff, or_iff_right fun heq => hne heq.symm]
      rfl

omit [DecidableEq α] in
/-- A search that finds nothing tried everything. -/
theorem false_of_existsIn {p : α → Except Raised Bool} {l : List α}
    (h : existsIn p l = .ok false) : ∀ a ∈ l, p a = .ok false := by
  induction l with
  | nil => simp
  | cons a l ih =>
      unfold existsIn at h
      obtain ⟨b, hb, h⟩ := Fallible.bind_eq_ok.mp h
      cases b with
      | true => cases h
      | false => exact List.forall_mem_cons.mpr ⟨hb, ih h⟩

/-- On whatever stack, a search that finds nothing has looked everywhere. -/
theorem not_path_of_has {tmap : TreeMap α} {depth : Nat} {x y : α}
    (h : has tmap depth x y = .ok false) : ¬ Relation.ReflTransGen (Succ tmap) y x := by
  induction depth generalizing y with
  | zero => cases h
  | succ depth ih =>
      unfold has at h
      split at h
      · cases h
      next hne =>
        intro hpath
        rcases Relation.ReflTransGen.cases_head hpath with heq | ⟨z, hz, hpath⟩
        · exact hne heq.symm
        · exact ih (false_of_existsIn h z hz) hpath

/-! ## The edges one by one -/

/-- An edge that closes a cycle is found out, and the other ones are added. -/
theorem addEdge_of_acyclic {tmap : TreeMap α} (h : Acyclic (Succ tmap)) (edge : α × α) :
    ∀ᶠ depth in Filter.atTop,
      (Relation.ReflTransGen (Succ tmap) edge.2 edge.1 →
        addEdge depth tmap edge = .error .cycle) ∧
      (¬ Relation.ReflTransGen (Succ tmap) edge.2 edge.1 →
        addEdge depth tmap edge = .ok (withEdge tmap edge)) := by
  have hsearch := has_of_acyclic ((succ_addOrCreate tmap edge).symm ▸ h) edge.1 edge.2
  refine hsearch.mono fun depth hdepth => ?_
  obtain ⟨b, hb, hpath⟩ := hdepth
  rw [succ_addOrCreate] at hpath
  rw [← hpath]
  simp only [addEdge, hb]
  cases b with
  | true => exact ⟨fun _ => rfl, fun hnot => absurd rfl hnot⟩
  | false => exact ⟨fun htrue => absurd htrue Bool.false_ne_true, fun _ => rfl⟩

/-- The edges are added up to the one that closes a cycle. -/
theorem foldlM_addEdge {tmap : TreeMap α} (h : Acyclic (Succ tmap)) (edgelist : List (α × α)) :
    ∀ᶠ depth in Filter.atTop,
      (Acyclic (fun a b => Succ tmap a b ∨ Edge edgelist a b) →
        ∃ tmap', edgelist.foldlM (addEdge depth) tmap = .ok tmap') ∧
      (¬ Acyclic (fun a b => Succ tmap a b ∨ Edge edgelist a b) →
        edgelist.foldlM (addEdge depth) tmap = .error .cycle) := by
  induction edgelist generalizing tmap with
  | nil =>
      refine Filter.Eventually.of_forall fun depth => ⟨fun _ => ⟨tmap, rfl⟩, fun hnot => ?_⟩
      exact absurd (h.mono fun a b hab => hab.resolve_right List.not_mem_nil) hnot
  | cons edge edgelist ih =>
      by_cases hpath : Relation.ReflTransGen (Succ tmap) edge.2 edge.1
      · refine (addEdge_of_acyclic h edge).mono fun depth hdepth => ?_
        have hcycle : ¬ Acyclic (fun a b => Succ tmap a b ∨ Edge (edge :: edgelist) a b) := by
          intro hall
          refine (acyclic_addEdge_iff.mp (hall.mono fun a b hab => ?_)).2 hpath
          exact hab.imp_right fun hedge => List.mem_cons.mpr (Or.inl (Prod.ext hedge.1 hedge.2))
        refine ⟨fun hall => absurd hall hcycle, fun _ => ?_⟩
        rw [List.foldlM_cons, hdepth.1 hpath]
        rfl
      · have hacyclic : Acyclic (Succ (withEdge tmap edge)) := by
          refine (acyclic_addEdge_iff.mpr ⟨h, hpath⟩).mono fun a b => succ_withEdge_iff.mp
        have hrel : (fun a b => Succ (withEdge tmap edge) a b ∨ Edge edgelist a b) =
            fun a b => Succ tmap a b ∨ Edge (edge :: edgelist) a b := by
          funext a b
          rw [succ_withEdge_iff, AddEdge, or_assoc, Edge, Edge, List.mem_cons, Prod.ext_iff]
        have hrest := ih hacyclic
        rw [hrel] at hrest
        refine ((addEdge_of_acyclic h edge).and hrest).mono fun depth hdepth => ?_
        rw [List.foldlM_cons, hdepth.1.2 hpath]
        exact hdepth.2

/-- Edges that were all accepted form no cycle. -/
theorem acyclic_of_foldlM {tmap tmap' : TreeMap α} {depth : Nat} {edgelist : List (α × α)}
    (hacyclic : Acyclic (Succ tmap)) (h : edgelist.foldlM (addEdge depth) tmap = .ok tmap') :
    Acyclic fun a b => Succ tmap a b ∨ Edge edgelist a b := by
  induction edgelist generalizing tmap with
  | nil => exact hacyclic.mono fun a b hab => hab.resolve_right List.not_mem_nil
  | cons edge edgelist ih =>
      obtain ⟨tmap₁, hedge, h⟩ := Fallible.foldlM_cons_eq_ok.mp h
      unfold addEdge at hedge
      obtain ⟨found, hhas, hedge⟩ := Fallible.bind_eq_ok.mp hedge
      cases found with
      | true => cases hedge
      | false =>
          cases hedge
          have hpath := not_path_of_has hhas
          rw [succ_addOrCreate] at hpath
          have hnext : Acyclic (Succ (withEdge tmap edge)) :=
            (acyclic_addEdge_iff.mpr ⟨hacyclic, hpath⟩).mono fun a b => succ_withEdge_iff.mp
          refine (ih hnext h).mono fun a b hab => ?_
          rw [succ_withEdge_iff, AddEdge, or_assoc]
          exact hab.imp_right fun hedge => (List.mem_cons.mp hedge).imp_left Prod.ext_iff.mp

/-- Where no cycle is detected there is none, on whatever stack. -/
theorem acyclic_of_detect {depth : Nat} {edgelist : List (α × α)}
    (h : detect depth edgelist = .ok false) : Acyclic (Edge edgelist) := by
  unfold detect at h
  split at h
  next tmap htmap =>
    exact (acyclic_of_foldlM acyclic_succ_nil htmap).mono fun a b => Or.inr
  · cases h
  · cases h

/-- The detection ends on a stack that is deep enough, and says whether there is a cycle. -/
theorem detect_exact (edgelist : List (α × α)) :
    ∃ depth₀, ∀ depth ≥ depth₀, ∃ b, detect depth edgelist = .ok b ∧
      (b = true ↔ ∃ x, Relation.TransGen (Edge edgelist) x x) := by
  have hrel : (fun a b => Succ ([] : TreeMap α) a b ∨ Edge edgelist a b) = Edge edgelist := by
    funext a b
    exact propext (or_iff_right List.not_mem_nil)
  have hfold := foldlM_addEdge acyclic_succ_nil edgelist
  rw [hrel] at hfold
  refine Filter.eventually_atTop.mp (hfold.mono fun depth hdepth => ?_)
  unfold detect treeify
  by_cases hacyclic : Acyclic (Edge edgelist)
  · obtain ⟨tmap, htmap⟩ := hdepth.1 hacyclic
    rw [htmap]
    exact ⟨false, rfl, fun h => absurd h Bool.false_ne_true, fun ⟨x, hx⟩ => absurd hx (hacyclic x)⟩
  · rw [hdepth.2 hacyclic]
    exact ⟨true, rfl, fun _ => by simpa [Acyclic] using hacyclic, fun _ => rfl⟩

/-- A loop, an edge that is repeated, and two paths that meet again. -/
example : detect 3 [(1, 1)] = .ok true ∧ detect 3 [(1, 2), (1, 2)] = .ok false ∧
    detect 4 [(1, 2), (2, 4), (1, 3), (3, 4)] = .ok false := by
  decide

end CycleFind
end Frontend
end OFlux
