import OFlux.Frontend.AcyclicFlow

/-!
# What stays in a cell

The builder links the members of a sequence in place, in cells that other expressions share, and
takes a cell for the end of a flow as long as it is empty: a link to an empty cell is replaced, and
nothing is put in front of an empty cell.

Main results:

- Theorem {lit}`addtoend_kept_iff`: exactly when no link is replaced behind an abstract member.
- Theorem {lit}`Committed.kept_iff`: exactly when a member of a sequence replaces nothing.
-/

namespace OFlux
namespace Frontend
namespace Flow

open Library Fallible
open Relation (ReflTransGen)
open TypeCheck (UnificationResult)

/-! ## What stays in a cell -/

/-- What a cell holds is still there.  An empty cell may be filled, and a choice may get lines in
front of those that it has. -/
def Stays : Node → Node → Prop
  | .nullNode, _ => True
  | .chExpr n lines, .chExpr n' lines' => n = n' ∧ lines <:+ lines'
  | .conExpr n succs, .conExpr n' succs' => n = n' ∧ succs = succs'
  | .cNode _ _ succ _, .cNode _ _ succ' _ => succ = succ'
  | .source _ _ succ _, .source _ _ succ' _ => succ = succ'
  | _, _ => False

theorem Stays.refl (fl : Node) : Stays fl fl := by
  cases fl with
  | chExpr => exact ⟨rfl, List.suffix_rfl⟩
  | conExpr => exact ⟨rfl, rfl⟩
  | source | cNode => exact rfl
  | nullNode => trivial

/-- With the same number of links, the links are the same. -/
theorem Stays.links_eq {fl fl' : Node} (h : Stays fl fl')
    (hlength : (links fl').length = (links fl).length) : links fl' = links fl := by
  cases fl with
  | nullNode => exact List.length_eq_zero_iff.mp hlength
  | source =>
      cases fl' with
      | source => rfl
      | _ => exact h.elim
  | cNode name function succ err =>
      cases fl' with
      | cNode name' function' succ' err' =>
          have hsucc : succ = succ' := h
          rw [links, links, hsucc]
      | _ => exact h.elim
  | conExpr name succs =>
      cases fl' with
      | conExpr name' succs' => rw [links, links, h.2]
      | _ => exact h.elim
  | chExpr name lines =>
      cases fl' with
      | chExpr name' lines' =>
          simp only [links, List.length_map] at hlength
          rw [links, links, h.2.eq_of_length hlength.symm]
      | _ => exact h.elim

/-- Nothing that a cell holds is replaced. -/
def Kept (fmap fmap' : FlowMap) : Prop :=
  ∀ x, Stays (deref fmap (some x)) (deref fmap' (some x))

theorem Kept.refl (fmap : FlowMap) : Kept fmap fmap :=
  fun _ => Stays.refl _

/-- Writing a node keeps the map when the node stays. -/
theorem kept_add_iff {fmap : FlowMap} {x : String} {fl : Node} :
    Kept fmap (fmap.add x fl) ↔ Stays (deref fmap (some x)) fl := by
  constructor
  · intro h
    have hx := h x
    rwa [deref_add, if_pos rfl] at hx
  · intro h y
    rw [deref_add]
    split
    next heq => exact heq ▸ h
    next => exact Stays.refl _

/-! ## The ends behind an abstract member -/

/-- No link that can be reached from the node leads to an empty cell. -/
def NothingEmptyBehind (fmap : FlowMap) (m : String) : Prop :=
  ∀ x, ReflTransGen (Leads fmap) m x → ∀ c ∈ links (deref fmap (some x)),
    deref fmap c ≠ .nullNode

/-- A link that can be reached from the node led to an empty cell, and has been replaced. -/
def ReplacedBehind (rn : Cell) (fmap : FlowMap) (m : String) (fmap' : FlowMap) : Prop :=
  ∃ (x : String) (i : Nat) (c : Cell), ReflTransGen (Leads fmap) m x ∧
    (links (deref fmap (some x)))[i]? = some c ∧ deref fmap c = .nullNode ∧
    (links (deref fmap' (some x)))[i]? = some rn

variable {rn : Cell}

/-- A link that is set again stays. -/
theorem getElem?_links_setLink {fl : Node} {i j : Nat}
    (h : (links fl)[i]? = some rn) : (links (setLink j rn fl))[i]? = some rn := by
  cases fl with
  | source | nullNode => exact h
  | cNode name function succ err =>
      obtain ⟨hi, -⟩ := List.getElem?_eq_some_iff.mp h
      obtain rfl := Nat.lt_one_iff.mp hi
      rfl
  | conExpr name succs =>
      by_cases hij : j = i
      · subst hij
        obtain ⟨hi, -⟩ := List.getElem?_eq_some_iff.mp h
        exact List.getElem?_set_self hi
      · exact (List.getElem?_set_ne hij).trans h
  | chExpr name lines =>
      simp only [links, setLink, List.getElem?_map, List.getElem?_modify,
        Option.map_eq_some_iff] at h ⊢
      obtain ⟨line, hline, rfl⟩ := h
      rw [hline]
      refine ⟨_, rfl, ?_⟩
      dsimp only
      split <;> rfl

/-- Links are replaced once. -/
theorem ReplacedBehind.setLink {fmap fmap' : FlowMap} {m : String}
    (h : ReplacedBehind rn fmap m fmap') (n : String) (j : Nat) :
    ReplacedBehind rn fmap m (fmap'.add n (setLink j rn (deref fmap' (some n)))) := by
  obtain ⟨x, i, c, hreach, hlink, hnull, hreplaced⟩ := h
  refine ⟨x, i, c, hreach, hlink, hnull, ?_⟩
  rw [deref_add]
  split
  next heq => exact getElem?_links_setLink (heq ▸ hreplaced)
  next => exact hreplaced

/-- Links lead on. -/
theorem leads_of_mem_links {fmap : FlowMap} {x y : String}
    (h : some y ∈ links (deref fmap (some x))) : Leads fmap x y := by
  rw [Leads, successorCells_of_links (List.ne_nil_of_mem h)]
  exact h

/-- A node that can be extended leads on by links. -/
theorem mem_links_of_leads {fmap : FlowMap} {x y name : String}
    (hname : extensible (deref fmap (some x)) = some name) (h : Leads fmap x y) :
    some y ∈ links (deref fmap (some x)) := by
  unfold Leads at h
  cases hcell : deref fmap (some x) with
  | source | nullNode =>
      rw [hcell] at hname
      cases hname
  | _ =>
      rw [hcell] at h
      exact h

/-- Either all ends are beyond what the builder looks at, or a link is replaced. -/
theorem addtoend_eq_self_or {depth : Nat} {nll : List String} {fmap fmap' : FlowMap} {m : String}
    (h : addtoend rn depth nll fmap (some m) = .ok fmap') (hrn : deref fmap rn ≠ .nullNode) :
    (fmap' = fmap ∧ NothingEmptyBehind fmap m) ∨ ReplacedBehind rn fmap m fmap' := by
  induction depth generalizing nll m fmap' with
  | zero => cases h
  | succ depth ih =>
      obtain ⟨hnull, -⟩ | ⟨-, m', name, hm, hname, h⟩ := addtoend_succ_eq_ok h
      · exact absurd hnull hrn
      cases hm
      have hloop := foldlM_eq_self_or (Q := ReplacedBehind rn fmap m)
        (A := fun i => ∃ y, (links (deref fmap (some m)))[i]? = some (some y) ∧
          deref fmap (some y) ≠ .nullNode ∧ NothingEmptyBehind fmap y) h ?_ ?_
      · refine hloop.imp_left fun ⟨heq, hall⟩ => ⟨heq, fun x hreach c hc => ?_⟩
        have hlink : ∀ c ∈ links (deref fmap (some m)), ∃ y, c = some y ∧
            deref fmap (some y) ≠ .nullNode ∧ NothingEmptyBehind fmap y := by
          intro c hc
          obtain ⟨i, hi⟩ := List.mem_iff_getElem?.mp hc
          obtain ⟨hlt, -⟩ := List.getElem?_eq_some_iff.mp hi
          obtain ⟨y, hy, hfilled⟩ := hall i (List.mem_range.mpr hlt)
          exact ⟨y, Option.some.inj (hi.symm.trans hy), hfilled⟩
        rcases hreach.cases_head with rfl | ⟨y, hstep, hreach⟩
        · obtain ⟨y, rfl, hfilled, -⟩ := hlink c hc
          exact hfilled
        · obtain ⟨y', hy', -, hbehind⟩ := hlink _ (mem_links_of_leads hname hstep)
          cases hy'
          exact hbehind x hreach c hc
      · intro i hi s' hstep
        obtain ⟨c, hc⟩ : ∃ c, (links (deref fmap (some m)))[i]? = some c :=
          ⟨_, List.getElem?_eq_getElem (List.mem_range.mp hi)⟩
        have hstep := addtoendAt_eq_ok hstep
        rw [hc, Option.getD_some] at hstep
        rcases hstep with ⟨hnull, rfl⟩ | ⟨hfilled, hstep⟩
        · refine Or.inr ⟨m, i, c, .refl, hc, hnull, ?_⟩
          rw [deref_add, if_pos rfl, links_setLink rn (List.mem_range.mp hi)]
          exact List.getElem?_set_self (List.mem_range.mp hi)
        · cases c with
          | none => exact absurd rfl hfilled
          | some y =>
              refine (ih hstep).imp (fun ⟨heq, hbehind⟩ => ⟨heq, y, hc, hfilled, hbehind⟩) ?_
              rintro ⟨x, j, c, hreach, hreplaced⟩
              have hstep := leads_of_mem_links (List.mem_iff_getElem?.mpr ⟨i, hc⟩)
              exact ⟨x, j, c, .head hstep hreach, hreplaced⟩
      · rintro i - s₁ s₂ hs₁ hstep
        rcases addtoendAt_eq_ok hstep with ⟨-, rfl⟩ | ⟨-, hstep⟩
        · exact hs₁.setLink m i
        · exact addtoend_invariant (fun s n j hs => hs.setLink n j) hstep hs₁

/-- An empty cell is not appended. -/
theorem addtoend_of_null {depth : Nat} {nll : List String} {fmap fmap' : FlowMap} {cell : Cell}
    (h : addtoend rn depth nll fmap cell = .ok fmap') (hrn : deref fmap rn = .nullNode) :
    fmap' = fmap := by
  cases depth with
  | zero => cases h
  | succ depth =>
      rcases addtoend_succ_eq_ok h with ⟨-, heq⟩ | ⟨hfilled, -⟩
      · exact heq
      · exact absurd hrn hfilled

/-- Appending keeps the number of links. -/
theorem length_links_addtoend {depth : Nat} {nll : List String} {fmap fmap' : FlowMap}
    {cell : Cell} (h : addtoend rn depth nll fmap cell = .ok fmap') (x : String) :
    (links (deref fmap' (some x))).length = (links (deref fmap (some x))).length :=
  addtoend_invariant (P := fun s => (links (deref s (some x))).length =
      (links (deref fmap (some x))).length)
    (fun _ _ _ hs => (length_links_add_setLink ..).trans hs) h rfl

/-- A link that has been replaced is not kept. -/
theorem ReplacedBehind.not_kept {fmap fmap' : FlowMap} {m : String}
    (h : ReplacedBehind rn fmap m fmap') (hrn : deref fmap rn ≠ .nullNode)
    (hlength : ∀ x, (links (deref fmap' (some x))).length =
      (links (deref fmap (some x))).length) : ¬ Kept fmap fmap' := by
  obtain ⟨x, i, c, -, hlink, hnull, hreplaced⟩ := h
  intro hkept
  rw [(hkept x).links_eq (hlength x), hlink] at hreplaced
  rw [Option.some.inj hreplaced] at hnull
  exact hrn hnull

section

variable {depth : Nat} {nll : List String} {fmap fmap' : FlowMap} {m : String}

/-- If no link behind the member leads to an empty cell, the builder does nothing. -/
theorem addtoend_eq_self (h : addtoend rn depth nll fmap (some m) = .ok fmap')
    (hm : deref fmap rn = .nullNode ∨ NothingEmptyBehind fmap m) : fmap' = fmap := by
  by_cases hrn : deref fmap rn = .nullNode
  · exact addtoend_of_null h hrn
  · rcases addtoend_eq_self_or h hrn with ⟨heq, -⟩ | ⟨x, i, c, hreach, hlink, hnull, -⟩
    · exact heq
    · have hbehind := hm.resolve_left hrn
      exact absurd hnull (hbehind x hreach c (List.mem_iff_getElem?.mpr ⟨i, hlink⟩))

/-- No link is replaced behind a member exactly if none leads to an empty cell, or the cell that is
put behind it is empty itself. -/
theorem addtoend_kept_iff (h : addtoend rn depth nll fmap (some m) = .ok fmap') :
    Kept fmap fmap' ↔ deref fmap rn = .nullNode ∨ NothingEmptyBehind fmap m := by
  constructor
  · intro hkept
    by_cases hrn : deref fmap rn = .nullNode
    · exact Or.inl hrn
    · rcases addtoend_eq_self_or h hrn with ⟨-, hbehind⟩ | hreplaced
      · exact Or.inr hbehind
      · exact absurd hkept (hreplaced.not_kept hrn (length_links_addtoend h))
  · intro hm
    rw [addtoend_eq_self h hm]
    exact Kept.refl fmap

end

/-! ## One member of a sequence -/

/-- A member can be put in front of a cell without replacing anything. -/
def MemberKeeps (fmap : FlowMap) (rn : Cell) (m : String) : Prop :=
  match deref fmap (some m) with
  | .chExpr _ _ | .conExpr _ _ => deref fmap rn = .nullNode ∨ NothingEmptyBehind fmap m
  | .cNode _ _ succ _ => succ = rn
  | .nullNode | .source _ _ _ _ => True

section

variable {depth : Nat} {n m : String} {fmap fmap' : FlowMap} {isfirstconseq : Bool}

/-- A member keeps the map exactly when its cells were free. -/
theorem Committed.kept_iff (h : Committed depth n fmap rn isfirstconseq m fmap') :
    Kept fmap fmap' ↔ MemberKeeps fmap rn m := by
  unfold MemberKeeps
  cases h with
  | choice hcell hone =>
      rw [hcell]
      exact addtoend_kept_iff hone
  | concurrent hcell hone =>
      rw [hcell]
      exact addtoend_kept_iff hone
  | last hcell _ heq =>
      rw [hcell, heq]
      exact iff_of_true (Kept.refl fmap) trivial
  | fresh hcell _ heq =>
      rw [heq, kept_add_iff, hcell]
      exact Iff.rfl
  | again hcell _ heq =>
      rw [heq, kept_add_iff, hcell]
      exact Iff.rfl

/-- An abstract member changes nothing, if it can be put in front of the cell. -/
theorem Committed.eq_self (h : Committed depth n fmap rn isfirstconseq m fmap')
    (hm : OfExpr (deref fmap (some m))) (hkeeps : MemberKeeps fmap rn m) : fmap' = fmap := by
  unfold MemberKeeps at hkeeps
  cases h with
  | choice hcell hone =>
      rw [hcell] at hkeeps
      exact addtoend_eq_self hone hkeeps
  | concurrent hcell hone =>
      rw [hcell] at hkeeps
      exact addtoend_eq_self hone hkeeps
  | last hcell | fresh hcell | again hcell =>
      rw [hcell] at hm
      exact hm.elim

end

end Flow
end Frontend
end OFlux
