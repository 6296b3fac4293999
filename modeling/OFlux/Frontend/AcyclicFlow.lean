import OFlux.Frontend.Reductions
import OFlux.Library.Acyclic

/-!
# Flows without cycles

The flow of a program should be acyclic.  The builder sets one link after the other.  It looks for
cycles only on the path to the ends that it puts a member of a sequence behind, and not where a
link is set.

Main results:

- Theorem {lit}`acyclic_addExpr_iff`: exactly when an expression closes no cycle.
- Theorem {lit}`acyclic_fmap_iff`: exactly when the flow of a program is acyclic.
-/

namespace OFlux
namespace Frontend
namespace Flow

open Library Fallible
open Relation (ReflTransGen)
open TypeCheck (UnificationResult)

/-! ## Links -/

/-- The cells of the successors. -/
def successorCells : Node → List Cell
  | .source _ _ succ _ => [succ]
  | fl => links fl

/-- One node is a successor of the other. -/
def Leads (fmap : FlowMap) (a b : String) : Prop :=
  some b ∈ successorCells (deref fmap (some a))

/-- The edges after one node was written. -/
theorem leads_add {fmap : FlowMap} {x : String} {fl : Node} {a b : String} :
    Leads (fmap.add x fl) a b ↔
      if a = x then some b ∈ successorCells fl else Leads fmap a b := by
  unfold Leads
  rw [deref_add]
  split <;> rfl

theorem leads_add_of_ne {fmap : FlowMap} {x : String} {fl : Node} {a b : String} (h : a ≠ x) :
    Leads (fmap.add x fl) a b ↔ Leads fmap a b := by
  rw [leads_add, if_neg h]

theorem leads_add_self {fmap : FlowMap} {x : String} {fl : Node} {b : String} :
    Leads (fmap.add x fl) x b ↔ some b ∈ successorCells fl := by
  rw [leads_add, if_pos rfl]

/-- An empty cell leads nowhere. -/
theorem not_leads_of_null {fmap : FlowMap} {a b : String}
    (h : deref fmap (some a) = .nullNode) : ¬ Leads fmap a b := by
  rw [Leads, h]
  exact List.not_mem_nil

/-- The links while an expression of {lit}`e` is added: the node itself has the lines that it had
before. -/
def LeadsWith (e : String) (lines : List Cell) (fmap : FlowMap) (a b : String) : Prop :=
  if a = e then some b ∈ lines else Leads fmap a b

theorem leadsWith_self {e : String} {lines : List Cell} {fmap : FlowMap} {b : String} :
    LeadsWith e lines fmap e b ↔ some b ∈ lines := by
  rw [LeadsWith, if_pos rfl]

theorem leadsWith_of_ne {e a b : String} {lines : List Cell} {fmap : FlowMap} (h : a ≠ e) :
    LeadsWith e lines fmap a b ↔ Leads fmap a b := by
  rw [LeadsWith, if_neg h]

section

variable (e : String) (lines : List Cell)

/-- A link from {lit}`x` to {lit}`c` leads nowhere from where {lit}`x` is reached. -/
def Fits (fmap : FlowMap) (x : String) (c : Cell) : Prop :=
  x ≠ e → ∀ y, c = some y → ¬ ReflTransGen (LeadsWith e lines fmap) y x

/-- A node with lines has a flow. -/
def HasLines (fmap : FlowMap) : Prop :=
  lines = [] ∨ deref fmap (some e) ≠ .nullNode

variable {e lines}

/-- The flow of one node is replaced, and has at most one more link. -/
theorem acyclic_add_iff {fmap : FlowMap} {x : String} {fl : Node} {c : Cell}
    (hlines : HasLines e lines fmap)
    (hnew : ∀ b, some b ∈ successorCells fl → Leads fmap x b ∨ c = some b)
    (hadded : ∀ b, c = some b → some b ∈ successorCells fl)
    (hgone : ∀ b, Leads fmap x b →
      some b ∈ successorCells fl ∨ deref fmap (some b) = .nullNode) :
    Acyclic (LeadsWith e lines (fmap.add x fl)) ↔
      Acyclic (LeadsWith e lines fmap) ∧ Fits e lines fmap x c := by
  by_cases hx : x = e
  · have hsame : LeadsWith e lines (fmap.add x fl) = LeadsWith e lines fmap := by
      funext a b
      unfold LeadsWith
      split
      next => rfl
      next hne => exact propext (leads_add_of_ne (hx ▸ hne))
    rw [hsame]
    exact (and_iff_left fun hne => absurd hx hne).symm
  · have hstart : ∀ b, LeadsWith e lines fmap x b ↔ Leads fmap x b :=
      fun b => leadsWith_of_ne hx
    have hend : ∀ b, LeadsWith e lines (fmap.add x fl) x b ↔ some b ∈ successorCells fl :=
      fun b => (leadsWith_of_ne hx).trans leads_add_self
    refine (acyclic_replace_iff (x := x) (S := fun b => c = some b) ?_ ?_ ?_ ?_).trans
      (and_congr_right fun _ => ⟨fun h _ => h, fun h => h hx⟩)
    · intro a b ha
      unfold LeadsWith
      split
      next => rfl
      next => exact leads_add_of_ne ha
    · intro b hb
      rw [hstart]
      exact hnew b ((hend b).mp hb)
    · exact fun b hb => (hend b).mpr (hadded b hb)
    · intro b hb
      rw [hend]
      refine (hgone b ((hstart b).mp hb)).imp_right fun hnull d hbd => ?_
      unfold LeadsWith at hbd
      split at hbd
      next heq =>
        subst heq
        rw [hlines.resolve_right (not_not.mpr hnull)] at hbd
        exact List.not_mem_nil hbd
      next => exact not_leads_of_null hnull hbd

/-- Writing a node keeps the lines apart from the map. -/
theorem HasLines.add {fmap : FlowMap} {x : String} {fl : Node} (h : HasLines e lines fmap)
    (hfl : deref fmap (some x) ≠ .nullNode → fl ≠ .nullNode) :
    HasLines e lines (fmap.add x fl) := by
  refine h.imp_right fun hne => ?_
  rw [deref_add]
  split
  next heq => exact hfl (heq ▸ hne)
  next => exact hne

end

/-! ## The ends behind a member of a sequence -/

/-- The links after one was set. -/
theorem links_setLink {fl : Node} {i : Nat} (c : Cell) (h : i < (links fl).length) :
    links (setLink i c fl) = (links fl).set i c := by
  cases fl with
  | source | nullNode => exact absurd h (Nat.not_lt_zero i)
  | cNode name function succ err =>
      obtain rfl := Nat.lt_one_iff.mp h
      rfl
  | conExpr name succs => rfl
  | chExpr name lines =>
      refine List.ext_getElem? fun j => ?_
      simp only [links, setLink, List.getElem?_map, List.getElem?_modify, List.getElem?_set,
        List.length_map]
      by_cases hj : i = j
      · subst hj
        rw [links, List.length_map] at h
        simp [h]
      · simp [hj]

/-- A node with links has no other successors. -/
theorem successorCells_of_links {fl : Node} (h : links fl ≠ []) :
    successorCells fl = links fl := by
  cases fl with
  | source => exact absurd rfl h
  | _ => rfl

/-- Setting a link keeps the number of links. -/
theorem length_links_setLink (i : Nat) (c : Cell) (fl : Node) :
    (links (setLink i c fl)).length = (links fl).length := by
  cases fl <;> simp [links, setLink]

/-- Setting a link keeps a node filled. -/
theorem setLink_ne_nullNode {i : Nat} {c : Cell} {fl : Node} (h : fl ≠ .nullNode) :
    setLink i c fl ≠ .nullNode := by
  cases fl with
  | nullNode => exact absurd rfl h
  | _ => exact nofun

variable {e : String} {lines : List Cell} {rn : Cell}

/-- A link to an empty cell is replaced. -/
theorem acyclic_setLink_iff {fmap : FlowMap} {m : String} {i : Nat}
    (hlines : HasLines e lines fmap) (hi : i < (links (deref fmap (some m))).length)
    (hnull : deref fmap (((links (deref fmap (some m)))[i]?).getD none) = .nullNode) :
    Acyclic (LeadsWith e lines (fmap.add m (setLink i rn (deref fmap (some m))))) ↔
      Acyclic (LeadsWith e lines fmap) ∧ Fits e lines fmap m rn := by
  generalize hfl : deref fmap (some m) = fl at hi hnull
  have hold : successorCells fl = links fl :=
    successorCells_of_links (List.ne_nil_of_length_pos (Nat.zero_lt_of_lt hi))
  have hset : successorCells (setLink i rn fl) = (links fl).set i rn := by
    rw [successorCells_of_links, links_setLink rn hi]
    refine List.ne_nil_of_length_pos ?_
    rw [length_links_setLink]
    exact Nat.zero_lt_of_lt hi
  have hleads : ∀ b, Leads fmap m b ↔ some b ∈ links fl := by
    intro b
    rw [Leads, hfl, hold]
  refine acyclic_add_iff hlines (fun b hb => ?_) (fun b hb => ?_) fun b hb => ?_
  · rw [hset] at hb
    exact (List.mem_or_eq_of_mem_set hb).imp (hleads b).mpr Eq.symm
  · rw [hset, hb]
    exact List.mem_set hi (some b)
  · rw [hset]
    obtain ⟨j, hj⟩ := List.mem_iff_getElem?.mp ((hleads b).mp hb)
    by_cases hij : i = j
    · subst hij
      rw [hj] at hnull
      exact Or.inr hnull
    · refine Or.inl (List.mem_iff_getElem?.mpr ⟨j, ?_⟩)
      rw [List.getElem?_set_ne hij, hj]

/-- At one link the cell is set, or the search goes on behind it. -/
theorem addtoendAt_eq_ok {rec : FlowMap → Cell → Except Exn FlowMap} {m : String}
    {fmap fmap' : FlowMap} {i : Nat} (h : addtoendAt rec rn m fmap i = .ok fmap') :
    deref fmap (((links (deref fmap (some m)))[i]?).getD none) = .nullNode ∧
        fmap' = fmap.add m (setLink i rn (deref fmap (some m))) ∨
      deref fmap (((links (deref fmap (some m)))[i]?).getD none) ≠ .nullNode ∧
        rec fmap (((links (deref fmap (some m)))[i]?).getD none) = .ok fmap' := by
  unfold addtoendAt at h
  dsimp only at h
  split at h
  next hnull =>
    cases h
    exact Or.inl ⟨hnull, rfl⟩
  next hnull => exact Or.inr ⟨hnull, h⟩

/-- One level of the search for the ends. -/
theorem addtoend_succ_eq_ok {depth : Nat} {nll : List String} {fmap fmap' : FlowMap}
    {cell : Cell} (h : addtoend rn (depth + 1) nll fmap cell = .ok fmap') :
    deref fmap rn = .nullNode ∧ fmap' = fmap ∨
      deref fmap rn ≠ .nullNode ∧ ∃ m name, cell = some m ∧
        extensible (deref fmap cell) = some name ∧
        (List.range (links (deref fmap cell)).length).foldlM
          (addtoendAt (addtoend rn depth (name :: nll)) rn m) fmap = .ok fmap' := by
  unfold addtoend at h
  split at h
  next hnull =>
    cases h
    exact Or.inl ⟨hnull, rfl⟩
  next hnull =>
    refine Or.inr ⟨hnull, ?_⟩
    split at h
    next m name hname =>
      split at h
      · cases h
      · exact ⟨m, name, rfl, hname, h⟩
    next => cases h

/-- What setting a link preserves. -/
theorem addtoend_invariant {P : FlowMap → Prop}
    (hset : ∀ fmap m i, P fmap → P (fmap.add m (setLink i rn (deref fmap (some m)))))
    {depth : Nat} {nll : List String} {fmap fmap' : FlowMap} {cell : Cell}
    (h : addtoend rn depth nll fmap cell = .ok fmap') (hP : P fmap) : P fmap' := by
  induction depth generalizing nll fmap fmap' cell with
  | zero => cases h
  | succ depth ih =>
      rcases addtoend_succ_eq_ok h with ⟨-, rfl⟩ | ⟨-, m, name, -, -, h⟩
      · exact hP
      · refine foldlM_invariant h hP fun i _ fmap fmap' hP hstep => ?_
        rcases addtoendAt_eq_ok hstep with ⟨-, rfl⟩ | ⟨-, hstep⟩
        · exact hset fmap m i hP
        · exact ih hstep hP

/-- Setting a link keeps the lines apart from the map. -/
theorem HasLines.setLink {fmap : FlowMap} (h : HasLines e lines fmap) (m : String) (i : Nat) :
    HasLines e lines (fmap.add m (setLink i rn (deref fmap (some m)))) :=
  h.add setLink_ne_nullNode

/-- Setting a link keeps the number of links of every node. -/
theorem length_links_add_setLink (fmap : FlowMap) (m n : String) (i : Nat) :
    (links (deref (fmap.add m (setLink i rn (deref fmap (some m)))) (some n))).length =
      (links (deref fmap (some n))).length := by
  rw [deref_add]
  split
  next heq => rw [heq, length_links_setLink]
  next => rfl

section

variable (e lines rn)

/-- No link that is set at the ends behind a flow leads back. -/
def AddtoendFits : Nat → List String → FlowMap → Cell → Prop
  | 0, _, _, _ => True
  | depth + 1, nll, fmap, cell =>
      deref fmap rn ≠ .nullNode → ∀ m name, cell = some m →
        extensible (deref fmap cell) = some name →
        LoopMeets (addtoendAt (addtoend rn depth (name :: nll)) rn m)
          (fun fmap i =>
            let link := ((links (deref fmap (some m)))[i]?).getD none
            if deref fmap link = .nullNode then Fits e lines fmap m rn
            else AddtoendFits depth (name :: nll) fmap link)
          fmap (List.range (links (deref fmap cell)).length)

end

/-- Appending to the ends keeps the flow acyclic exactly when every link fits. -/
theorem acyclic_addtoend_iff {depth : Nat} {nll : List String} {fmap fmap' : FlowMap}
    {cell : Cell} (h : addtoend rn depth nll fmap cell = .ok fmap')
    (hlines : HasLines e lines fmap) :
    Acyclic (LeadsWith e lines fmap') ↔
      Acyclic (LeadsWith e lines fmap) ∧ AddtoendFits e lines rn depth nll fmap cell := by
  induction depth generalizing nll fmap fmap' cell with
  | zero => cases h
  | succ depth ih =>
      rcases addtoend_succ_eq_ok h with ⟨hnull, rfl⟩ | ⟨hrn, m, name, rfl, hname, h⟩
      · exact (and_iff_left fun hrn => absurd hnull hrn).symm
      · have hloop := foldlM_iff_loopMeets
          (I := fun fmap' => HasLines e lines fmap' ∧ (links (deref fmap' (some m))).length =
            (links (deref fmap (some m))).length)
          (P := fun fmap => Acyclic (LeadsWith e lines fmap))
          (C := fun fmap i =>
            let link := ((links (deref fmap (some m)))[i]?).getD none
            if deref fmap link = .nullNode then Fits e lines fmap m rn
            else AddtoendFits e lines rn depth (name :: nll) fmap link)
          h ⟨hlines, rfl⟩ ?_ ?_
        · rw [hloop]
          refine and_congr_right fun _ => ⟨fun h _ m' name' hm hname' => ?_, fun h => ?_⟩
          · cases hm
            cases hname.symm.trans hname'
            exact h
          · exact h hrn m name rfl hname
        · rintro i - s s' ⟨hlines, hlength⟩ hstep
          rcases addtoendAt_eq_ok hstep with ⟨-, rfl⟩ | ⟨-, hstep⟩
          · exact ⟨hlines.setLink m i, (length_links_add_setLink ..).trans hlength⟩
          · exact addtoend_invariant
              (P := fun s => HasLines e lines s ∧ (links (deref s (some m))).length =
                (links (deref fmap (some m))).length)
              (fun s m' i hs =>
                ⟨hs.1.setLink m' i, (length_links_add_setLink ..).trans hs.2⟩)
              hstep ⟨hlines, hlength⟩
        · rintro i hi s s' ⟨hlines, hlength⟩ hstep
          rcases addtoendAt_eq_ok hstep with ⟨hnull, rfl⟩ | ⟨hnull, hstep⟩
          · rw [if_pos hnull]
            exact acyclic_setLink_iff hlines (hlength ▸ List.mem_range.mp hi) hnull
          · rw [if_neg hnull]
            exact ih hstep hlines

/-! ## The members of a sequence -/

section

variable {symtable : SymbolTable} {depth : Nat} {n : String} {fmap fmap' : FlowMap}
  {isfirstconseq : Bool} {m : String}

/-- The members of a sequence are linked one after the other. -/
theorem commitConseq_cons (symtable : SymbolTable) (depth : Nat) (n : String) (fmap : FlowMap)
    (rn : Cell) (isfirstconseq : Bool) (m : String) (t : List String) :
    commitConseq symtable depth n fmap rn isfirstconseq (m :: t) =
      commitConseq symtable depth n fmap rn isfirstconseq [m] >>= fun fmap₁ =>
        commitConseq symtable depth n fmap₁ (some m) false t := by
  rw [commitConseq, commitConseq]
  cases hfl : getfl fmap m with
  | error _ => rfl
  | ok fl =>
      obtain rfl := getfl_eq_ok hfl
      cases hnd : lookupNode symtable m with
      | error _ => rfl
      | ok nd =>
          have hone : ∀ fmap₁ : Except Exn FlowMap,
              (fmap₁ >>= fun fmap₁ => commitConseq symtable depth n fmap₁ (some m) false t) =
                (fmap₁ >>= fun fmap₁ => commitConseq symtable depth n fmap₁ (some m) false []) >>=
                  fun fmap₁ => commitConseq symtable depth n fmap₁ (some m) false t := by
            intro fmap₁
            cases fmap₁ with
            | error _ => rfl
            | ok _ => rfl
          cases hcell : deref fmap (some m) with
          | cNode name function succ err =>
              by_cases hnull : deref fmap succ = .nullNode
              · simpa [hcell, hnull, bind, Except.bind] using hone (.ok _)
              · simp [hcell, hnull, bind, Except.bind]
          | nullNode =>
              cases isfirstconseq with
              | true => simpa [hcell, bind, Except.bind] using hone (.ok _)
              | false => simpa [hcell, bind, Except.bind] using hone (.ok _)
          | chExpr => simpa [hcell, bind, Except.bind] using hone _
          | conExpr => simpa [hcell, bind, Except.bind] using hone _
          | source => simp [hcell, bind, Except.bind]

/-- A sequence is committed member by member. -/
theorem commitConseq_cons_eq_ok {t : List String}
    (h : commitConseq symtable depth n fmap rn isfirstconseq (m :: t) = .ok fmap') :
    ∃ fmap₁, commitConseq symtable depth n fmap rn isfirstconseq [m] = .ok fmap₁ ∧
      commitConseq symtable depth n fmap₁ (some m) false t = .ok fmap' := by
  rw [commitConseq_cons] at h
  exact bind_eq_ok.mp h

/-- What is done for one member, by the flow that it has. -/
inductive Committed (depth : Nat) (n : String) (fmap : FlowMap) (rn : Cell) (isfirstconseq : Bool)
    (m : String) (fmap' : FlowMap) : Prop where
  | choice {name : String} {lines : List (List (Option String) × Cell)} :
      deref fmap (some m) = .chExpr name lines →
      addtoend rn depth [n] fmap (some m) = .ok fmap' →
      Committed depth n fmap rn isfirstconseq m fmap'
  | concurrent {name : String} {succs : List Cell} :
      deref fmap (some m) = .conExpr name succs →
      addtoend rn depth [n] fmap (some m) = .ok fmap' →
      Committed depth n fmap rn isfirstconseq m fmap'
  | last :
      deref fmap (some m) = .nullNode → isfirstconseq = true → fmap' = fmap →
      Committed depth n fmap rn isfirstconseq m fmap'
  | fresh {function : String} :
      deref fmap (some m) = .nullNode → isfirstconseq = false →
      fmap' = fmap.add m (.cNode m function rn none) →
      Committed depth n fmap rn isfirstconseq m fmap'
  | again {name function function' : String} {succ err : Cell} :
      deref fmap (some m) = .cNode name function succ err → deref fmap succ = .nullNode →
      fmap' = fmap.add m (.cNode m function' rn err) →
      Committed depth n fmap rn isfirstconseq m fmap'

/-- The ways in which one member is committed. -/
theorem committed_of_eq_ok
    (h : commitConseq symtable depth n fmap rn isfirstconseq [m] = .ok fmap') :
    Committed depth n fmap rn isfirstconseq m fmap' := by
  rw [commitConseq] at h
  obtain ⟨fl, hfl, h⟩ := bind_eq_ok.mp h
  obtain ⟨nd, _, h⟩ := bind_eq_ok.mp h
  obtain rfl := getfl_eq_ok hfl
  dsimp only at h
  split at h
  next hcell =>
    obtain ⟨fmap₁, hone, h⟩ := bind_eq_ok.mp h
    cases h
    exact .choice hcell hone
  next hcell =>
    obtain ⟨fmap₁, hone, h⟩ := bind_eq_ok.mp h
    cases h
    exact .concurrent hcell hone
  next hcell =>
    split at h
    next hfirst =>
      cases h
      exact .last hcell hfirst rfl
    next hfirst =>
      cases h
      exact .fresh hcell (Bool.eq_false_of_not_eq_true hfirst) rfl
  next hcell =>
    split at h
    next hnull =>
      cases h
      exact .again hcell hnull rfl
    next => cases h
  next => cases h

/-- What a member of a sequence is linked to leads nowhere from where the link is set. -/
def MemberFits (e : String) (lines : List Cell) (depth : Nat) (n : String) (fmap : FlowMap)
    (rn : Cell) (isfirstconseq : Bool) (m : String) : Prop :=
  match deref fmap (some m) with
  | .chExpr _ _ | .conExpr _ _ => AddtoendFits e lines rn depth [n] fmap (some m)
  | .nullNode => isfirstconseq = false → Fits e lines fmap m rn
  | .cNode _ _ _ _ => Fits e lines fmap m rn
  | .source _ _ _ _ => True

/-- A member keeps the flow acyclic exactly when it fits. -/
theorem Committed.acyclic_iff (h : Committed depth n fmap rn isfirstconseq m fmap')
    (hlines : HasLines e lines fmap) :
    Acyclic (LeadsWith e lines fmap') ↔
      Acyclic (LeadsWith e lines fmap) ∧ MemberFits e lines depth n fmap rn isfirstconseq m := by
  unfold MemberFits
  cases h with
  | choice hcell hone =>
      rw [hcell]
      exact acyclic_addtoend_iff hone hlines
  | concurrent hcell hone =>
      rw [hcell]
      exact acyclic_addtoend_iff hone hlines
  | last hcell hfirst heq =>
      rw [hcell, hfirst, heq]
      exact (and_iff_left nofun).symm
  | fresh hcell hfirst heq =>
      rw [hcell, heq, acyclic_add_iff (c := rn) hlines]
      · exact and_congr_right fun _ => ⟨fun h _ => h, fun h => h hfirst⟩
      · exact fun b hb => Or.inr (List.mem_singleton.mp hb).symm
      · exact fun b hb => List.mem_singleton.mpr hb.symm
      · exact fun b hb => absurd hb (not_leads_of_null hcell)
  | @again name function function' succ err hcell hnull heq =>
      rw [hcell, heq]
      refine acyclic_add_iff (c := rn) hlines ?_ ?_ ?_
      · exact fun b hb => Or.inr (List.mem_singleton.mp hb).symm
      · exact fun b hb => List.mem_singleton.mpr hb.symm
      · intro b hb
        rw [Leads, hcell] at hb
        obtain rfl : some b = succ := List.mem_singleton.mp hb
        exact Or.inr hnull

/-- A member keeps the lines apart from the map. -/
theorem Committed.hasLines (h : Committed depth n fmap rn isfirstconseq m fmap')
    (hlines : HasLines e lines fmap) : HasLines e lines fmap' := by
  cases h with
  | choice _ hone => exact addtoend_invariant (fun _ m i h => h.setLink m i) hone hlines
  | concurrent _ hone => exact addtoend_invariant (fun _ m i h => h.setLink m i) hone hlines
  | last _ _ heq => exact heq ▸ hlines
  | fresh _ _ heq =>
      rw [heq]
      exact hlines.add fun _ => nofun
  | again _ _ heq =>
      rw [heq]
      exact hlines.add fun _ => nofun

end

section

variable (e : String) (lines : List Cell) (symtable : SymbolTable) (depth : Nat) (n : String)

/-- No link between the members of a sequence leads back. -/
def CommitFits : FlowMap → Cell → Bool → List String → Prop
  | _, _, _, [] => True
  | fmap, rn, isfirstconseq, m :: t =>
      MemberFits e lines depth n fmap rn isfirstconseq m ∧
        ∀ fmap', commitConseq symtable depth n fmap rn isfirstconseq [m] = .ok fmap' →
          CommitFits fmap' (some m) false t

end

/-- A sequence keeps the flow acyclic exactly when every member fits. -/
theorem acyclic_commitConseq_iff {symtable : SymbolTable} {depth : Nat} {n : String}
    {fmap fmap' : FlowMap} {isfirstconseq : Bool} {members : List String}
    (h : commitConseq symtable depth n fmap rn isfirstconseq members = .ok fmap')
    (hlines : HasLines e lines fmap) :
    Acyclic (LeadsWith e lines fmap') ↔
      Acyclic (LeadsWith e lines fmap) ∧
        CommitFits e lines symtable depth n fmap rn isfirstconseq members := by
  induction members generalizing fmap rn isfirstconseq with
  | nil =>
      cases h
      exact (and_iff_left trivial).symm
  | cons m t ih =>
      obtain ⟨fmap₁, hone, h⟩ := commitConseq_cons_eq_ok h
      have hcommitted := committed_of_eq_ok hone
      rw [ih h (hcommitted.hasLines hlines), hcommitted.acyclic_iff hlines, CommitFits,
        forall_eq_ok_iff hone, and_assoc]

/-! ## Expressions and sources -/

section

variable {symtable : SymbolTable} {weakUnification : Bool} {depth : Nat}
variable {st st' : FlowMap × UnificationResult}

/-- The branches of a concurrent expression do not lead back to it. -/
def ConcurrentFits (fmap : FlowMap) (expr : Expr) : Prop :=
  ∀ y ∈ expr.successors, ¬ ReflTransGen (Leads fmap) y expr.exprname

/-- The members of a sequence do not lead back, and the first one not to the node of the
expression. -/
def ChoiceFits (symtable : SymbolTable) (depth : Nat) (fmap : FlowMap) (expr : Expr) : Prop :=
  ∀ n lines fmap', choiceLines fmap expr.exprname = .ok (n, lines) →
    commitConseq symtable depth n fmap none true expr.successors.reverse = .ok fmap' →
    CommitFits expr.exprname (lines.map Prod.snd) symtable depth n fmap none true
        expr.successors.reverse ∧
      ∀ y ∈ expr.successors.head?,
        ¬ ReflTransGen (LeadsWith expr.exprname (lines.map Prod.snd) fmap') y expr.exprname

/-- The links that an expression sets lead to no cycle, whichever kind it is. -/
def ExprFits (symtable : SymbolTable) (depth : Nat) (fmap : FlowMap) (expr : Expr) : Prop :=
  match expr.etype with
  | .concurrent => ConcurrentFits fmap expr
  | .choice => ChoiceFits symtable depth fmap expr

/-- An empty cell is filled. -/
theorem acyclic_fill_iff {fmap : FlowMap} {x : String} {fl : Node} {S : String → Prop}
    (hnull : deref fmap (some x) = .nullNode) (hfl : ∀ y, some y ∈ successorCells fl ↔ S y) :
    Acyclic (Leads (fmap.add x fl)) ↔
      Acyclic (Leads fmap) ∧ ∀ y, S y → ¬ ReflTransGen (Leads fmap) y x := by
  refine acyclic_replace_iff (S := S) (fun a b ha => leads_add_of_ne ha) ?_ ?_
    fun b hb => absurd hb (not_leads_of_null hnull)
  · exact fun b hb => Or.inr ((hfl b).mp (leads_add_self.mp hb))
  · exact fun b hb => leads_add_self.mpr ((hfl b).mpr hb)

/-- A concurrent expression keeps the flow acyclic exactly when it fits. -/
theorem acyclic_addConcurrentExpr_iff {expr : Expr}
    (h : addConcurrentExpr weakUnification symtable st expr = .ok st') :
    Acyclic (Leads st'.1) ↔ Acyclic (Leads st.1) ∧ ConcurrentFits st.1 expr := by
  obtain ⟨hnull, -, hst'⟩ := addConcurrentExpr_eq_ok h
  rw [hst']
  refine acyclic_fill_iff (S := fun y => y ∈ expr.successors) hnull fun y => ?_
  exact List.mem_map_of_injective (Option.some_injective _)

/-- The lines of before are those in the cell. -/
theorem leadsWith_eq {fmap : FlowMap} {n : String} {lines : List (List (Option String) × Cell)}
    (h : choiceLines fmap e = .ok (n, lines)) :
    LeadsWith e (lines.map Prod.snd) fmap = Leads fmap := by
  funext a b
  unfold LeadsWith
  split
  next heq =>
    rw [heq, Leads]
    rcases choiceLines_eq_ok h with ⟨hnull, -, rfl⟩ | hch
    · rw [hnull]
      rfl
    · rw [hch]
      rfl
  next => rfl

/-- A choice keeps the flow acyclic exactly when it fits. -/
theorem acyclic_addChoiceExpr_iff {expr : Expr}
    (h : addChoiceExpr weakUnification symtable depth st expr = .ok st') :
    Acyclic (Leads st'.1) ↔ Acyclic (Leads st.1) ∧ ChoiceFits symtable depth st.1 expr := by
  obtain ⟨firstN, n, lines, fmap, hfirst, hlines, hcommit, -, hst'⟩ := addChoiceExpr_eq_ok h
  have hhas : HasLines expr.exprname (lines.map Prod.snd) st.1 := by
    rcases choiceLines_eq_ok hlines with ⟨-, -, rfl⟩ | hch
    · exact Or.inl rfl
    · exact Or.inr (hch ▸ nofun)
  have hcommitted := acyclic_commitConseq_iff hcommit hhas
  rw [leadsWith_eq hlines] at hcommitted
  have hline : Acyclic (Leads st'.1) ↔
      Acyclic (LeadsWith expr.exprname (lines.map Prod.snd) fmap) ∧
        ∀ y, y = firstN →
          ¬ ReflTransGen (LeadsWith expr.exprname (lines.map Prod.snd) fmap) y expr.exprname := by
    rw [hst']
    refine acyclic_replace_iff (x := expr.exprname) (S := fun y => y = firstN) ?_ ?_ ?_ ?_
    · exact fun a b ha => (leads_add_of_ne ha).trans (leadsWith_of_ne ha).symm
    · intro b hb
      rw [leadsWith_self]
      rcases List.mem_cons.mp (leads_add_self.mp hb) with heq | hmem
      · exact Or.inr (Option.some.inj heq)
      · exact Or.inl hmem
    · rintro b rfl
      exact leads_add_self.mpr List.mem_cons_self
    · intro b hb
      exact Or.inl (leads_add_self.mpr (List.mem_cons_of_mem _ (leadsWith_self.mp hb)))
  rw [hline, hcommitted, and_assoc]
  refine and_congr_right fun _ => ⟨?_, fun hfits => ?_⟩
  · rintro ⟨hmembers, hhead⟩ n' lines' fmap' hlines' hcommit'
    cases hlines.symm.trans hlines'
    cases hcommit.symm.trans hcommit'
    refine ⟨hmembers, fun y hy => hhead y ?_⟩
    rw [hfirst] at hy
    exact (Option.mem_some_iff.mp hy).symm
  · obtain ⟨hmembers, hhead⟩ := hfits n lines fmap hlines hcommit
    refine ⟨hmembers, fun y hy => hhead y ?_⟩
    rw [hfirst, hy]
    rfl

/-- An expression closes no cycle exactly when its links lead nowhere from where they are set. -/
theorem acyclic_addExpr_iff {expr : Expr}
    (h : addExpr weakUnification symtable depth st expr = .ok st') :
    Acyclic (Leads st'.1) ↔ Acyclic (Leads st.1) ∧ ExprFits symtable depth st.1 expr := by
  unfold addExpr at h
  unfold ExprFits
  cases htype : expr.etype with
  | concurrent =>
      rw [htype] at h
      exact acyclic_addConcurrentExpr_iff h
  | choice =>
      rw [htype] at h
      exact acyclic_addChoiceExpr_iff h

/-- The successor of a source does not lead back to it. -/
def MainFits (fmap : FlowMap) (mainfun : MainFun) : Prop :=
  ∀ y ∈ mainfun.successor, ¬ ReflTransGen (Leads fmap) y mainfun.sourcename

/-- A source keeps the flow acyclic exactly when it fits. -/
theorem acyclic_addMainFn_iff {mainfun : MainFun}
    (h : addMainFn weakUnification symtable st mainfun = .ok st') :
    Acyclic (Leads st'.1) ↔ Acyclic (Leads st.1) ∧ MainFits st.1 mainfun := by
  obtain ⟨hnull, hst'⟩ := addMainFn_eq_ok h
  rw [hst']
  refine acyclic_fill_iff (S := fun y => y ∈ mainfun.successor) hnull fun y => ?_
  exact List.mem_singleton.trans eq_comm

/-- Nodes without an expression have no successors. -/
theorem leads_addNamed {fmap : FlowMap} {res : FlowMap × List String}
    (h : addNamed symtable fmap = .ok res) {a b : String} : Leads res.1 a b ↔ Leads fmap a b := by
  unfold addNamed at h
  obtain ⟨st, hst, h⟩ := bind_eq_ok.mp h
  cases h
  refine foldlM_invariant (P := fun st : FlowMap × List String =>
    ∀ a b, Leads st.1 a b ↔ Leads fmap a b) hst (fun _ _ => Iff.rfl)
    (fun entry hentry st st' hleads hstep => ?_) a b
  obtain ⟨_, _, hstep⟩ := bind_eq_ok.mp hstep
  split at hstep
  next hnull =>
    cases hstep
    intro a b
    have hcell : deref fmap (some entry.1) = .nullNode := by
      rw [deref_some, SortedMap.mem_entries_iff.mp hentry, hnull]
      rfl
    rw [leads_add]
    split
    next heq =>
      rw [heq]
      exact iff_of_false (by simp [successorCells, links]) (not_leads_of_null hcell)
    next => exact hleads a b
  next =>
    cases hstep
    exact hleads

/-- Setting the error handler keeps the successors. -/
theorem successorCells_setErr (hr : Cell) (fl : Node) :
    successorCells (setErr hr fl) = successorCells fl := by
  cases fl <;> rfl

/-- An error handler adds no edge. -/
theorem leads_addError {err : Err} (h : addError weakUnification symtable st err = .ok st')
    {a b : String} : Leads st'.1 a b ↔ Leads st.1 a b := by
  unfold addError at h
  obtain ⟨_, _, h⟩ := bind_eq_ok.mp h
  obtain ⟨_, _, h⟩ := bind_eq_ok.mp h
  refine foldlM_invariant (P := fun s : FlowMap × UnificationResult =>
    ∀ a b, Leads s.1 a b ↔ Leads st.1 a b) h (fun _ _ => Iff.rfl)
    (fun m _ s s' hleads hstep => ?_) a b
  intro a b
  rw [(addErrorOn_eq_ok hstep).2, leads_add]
  split
  next heq =>
    rw [successorCells_setErr, heq]
    exact hleads m b
  next => exact hleads a b

/-- The links are those after the sources. -/
theorem leads_of_stages {errs : List Err} {st₁ st₂ : FlowMap × UnificationResult}
    {res : FlowMap × List String} (hnamed : addNamed symtable st₁.1 = .ok res)
    (hst₂ : errs.foldlM (addError weakUnification symtable) (res.1, st₁.2) = .ok st₂)
    {a b : String} : Leads st₂.1 a b ↔ Leads st₁.1 a b := by
  have herrors := foldlM_invariant (P := fun st : FlowMap × UnificationResult =>
    ∀ a b, Leads st.1 a b ↔ Leads res.1 a b) hst₂ (fun _ _ => Iff.rfl)
    fun err _ s s' hleads hstep a b => (leads_addError hstep).trans (hleads a b)
  exact (herrors a b).trans (leads_addNamed hnamed)

end

/-! ## Whole programs -/

section

variable {weakUnification : Bool} {depth : Nat} {symtable : SymbolTable} {pr : Program}
  {built : BuiltFlow}

/-- No link that the builder sets leads back to where it starts, when it is set. -/
def BuildFits (weakUnification : Bool) (depth : Nat) (symtable : SymbolTable) (pr : Program) :
    Prop :=
  let start := (buildMap pr.nodeDeclList, [])
  LoopMeets (addExpr weakUnification symtable depth)
      (fun st expr => ExprFits symtable depth st.1 expr) start pr.exprList.reverse ∧
    ∀ st, pr.exprList.reverse.foldlM (addExpr weakUnification symtable depth) start = .ok st →
      LoopMeets (addMainFn weakUnification symtable)
        (fun st mainfun => MainFits st.1 mainfun) st pr.mainfunList

/-- The map begins with empty cells. -/
theorem deref_buildMap (decls : List NodeDecl) (cell : Cell) :
    deref (buildMap decls) cell = .nullNode := by
  cases cell with
  | none => rfl
  | some m =>
      suffices h : ∀ fmap : FlowMap, deref fmap (some m) = .nullNode →
          deref (decls.foldl (fun fmap nd => fmap.add nd.nodename .nullNode) fmap) (some m) =
            .nullNode from h _ rfl
      induction decls with
      | nil => exact fun _ h => h
      | cons nd decls ih =>
          intro fmap h
          refine ih _ ?_
          rw [deref_add]
          split
          · rfl
          · exact h

/-- The map begins acyclic. -/
theorem acyclic_buildMap (decls : List NodeDecl) : Acyclic (Leads (buildMap decls)) := by
  intro a hcycle
  obtain ⟨b, hab, -⟩ := Relation.TransGen.head'_iff.mp hcycle
  exact not_leads_of_null (deref_buildMap decls _) hab

/-- The flow of an accepted program is acyclic exactly when every link fitted. -/
theorem acyclic_fmap_iff (h : buildFlowMap weakUnification depth symtable pr = .ok built) :
    Acyclic (Leads built.fmap) ↔ BuildFits weakUnification depth symtable pr := by
  obtain ⟨st, st₁, symtable', res, st₂, hst, hst₁, hnamed, hst₂, hfmap⟩ := buildFlowMap_stages h
  have hsame : Leads built.fmap = Leads st₁.1 := by
    funext a b
    rw [hfmap]
    exact propext (leads_of_stages hnamed hst₂)
  have hsources := foldlM_iff_loopMeets (I := fun _ => True)
    (P := fun st : FlowMap × UnificationResult => Acyclic (Leads st.1))
    (C := fun st mainfun => MainFits st.1 mainfun) hst₁ trivial (fun _ _ _ _ _ _ => trivial)
    fun mainfun _ s s' _ hstep => acyclic_addMainFn_iff hstep
  have hexprs := foldlM_iff_loopMeets (I := fun _ => True)
    (P := fun st : FlowMap × UnificationResult => Acyclic (Leads st.1))
    (C := fun st expr => ExprFits symtable depth st.1 expr) hst trivial
    (fun _ _ _ _ _ _ => trivial) fun expr _ s s' _ hstep => acyclic_addExpr_iff hstep
  rw [hsame, hsources, hexprs, and_iff_right (acyclic_buildMap _)]
  refine and_congr_right fun _ => ?_
  rw [forall_eq_ok_iff hst]

end

end Flow
end Frontend
end OFlux
