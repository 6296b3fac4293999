import OFlux.Frontend.Flatten
import OFlux.Frontend.Flow
import OFlux.Library.Fallible

/-!
# Successors that are added to a node

A statement with {lit}`&=` adds a successor to a node that some other part of the program
defines.  Flattening turns the definition into a concurrent expression with the additional
successors in front, and the builder gives a concurrent expression branches without conditions.

Main results:

- Theorem {lit}`reduced_of_foldlM`: the definition of the node after all additions.
- Theorem {lit}`concurrent_buildFlowMap`: the flow that is built for the node.
- Theorem {lit}`addExpr_eq_ok`: the flow that is built for the definition alone.
- Theorem {lit}`onlyAdds_iff`: the branches of the original definition keep their conditions if
  and only if the definition has none.
-/

namespace OFlux
namespace Frontend
namespace Flow

open Library Fallible
open Flatten
open TypeCheck (UnificationResult partition onNotFound)

/-- The name starts with an ampersand. -/
def reduces (e : Expr) : Bool :=
  e.exprname.toList.head? = some '&'

/-- The statements that add to a node. -/
def reductionsOf (prog : Program) (n : String) : List Expr :=
  prog.exprList.filter fun e => reduces e && toExprname e = n

/-- The definition of a node; without one, it is a concurrent expression without successors. -/
def originalOf (prog : Program) (n : String) : Expr :=
  (prog.exprList.find? fun e => !reduces e && e.exprname = n).getD ⟨n, [], [], .concurrent⟩

/-! ## The reduced definition -/

/-- The test for a reduction, when it does not fail. -/
theorem isReduction_eq_ok {e : Expr} {b : Bool} (h : isReduction e = .ok b) : b = reduces e := by
  unfold isReduction at h
  unfold reduces
  cases hname : e.exprname.toList with
  | nil =>
      rw [hname] at h
      cases h
  | cons c _ =>
      rw [hname] at h
      cases h
      simp

/-- The reductions are split off from the other expressions. -/
theorem partition_isReduction {l ampers otherwise : List Expr}
    (h : partition isReduction l = .ok (ampers, otherwise)) :
    ampers = l.filter reduces ∧ otherwise = l.filter fun e => !reduces e := by
  induction l generalizing ampers otherwise with
  | nil =>
      cases h
      exact ⟨rfl, rfl⟩
  | cons e l ih =>
      rw [partition] at h
      obtain ⟨b, hb, h⟩ := bind_eq_ok.mp h
      obtain ⟨⟨yes, no⟩, hrest, h⟩ := bind_eq_ok.mp h
      obtain ⟨rfl, rfl⟩ := ih hrest
      obtain rfl := isReduction_eq_ok hb
      cases hred : reduces e with
      | true =>
          rw [hred] at h
          cases h
          simp [hred]
      | false =>
          rw [hred] at h
          cases h
          simp [hred]

/-- A handler that fails changes no success. -/
theorem onNotFound_error_eq_ok {α : Type} {body : Except Exn α} {e : Exn} {a : α} :
    onNotFound body (.error e) = .ok a ↔ body = .ok a := by
  unfold onNotFound
  split
  next =>
    constructor
    · intro h
      cases h
    · intro h
      cases h
  next => rfl

/-- What a definition has to be like when something is added to it. -/
def Accepted (e : Expr) : Prop :=
  e.etype = .concurrent ∨ e.successors.length ≤ 1

/-- The definitions of the other nodes. -/
def others (n : String) (ll : List Expr) : List Expr :=
  ll.filter fun e => e.exprname ≠ n

/-- The definition of a node in a list. -/
def definitionIn (n : String) (ll : List Expr) : Expr :=
  (ll.find? fun e => e.exprname = n).getD ⟨n, [], [], .concurrent⟩

/-- The definition of a name is taken out of the list. -/
theorem reducedExpr_eq_ok {n : String} {ll y : List Expr} {x : Expr}
    (h : reducedExpr n ll = .ok (x, y)) :
    x = definitionIn n ll ∧ x.exprname = n ∧ y = others n ll := by
  have hfind : (ll.find? fun e => e.exprname = n) =
      (ll.filter fun e => e.exprname = n).head? := List.head?_filter.symm
  have hothers : ll.filter (not ∘ fun e => decide (e.exprname = n)) = others n ll :=
    List.filter_congr fun e _ => by simp
  unfold reducedExpr at h
  rw [List.partition_eq_filter_filter, hothers] at h
  unfold definitionIn
  rw [hfind]
  split at h
  next x' y' heq =>
    obtain ⟨hfilter, rfl⟩ := Prod.mk.inj heq
    cases h
    have hmem : x ∈ ll.filter fun e => e.exprname = n := hfilter ▸ List.mem_cons_self
    rw [hfilter]
    exact ⟨rfl, of_decide_eq_true (List.mem_filter.mp hmem).2, rfl⟩
  next y' heq =>
    obtain ⟨hfilter, rfl⟩ := Prod.mk.inj heq
    cases h
    rw [hfilter]
    exact ⟨rfl, rfl, rfl⟩
  next => cases h

/-- A definition that passes the check can be added to. -/
theorem checkReduced_eq_ok {e : Expr} (h : checkReduced e = .ok ()) : Accepted e := by
  unfold checkReduced at h
  unfold Accepted
  split at h
  next hconcurrent => exact Or.inl hconcurrent
  next hnil _ => exact Or.inr (by simp [hnil])
  next hone _ => exact Or.inr (by simp [hone])
  next => cases h

/-- One addition. -/
theorem putIn_eq_ok {ll ll' : List Expr} {amp : Expr} (h : putIn ll amp = .ok ll') :
    Accepted (definitionIn (toExprname amp) ll) ∧
      ∃ e, e.exprname = toExprname amp ∧ e.etype = .concurrent ∧
        e.successors = amp.successors ++ (definitionIn (toExprname amp) ll).successors ∧
        ll' = e :: others (toExprname amp) ll := by
  unfold putIn reductionFailure at h
  obtain ⟨⟨x, y⟩, hx, h⟩ := bind_eq_ok.mp (onNotFound_error_eq_ok.mp h)
  obtain ⟨_, hcheck, h⟩ := bind_eq_ok.mp h
  obtain ⟨rfl, hname, rfl⟩ := reducedExpr_eq_ok hx
  cases h
  refine ⟨checkReduced_eq_ok hcheck, _, ?_, ?_, ?_, rfl⟩
  · exact hname
  · rfl
  · rfl

/-- The node is defined by one concurrent expression, behind concurrent expressions of other
nodes only. -/
structure Reduced (n : String) (ll : List Expr) (succs : List String) : Prop where
  split : ∃ front e back, ll = front ++ e :: back ∧ e.exprname = n ∧ e.etype = .concurrent ∧
    e.successors = succs ∧ ∀ x ∈ front, x.etype = .concurrent ∧ x.exprname ≠ n

/-- The successors of the definition. -/
theorem Reduced.definitionIn_successors {n : String} {ll : List Expr} {succs : List String}
    (h : Reduced n ll succs) : (definitionIn n ll).successors = succs := by
  obtain ⟨front, e, back, rfl, hname, -, rfl, hfront⟩ := h.split
  have hnone : (front.find? fun e => e.exprname = n) = none := by
    rw [List.find?_eq_none]
    exact fun x hx => by simpa using (hfront x hx).2
  rw [definitionIn, List.find?_append, hnone, Option.none_or,
    List.find?_cons_of_pos (by simpa using hname), Option.getD_some]

/-- An addition to the node itself. -/
theorem reduced_putIn_self {ll ll' : List Expr} {amp : Expr} (h : putIn ll amp = .ok ll') :
    Reduced (toExprname amp) ll'
      (amp.successors ++ (definitionIn (toExprname amp) ll).successors) := by
  obtain ⟨-, e, hname, hetype, hsuccs, rfl⟩ := putIn_eq_ok h
  exact ⟨[], e, _, rfl, hname, hetype, hsuccs, by simp⟩

/-- An addition to another node. -/
theorem Reduced.putIn_of_ne {n : String} {ll ll' : List Expr} {amp : Expr} {succs : List String}
    (hn : Reduced n ll succs) (h : putIn ll amp = .ok ll') (hne : toExprname amp ≠ n) :
    Reduced n ll' succs := by
  obtain ⟨-, e, hname, hetype, -, rfl⟩ := putIn_eq_ok h
  obtain ⟨front, d, back, rfl, hd, hdtype, hdsuccs, hfront⟩ := hn.split
  refine ⟨e :: others (toExprname amp) front, d, others (toExprname amp) back, ?_, hd, hdtype,
    hdsuccs, ?_⟩
  · unfold others
    rw [List.filter_append, List.filter_cons_of_pos (by simpa [hd] using hne.symm),
      List.cons_append]
  · refine List.forall_mem_cons.mpr ⟨⟨hetype, hname.symm ▸ hne⟩, fun x hx => ?_⟩
    exact hfront x (List.mem_filter.mp hx).1

theorem definitionIn_putIn_of_ne {n : String} {ll ll' : List Expr} {amp : Expr}
    (h : putIn ll amp = .ok ll') (hne : toExprname amp ≠ n) :
    definitionIn n ll' = definitionIn n ll := by
  obtain ⟨-, e, hname, -, -, rfl⟩ := putIn_eq_ok h
  unfold definitionIn others
  rw [List.find?_cons_of_neg (by simpa [hname] using hne), List.find?_filter]
  congr 2
  funext x
  by_cases hx : x.exprname = n
  · simp [hx, hne.symm]
  · simp [hx]

/-- What is added to a node, the last addition in front. -/
def additions (n : String) (ampers : List Expr) : List String :=
  (ampers.filter fun e => toExprname e = n).reverse.flatMap Expr.successors

theorem additions_cons_self (amp : Expr) (ampers : List Expr) :
    additions (toExprname amp) (amp :: ampers) =
      additions (toExprname amp) ampers ++ amp.successors := by
  simp [additions]

theorem additions_cons_of_ne {n : String} {amp : Expr} {ampers : List Expr}
    (hne : toExprname amp ≠ n) : additions n (amp :: ampers) = additions n ampers := by
  simp [additions, hne]

/-- All additions are put in, one after another. -/
theorem Reduced.foldlM {n : String} {ampers ll ll' : List Expr} {succs : List String}
    (hn : Reduced n ll succs) (h : ampers.foldlM putIn ll = .ok ll') :
    Reduced n ll' (additions n ampers ++ succs) := by
  induction ampers generalizing ll succs with
  | nil =>
      cases h
      exact hn
  | cons amp ampers ih =>
      obtain ⟨ll₁, hamp, h⟩ := foldlM_cons_eq_ok.mp h
      by_cases heq : toExprname amp = n
      · subst heq
        have hself := reduced_putIn_self hamp
        rw [hn.definitionIn_successors] at hself
        rw [additions_cons_self, List.append_assoc]
        exact ih hself h
      · rw [additions_cons_of_ne heq]
        exact ih (hn.putIn_of_ne hamp heq) h

/-- After all additions, if there are any for the node. -/
theorem reduced_of_foldlM {n : String} {ampers ll ll' : List Expr}
    (h : ampers.foldlM putIn ll = .ok ll') (hsome : ∃ amp ∈ ampers, toExprname amp = n) :
    Accepted (definitionIn n ll) ∧
      Reduced n ll' (additions n ampers ++ (definitionIn n ll).successors) := by
  induction ampers generalizing ll with
  | nil =>
      obtain ⟨_, hmem, -⟩ := hsome
      cases hmem
  | cons amp ampers ih =>
      obtain ⟨ll₁, hamp, h⟩ := foldlM_cons_eq_ok.mp h
      by_cases heq : toExprname amp = n
      · subst heq
        refine ⟨(putIn_eq_ok hamp).1, ?_⟩
        rw [additions_cons_self, List.append_assoc]
        exact (reduced_putIn_self hamp).foldlM h
      · have hrest : ∃ amp ∈ ampers, toExprname amp = n := by
          obtain ⟨amp', hmem, hname⟩ := hsome
          rcases List.mem_cons.mp hmem with rfl | hmem
          · exact absurd hname heq
          · exact ⟨amp', hmem, hname⟩
        rw [additions_cons_of_ne heq, ← definitionIn_putIn_of_ne hamp heq]
        exact ih h hrest

/-! ## Through the modules -/

/-- The empty path changes no name. -/
theorem prefixSp_empty (s : String) : prefixSp "" s = s := by
  unfold prefixSp
  split
  next rest heq =>
    rw [← String.toList_inj]
    simp [heq]
  next => rw [String.empty_append]

/-- The empty path changes no expression. -/
theorem forExpr_empty (e : Expr) : forExpr "" "" e = e := by
  have hitem : forCommaItem "" = id := by
    funext item
    cases item with
    | star => rfl
    | ident s => exact congrArg CommaItem.ident (prefixSp_empty s)
  have hname : prefixSp "" = id := funext prefixSp_empty
  unfold forExpr
  rw [hitem, hname, List.map_id, List.map_id]
  rfl

/-- The instances of modules come behind the expressions of the program itself. -/
theorem exprList_flatten {weakUnification : Bool} {depth : Nat} {prog flat : Program}
    (h : flatten weakUnification depth prog = .ok flat) :
    ∃ prog' more, removeReductions prog = .ok prog' ∧ flat.exprList = prog'.exprList ++ more := by
  unfold flatten at h
  obtain ⟨prog', hprog, h⟩ := bind_eq_ok.mp h
  refine ⟨prog', ?_⟩
  cases depth with
  | zero => cases h
  | succ depth =>
      rw [flt] at h
      obtain ⟨start, hstart, h⟩ := bind_eq_ok.mp h
      have hexprs : start.exprList = prog'.exprList := by
        unfold forProgram at hstart
        obtain ⟨_, _, hstart⟩ := bind_eq_ok.mp hstart
        cases hstart
        exact (List.map_congr_left fun e _ => forExpr_empty e).trans (List.map_id _)
      have hmore := foldlM_invariant (P := fun pr => ∃ more,
          pr.exprList = prog'.exprList ++ more) h ⟨[], hexprs.trans (List.append_nil _).symm⟩
        fun mi _ pr pr' hpr hinst => by
          obtain ⟨more, hpr⟩ := hpr
          unfold oninst at hinst
          obtain ⟨⟨_, _, _⟩, _, hinst⟩ := bind_eq_ok.mp hinst
          obtain ⟨_, _, hinst⟩ := bind_eq_ok.mp hinst
          obtain ⟨_, _, hinst⟩ := bind_eq_ok.mp hinst
          have hexprs := (joinInst_eq_ok hinst).exprList
          rw [hpr, List.append_assoc] at hexprs
          exact ⟨_, hexprs⟩
      obtain ⟨more, hmore⟩ := hmore
      exact ⟨more, hprog, hmore⟩

/-- The definition among the other expressions is the original. -/
theorem definitionIn_otherwise {prog : Program} {n : String} :
    definitionIn n (prog.exprList.filter fun e => !reduces e) = originalOf prog n := by
  unfold definitionIn originalOf
  simp only [List.find?_filter, Bool.decide_and, Bool.decide_eq_true]

/-- The definition of a node, as the builder gets it. -/
theorem reduced_flatten {weakUnification : Bool} {depth : Nat} {prog flat : Program} {n : String}
    (h : flatten weakUnification depth prog = .ok flat) (hn : reductionsOf prog n ≠ []) :
    Accepted (originalOf prog n) ∧
      Reduced n flat.exprList ((reductionsOf prog n).reverse.flatMap Expr.successors ++
        (originalOf prog n).successors) := by
  obtain ⟨prog', more, hprog, hflat⟩ := exprList_flatten h
  unfold removeReductions at hprog
  obtain ⟨⟨ampers, otherwise⟩, hpart, hprog⟩ := bind_eq_ok.mp hprog
  obtain ⟨exprs, hfold, hprog⟩ := bind_eq_ok.mp hprog
  cases hprog
  obtain ⟨rfl, rfl⟩ := partition_isReduction hpart
  have hampers : (prog.exprList.filter reduces).filter (fun e => toExprname e = n) =
      reductionsOf prog n := by
    rw [List.filter_filter]
    exact List.filter_congr fun e _ => Bool.and_comm _ _
  obtain ⟨amp, hamp⟩ := List.exists_mem_of_ne_nil _ hn
  rw [← hampers] at hamp
  obtain ⟨hmem, hname⟩ := List.mem_filter.mp hamp
  obtain ⟨haccepted, hreduced⟩ :=
    reduced_of_foldlM hfold ⟨amp, hmem, of_decide_eq_true hname⟩
  rw [definitionIn_otherwise] at haccepted hreduced
  rw [additions, hampers] at hreduced
  refine ⟨haccepted, ?_⟩
  obtain ⟨front, e, back, rfl, he⟩ := hreduced.split
  refine ⟨front, e, back ++ more, ?_, he⟩
  rw [hflat, List.append_assoc, List.cons_append]

/-! ## The flow in a cell -/

/-- The node behind a cell. -/
theorem deref_some (fmap : FlowMap) (n : String) :
    deref fmap (some n) = (fmap.find n).getD .nullNode :=
  rfl

/-- The nodes after one was written. -/
theorem deref_add (fmap : FlowMap) (n m : String) (fl : Node) :
    deref (fmap.add n fl) (some m) = if m = n then fl else deref fmap (some m) := by
  rw [deref_some, deref_some, SortedMap.find_add]
  split <;> rfl

/-- A name is its own cell. -/
theorem getfl_eq_ok {fmap : FlowMap} {n : String} {c : Cell} (h : getfl fmap n = .ok c) :
    c = some n := by
  unfold getfl at h
  split at h
  · cases h
    rfl
  · cases h

/-- A cell is in the map. -/
theorem find_of_getfl {fmap : FlowMap} {n : String} {c : Cell} (h : getfl fmap n = .ok c) :
    fmap.find n ≠ none := by
  intro hnone
  unfold getfl at h
  rw [hnone] at h
  cases h

/-- A node is found behind its cell. -/
theorem findCell_eq_ok {fmap : FlowMap} {n : String} {fl : Node}
    (h : findCell fmap n = .ok fl) : fl = deref fmap (some n) := by
  unfold findCell at h
  rw [deref_some]
  split at h
  next hfind =>
    cases h
    rw [hfind]
    rfl
  next => cases h

/-- Names are their own cells. -/
theorem mapM_getfl_eq_ok {fmap : FlowMap} {l : List String} {cells : List Cell}
    (h : l.mapM (getfl fmap) = .ok cells) : cells = l.map some := by
  induction mapM_eq_ok_iff.mp h with
  | nil => rfl
  | cons hhead hrest ih =>
      rw [List.map_cons, getfl_eq_ok hhead, ih (mapM_eq_ok_iff.mpr hrest)]

section

variable {weakUnification : Bool} {symtable : SymbolTable} {depth : Nat}
variable {st st' : FlowMap × UnificationResult}

/-- One concurrent expression. -/
theorem addConcurrentExpr_eq_ok {e : Expr}
    (h : addConcurrentExpr weakUnification symtable st e = .ok st') :
    deref st.1 (some e.exprname) = .nullNode ∧ (∀ s ∈ e.successors, st.1.find s ≠ none) ∧
      st'.1 = st.1.add e.exprname (.conExpr e.exprname (e.successors.map some)) := by
  unfold addConcurrentExpr at h
  obtain ⟨_, _, h⟩ := bind_eq_ok.mp h
  obtain ⟨_, hcell, h⟩ := bind_eq_ok.mp h
  obtain rfl := getfl_eq_ok hcell
  split at h
  next hnull =>
    obtain ⟨_, hsuccs, h⟩ := bind_eq_ok.mp h
    have hfound : ∀ s ∈ e.successors, st.1.find s ≠ none := by
      intro s hs
      obtain ⟨c, -, hc⟩ := exists_mem_of_mapM hsuccs s hs
      exact find_of_getfl hc
    obtain rfl := mapM_getfl_eq_ok hsuccs
    cases h
    exact ⟨hnull, hfound, rfl⟩
  next => cases h

/-- What the builder makes of a definition in an empty cell. -/
def flowOf (e : Expr) : Node :=
  match e.etype with
  | .concurrent => .conExpr e.exprname (e.successors.map some)
  | .choice =>
      .chExpr e.exprname
        [(e.condbinding.map convertCondPart, e.successors.head?)]

/-- The last part of {lit}`addChoiceExpr`. -/
theorem addLine_eq_ok {e : Expr} {firstN : String} {succs : List String}
    {unified : UnificationResult}
    (h : (do
        let (n, lines) ← choiceLines st.1 e.exprname
        let fmap ← commitConseq symtable depth n st.1 none true succs.reverse
        let head ← getfl fmap firstN
        return (fmap.add e.exprname
          (.chExpr n ((e.condbinding.map convertCondPart, head) :: lines)), unified)) =
      Except.ok st') :
    ∃ n lines fmap, choiceLines st.1 e.exprname = .ok (n, lines) ∧
      commitConseq symtable depth n st.1 none true succs.reverse = .ok fmap ∧
      fmap.find firstN ≠ none ∧ st'.1 = fmap.add e.exprname
        (.chExpr n ((e.condbinding.map convertCondPart, some firstN) :: lines)) := by
  obtain ⟨⟨n, lines⟩, hlines, h⟩ := bind_eq_ok.mp h
  obtain ⟨fmap, hcommit, h⟩ := bind_eq_ok.mp h
  obtain ⟨_, hcell, h⟩ := bind_eq_ok.mp h
  have hfound := find_of_getfl hcell
  obtain rfl := getfl_eq_ok hcell
  cases h
  exact ⟨n, lines, fmap, hlines, hcommit, hfound, rfl⟩

/-- One choice expression. -/
theorem addChoiceExpr_eq_ok {e : Expr}
    (h : addChoiceExpr weakUnification symtable depth st e = .ok st') :
    ∃ firstN n lines fmap, e.successors.head? = some firstN ∧
      choiceLines st.1 e.exprname = .ok (n, lines) ∧
      commitConseq symtable depth n st.1 none true e.successors.reverse = .ok fmap ∧
      fmap.find firstN ≠ none ∧ st'.1 = fmap.add e.exprname
        (.chExpr n ((e.condbinding.map convertCondPart, some firstN) :: lines)) := by
  unfold addChoiceExpr at h
  obtain ⟨_, _, h⟩ := bind_eq_ok.mp h
  cases hsuccs : e.successors with
  | nil =>
      simp only [hsuccs] at h
      cases h
  | cons firstN rest =>
      obtain ⟨lastN, hlast⟩ : ∃ lastN, e.successors.getLast? = some lastN :=
        ⟨_, List.getLast?_eq_some_getLast (hsuccs ▸ List.cons_ne_nil _ _)⟩
      rw [hlast, hsuccs] at h
      refine ⟨firstN, ?_⟩
      simp only [List.head?_cons, true_and]
      obtain ⟨_, _, h⟩ := bind_eq_ok.mp h
      obtain ⟨_, _, h⟩ := bind_eq_ok.mp h
      obtain ⟨_, _, h⟩ := bind_eq_ok.mp h
      obtain ⟨_, _, h⟩ := bind_eq_ok.mp h
      split at h
      · obtain ⟨_, _, h⟩ := bind_eq_ok.mp h
        exact addLine_eq_ok h
      · obtain ⟨_, _, h⟩ := bind_eq_ok.mp h
        exact addLine_eq_ok h

/-- The lines of an expression so far are those of its cell. -/
theorem choiceLines_eq_ok {fmap : FlowMap} {m n : String}
    {lines : List (List (Option String) × Cell)}
    (h : choiceLines fmap m = .ok (n, lines)) :
    deref fmap (some m) = .nullNode ∧ n = m ∧ lines = [] ∨
      deref fmap (some m) = .chExpr n lines := by
  unfold choiceLines at h
  obtain ⟨fl, hfind, h⟩ := bind_eq_ok.mp h
  obtain rfl := findCell_eq_ok hfind
  split at h
  next hnull =>
    cases h
    exact Or.inl ⟨hnull, rfl, rfl⟩
  next hch =>
    cases h
    exact Or.inr hch
  next => cases h

/-- The flow of an expression, when its name has no flow yet: as the builder leaves it there. -/
theorem addExpr_eq_ok {e : Expr} (h : addExpr weakUnification symtable depth st e = .ok st')
    (hnull : deref st.1 (some e.exprname) = .nullNode) :
    deref st'.1 (some e.exprname) = flowOf e := by
  unfold addExpr at h
  unfold flowOf
  cases htype : e.etype with
  | concurrent =>
      rw [htype] at h
      rw [(addConcurrentExpr_eq_ok h).2.2, deref_add, if_pos rfl]
  | choice =>
      rw [htype] at h
      obtain ⟨firstN, n, lines, fmap, hfirst, hlines, -, -, hst'⟩ := addChoiceExpr_eq_ok h
      rw [hst', deref_add, if_pos rfl, hfirst]
      rcases choiceLines_eq_ok hlines with ⟨-, rfl, rfl⟩ | hch
      · rfl
      · rw [hnull] at hch
        cases hch

/-- One source. -/
theorem addMainFn_eq_ok {mainfun : MainFun}
    (h : addMainFn weakUnification symtable st mainfun = .ok st') :
    deref st.1 (some mainfun.sourcename) = .nullNode ∧
      st'.1 = st.1.add mainfun.sourcename
        (.source mainfun.sourcename mainfun.sourcefunction mainfun.successor none) := by
  unfold addMainFn at h
  have key : ∀ (sfl : Cell) (unified : UnificationResult), (do
      let fl ← findCell st.1 mainfun.sourcename
      if fl = .nullNode then
        return (st.1.add mainfun.sourcename
          (.source mainfun.sourcename mainfun.sourcefunction sfl none), unified)
      else throw (.failure ("Source " ++ mainfun.sourcename ++ " already defined"))) =
        Except.ok st' → deref st.1 (some mainfun.sourcename) = .nullNode ∧
          st'.1 = st.1.add mainfun.sourcename
            (.source mainfun.sourcename mainfun.sourcefunction sfl none) := by
    intro sfl unified h
    obtain ⟨fl, hfl, h⟩ := bind_eq_ok.mp h
    obtain rfl := findCell_eq_ok hfl
    split at h
    next hnull =>
      cases h
      exact ⟨hnull, rfl⟩
    next => cases h
  cases hsucc : mainfun.successor with
  | none =>
      simp only [hsucc] at h
      exact key _ _ (onNotFound_error_eq_ok.mp h)
  | some succ =>
      simp only [hsucc] at h
      obtain ⟨_, _, h⟩ := bind_eq_ok.mp h
      obtain ⟨_, _, h⟩ := bind_eq_ok.mp (onNotFound_error_eq_ok.mp h)
      exact key _ _ h

/-- One node with an error handler. -/
theorem addErrorOn_eq_ok {hname m : String} {hcell : Cell}
    (h : addErrorOn weakUnification symtable hname hcell st m = .ok st') :
    deref st.1 (some m) ≠ .nullNode ∧
      st'.1 = st.1.add m (setErr hcell (deref st.1 (some m))) := by
  unfold addErrorOn at h
  obtain ⟨fl, hfl, h⟩ := bind_eq_ok.mp h
  obtain rfl := findCell_eq_ok (onNotFound_error_eq_ok.mp hfl)
  split at h
  next hcell =>
    split at h
    · obtain ⟨_, _, h⟩ := bind_eq_ok.mp h
      cases h
      exact ⟨hcell ▸ nofun, rfl⟩
    · cases h
  next hcell =>
    split at h
    · obtain ⟨_, _, h⟩ := bind_eq_ok.mp h
      cases h
      exact ⟨hcell ▸ nofun, rfl⟩
    · cases h
  next => cases h

/-! ## What keeps the flow of an expression -/

/-- The flow that an expression puts in a cell. -/
def OfExpr : Node → Prop
  | .chExpr _ _ | .conExpr _ _ => True
  | _ => False

/-- The flow of the node is that of a concurrent expression. -/
def Concurrent (n : String) (succs : List Cell) (fmap : FlowMap) : Prop :=
  deref fmap (some n) = .conExpr n succs

variable {x : String} {fl : Node}

/-- A node built from an expression is not an empty cell. -/
theorem ne_of_ofExpr {fmap : FlowMap} {m : String} (hfl : OfExpr fl)
    (hx : deref fmap (some x) = fl) (hm : deref fmap (some m) = .nullNode) : x ≠ m := by
  rintro rfl
  rw [← hx, hm] at hfl
  exact hfl

/-- Another concurrent expression leaves the node as it is. -/
theorem deref_addConcurrentExpr {e : Expr} (hfl : OfExpr fl) (hx : deref st.1 (some x) = fl)
    (h : addConcurrentExpr weakUnification symtable st e = .ok st') :
    deref st'.1 (some x) = fl := by
  obtain ⟨hnull, -, hst'⟩ := addConcurrentExpr_eq_ok h
  rw [hst', deref_add, if_neg (ne_of_ofExpr hfl hx hnull), hx]

/-- A source leaves the node as it is. -/
theorem deref_addMainFn {mainfun : MainFun} (hfl : OfExpr fl) (hx : deref st.1 (some x) = fl)
    (h : addMainFn weakUnification symtable st mainfun = .ok st') :
    deref st'.1 (some x) = fl := by
  obtain ⟨hnull, hst'⟩ := addMainFn_eq_ok h
  rw [hst', deref_add, if_neg (ne_of_ofExpr hfl hx hnull), hx]

/-- Filling the concrete nodes leaves the node as it is. -/
theorem deref_addNamed {fmap : FlowMap} {res : FlowMap × List String} (hfl : OfExpr fl)
    (hx : deref fmap (some x) = fl) (h : addNamed symtable fmap = .ok res) :
    deref res.1 (some x) = fl := by
  unfold addNamed at h
  obtain ⟨st, hst, h⟩ := bind_eq_ok.mp h
  cases h
  have hkept := foldlM_invariant
    (P := fun st : FlowMap × List String => deref st.1 (some x) = fl)
    hst hx fun entry hentry st st' hx' hstep => by
      obtain ⟨_, _, hstep⟩ := bind_eq_ok.mp hstep
      split at hstep
      next hnull =>
        have hfind := SortedMap.mem_entries_iff.mp hentry
        have hne : x ≠ entry.1 :=
          ne_of_ofExpr hfl hx (by rw [deref_some, hfind, hnull, Option.getD_some])
        cases hstep
        rw [deref_add, if_neg hne, hx']
      next =>
        cases hstep
        exact hx'
  exact hkept

/-- A node built from an expression has no error handler. -/
theorem setErr_of_ofExpr {hr : Cell} (hfl : OfExpr fl) : setErr hr fl = fl := by
  cases fl with
  | source | cNode => exact hfl.elim
  | chExpr | conExpr | nullNode => rfl

/-- An error handler leaves the node as it is. -/
theorem deref_addError {err : Err} (hfl : OfExpr fl) (hx : deref st.1 (some x) = fl)
    (h : addError weakUnification symtable st err = .ok st') :
    deref st'.1 (some x) = fl := by
  unfold addError at h
  obtain ⟨_, _, h⟩ := bind_eq_ok.mp h
  obtain ⟨_, _, h⟩ := bind_eq_ok.mp h
  refine foldlM_invariant (P := fun st => deref st.1 (some x) = fl) h hx
    fun m _ st st' hx' hstep => ?_
  rw [(addErrorOn_eq_ok hstep).2, deref_add]
  split
  next heq => rw [← heq, hx', setErr_of_ofExpr hfl]
  next => exact hx'

/-- The flow of an expression is not touched when sources, nodes without an expression and error
handlers are added. -/
theorem deref_of_stages {symtable' : SymbolTable} {mainfuns : List MainFun} {errs : List Err}
    {st st₁ st₂ : FlowMap × UnificationResult} {res : FlowMap × List String}
    (hst₁ : mainfuns.foldlM (addMainFn weakUnification symtable) st = .ok st₁)
    (hnamed : addNamed symtable' st₁.1 = .ok res)
    (hst₂ : errs.foldlM (addError weakUnification symtable') (res.1, st₁.2) = .ok st₂)
    (hfl : OfExpr fl) (hx : deref st.1 (some x) = fl) : deref st₂.1 (some x) = fl := by
  have hsources := foldlM_invariant
    (P := fun st : FlowMap × UnificationResult => deref st.1 (some x) = fl) hst₁ hx
    fun _ _ _ _ hx hstep => deref_addMainFn hfl hx hstep
  have hplain := deref_addNamed hfl hsources hnamed
  exact foldlM_invariant
    (P := fun st : FlowMap × UnificationResult => deref st.1 (some x) = fl) hst₂ hplain
    fun _ _ _ _ hx hstep => deref_addError hfl hx hstep

end

/-- The stages in which the flow is built. -/
theorem buildFlowMap_stages {weakUnification : Bool} {depth : Nat} {symtable : SymbolTable}
    {pr : Program} {built : BuiltFlow}
    (h : buildFlowMap weakUnification depth symtable pr = .ok built) :
    ∃ st st₁ symtable' res st₂,
      pr.exprList.reverse.foldlM (addExpr weakUnification symtable depth)
        (buildMap pr.nodeDeclList, []) = .ok st ∧
      pr.mainfunList.foldlM (addMainFn weakUnification symtable) st = .ok st₁ ∧
      addNamed symtable' st₁.1 = .ok res ∧
      pr.errList.foldlM (addError weakUnification symtable') (res.1, st₁.2) = .ok st₂ ∧
      built.fmap = st₂.1 := by
  unfold buildFlowMap at h
  obtain ⟨st, hst, h⟩ := bind_eq_ok.mp h
  obtain ⟨st₁, hst₁, h⟩ := bind_eq_ok.mp h
  obtain ⟨symtable', _, h⟩ := bind_eq_ok.mp h
  obtain ⟨res, hnamed, h⟩ := bind_eq_ok.mp h
  obtain ⟨_, _, h⟩ := bind_eq_ok.mp h
  obtain ⟨_, _, h⟩ := bind_eq_ok.mp h
  obtain ⟨st₂, hst₂, h⟩ := bind_eq_ok.mp h
  obtain ⟨_, _, h⟩ := bind_eq_ok.mp h
  obtain ⟨_, _, h⟩ := bind_eq_ok.mp h
  obtain ⟨_, _, h⟩ := bind_eq_ok.mp h
  obtain ⟨_, _, h⟩ := bind_eq_ok.mp h
  cases h
  exact ⟨st, st₁, symtable', res, st₂, hst, hst₁, hnamed, hst₂, rfl⟩

/-- The flow that is built for a node with additions. -/
theorem concurrent_buildFlowMap {weakUnification : Bool} {depth : Nat} {symtable : SymbolTable}
    {pr : Program} {built : BuiltFlow} {n : String} {succs : List String}
    (h : buildFlowMap weakUnification depth symtable pr = .ok built)
    (hn : Reduced n pr.exprList succs) :
    Concurrent n (succs.map some) built.fmap := by
  obtain ⟨front, e, back, hexprs, rfl, hetype, rfl, hfront⟩ := hn.split
  obtain ⟨st, st₁, symtable', res, st₂, hst, hst₁, hnamed, hst₂, hfmap⟩ := buildFlowMap_stages h
  rw [hfmap]
  -- the expressions are added from the last one to the first one
  rw [hexprs, List.reverse_append, List.reverse_cons, List.append_assoc,
    List.singleton_append] at hst
  obtain ⟨stBack, -, hst⟩ := foldlM_append_eq_ok.mp hst
  obtain ⟨stHere, hhere, hst⟩ := foldlM_cons_eq_ok.mp hst
  unfold addExpr at hhere
  rw [hetype] at hhere
  have hadded : Concurrent e.exprname (e.successors.map some) stHere.1 := by
    rw [(addConcurrentExpr_eq_ok hhere).2.2, Concurrent, deref_add, if_pos rfl]
  have hexprsAdded := foldlM_invariant
    (P := fun st => Concurrent e.exprname (e.successors.map some) st.1) hst hadded
    fun x hx st st' hst hstep => by
      unfold addExpr at hstep
      rw [(hfront x (List.mem_reverse.mp hx)).1] at hstep
      exact deref_addConcurrentExpr trivial hst hstep
  exact deref_of_stages hst₁ hnamed hst₂ trivial hexprsAdded

/-! ## What a node leads to -/

/-- Statements that add to a node only add: whatever the outputs of the node are, the additional
successors are taken, and besides them what its original definition takes. -/
def OnlyAdds (prog : Program) (n : String) (fmap : FlowMap) : Prop :=
  ∀ σ, (taken σ (deref fmap (some n))).Perm
    ((reductionsOf prog n).flatMap Expr.successors ++ taken σ (flowOf (originalOf prog n)))

/-- The definition of a node leads to its successors in any case. -/
def HasNoCondition (e : Expr) : Prop :=
  e.etype = .concurrent ∨ e.successors = [] ∨ ∀ item ∈ e.condbinding, item = .star

/-- A line of stars always holds. -/
theorem holds_convertCondPart {σ : Outcome} {items : List CommaItem}
    (h : ∀ item ∈ items, item = .star) : holds σ (items.map convertCondPart) = true := by
  unfold holds
  rw [List.all_eq_true]
  rintro ⟨c, i⟩ hc
  obtain ⟨item, hmem, rfl⟩ := List.mem_map.mp (List.fst_mem_of_mem_zipIdx hc)
  rw [h item hmem]
  rfl

/-- A condition that does not hold. -/
theorem not_holds_convertCondPart {items : List CommaItem}
    (h : holds (fun _ _ => false) (items.map convertCondPart) = true) :
    ∀ item ∈ items, item = .star := by
  unfold holds at h
  rw [List.all_eq_true] at h
  intro item hmem
  cases item with
  | star => rfl
  | ident s =>
      have hcond : some s ∈ items.map convertCondPart := List.mem_map_of_mem hmem
      obtain ⟨i, hi⟩ := List.mem_iff_getElem?.mp hcond
      exact absurd (h _ (List.mk_mem_zipIdx_iff_getElem?.mpr hi)) (by simp)

/-- The successors of an accepted definition are taken in any case if and only if it has no
condition. -/
theorem perm_taken_flowOf_iff {e : Expr} (h : Accepted e) :
    (∀ σ, e.successors.Perm (taken σ (flowOf e))) ↔ HasNoCondition e := by
  unfold flowOf HasNoCondition
  cases htype : e.etype with
  | concurrent => simp [taken]
  | choice =>
      have hle : e.successors.length ≤ 1 := h.resolve_left (by simp [htype])
      cases hsuccs : e.successors with
      | nil =>
          refine iff_of_true (fun σ => ?_) (Or.inr (Or.inl rfl))
          cases hholds : holds σ (e.condbinding.map convertCondPart) with
          | false => simp [taken, hholds]
          | true => simp [taken, hholds]
      | cons s rest =>
          obtain rfl : rest = [] := by
            rw [hsuccs, List.length_cons] at hle
            exact List.length_eq_zero_iff.mp (by omega)
          constructor
          · intro hperm
            refine Or.inr (Or.inr (not_holds_convertCondPart ?_))
            by_contra hfalse
            have hlen := (hperm fun _ _ => false).length_eq
            simp [taken, hfalse] at hlen
          · intro hcond σ
            have hstar : ∀ item ∈ e.condbinding, item = .star := by
              simpa using hcond
            simp [taken, holds_convertCondPart hstar]

/-- A node leads to a second one if its output is ready, and a statement adds a third one. -/
def gateProgram (item : CommaItem) : Program :=
  let x : DeclFormal := { ctypemod := "", ctype := "int", name := "x" }
  { condDeclList := [{ condname := "ready", condfunction := "ready", condinputs := [x] }]
    nodeDeclList := ["Gate", "Log", "Pass"].map fun n =>
      { nodename := n, nodefunction := n, inputs := [x], outputs := some [] }
    exprList := [⟨"Gate", [item], ["Pass"], .choice⟩, ⟨"&Gate", [], ["Log"], .concurrent⟩] }

/-- The symbol table of that program. -/
def gateTable (item : CommaItem) : SymbolTable :=
  (SymbolTable.addProgram (SortedMap.empty, 0) (gateProgram item)).1

/-- What the gate leads to, if no condition holds. -/
def gateTaken (item : CommaItem) : Except Exn (List String) := do
  let flat ← flatten false 1 (gateProgram item)
  let built ← buildFlowMap false 1 (gateTable item) flat
  return taken (fun _ _ => false) (deref built.fmap (some "Gate"))

/-- The condition of the successor is lost. -/
theorem not_onlyAdds_gate :
    ∃ flat built, flatten false 1 (gateProgram (.ident "ready")) = .ok flat ∧
      buildFlowMap false 1 (gateTable (.ident "ready")) flat = .ok built ∧
      Accepted (originalOf (gateProgram (.ident "ready")) "Gate") ∧
      ¬ OnlyAdds (gateProgram (.ident "ready")) "Gate" built.fmap := by
  have htaken : gateTaken (.ident "ready") = .ok ["Log", "Pass"] := by decide +kernel
  obtain ⟨flat, hflat, htaken⟩ := bind_eq_ok.mp htaken
  obtain ⟨built, hbuilt, htaken⟩ := bind_eq_ok.mp htaken
  refine ⟨flat, built, hflat, hbuilt, Or.inr (by decide), fun h => ?_⟩
  have hlen := (h fun _ _ => false).length_eq
  rw [Except.ok.inj htaken] at hlen
  exact absurd hlen (by decide)

/-- With additions, a node takes each successor of its definition under the conditions it has
there if and only if there are none. -/
theorem onlyAdds_iff {weakUnification : Bool} {depth depth' : Nat} {prog flat : Program}
    {symtable : SymbolTable} {built : BuiltFlow} {n : String}
    (hflat : flatten weakUnification depth prog = .ok flat)
    (hbuilt : buildFlowMap weakUnification depth' symtable flat = .ok built)
    (hn : reductionsOf prog n ≠ []) :
    OnlyAdds prog n built.fmap ↔ HasNoCondition (originalOf prog n) := by
  obtain ⟨haccepted, hreduced⟩ := reduced_flatten hflat hn
  have hcell := concurrent_buildFlowMap hbuilt hreduced
  have hadded : ((reductionsOf prog n).reverse.flatMap Expr.successors).Perm
      ((reductionsOf prog n).flatMap Expr.successors) :=
    (List.reverse_perm _).flatMap_right _
  rw [← perm_taken_flowOf_iff haccepted]
  refine forall_congr' fun σ => ?_
  have htaken : taken σ (deref built.fmap (some n)) =
      (reductionsOf prog n).reverse.flatMap Expr.successors ++
        (originalOf prog n).successors := by
    rw [hcell, taken, List.filterMap_map]
    exact List.filterMap_some
  rw [htaken, (hadded.append_right _).congr_left, List.perm_append_left_iff]

theorem onlyAdds_gate :
    ∃ flat built, flatten false 1 (gateProgram .star) = .ok flat ∧
      buildFlowMap false 1 (gateTable .star) flat = .ok built ∧
      OnlyAdds (gateProgram .star) "Gate" built.fmap := by
  have htaken : gateTaken .star = .ok ["Log", "Pass"] := by decide +kernel
  obtain ⟨flat, hflat, htaken⟩ := bind_eq_ok.mp htaken
  obtain ⟨built, hbuilt, -⟩ := bind_eq_ok.mp htaken
  exact ⟨flat, built, hflat, hbuilt, (onlyAdds_iff hflat hbuilt (by decide)).mpr
    (Or.inr (Or.inr (by decide)))⟩

end Flow
end Frontend
end OFlux
