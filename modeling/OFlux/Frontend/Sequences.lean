import OFlux.Frontend.FlowRecursions
import OFlux.Frontend.KeptCells

/-!
# Sequences

The members of a sequence should run one after the other, also where a member is a sequence, a
choice or a concurrent expression itself.

Main results:

- Theorem {lit}`reflects_exprs`: what the cells hold after the expressions, if nothing is replaced.
- Theorem {lit}`sequencesKept_iff`: exactly when the flow of a program keeps its sequences.
- Theorem {lit}`sequences_broken`: sequences that it does not keep.
-/

namespace OFlux
namespace Frontend
namespace Flow

open Library Fallible
open TypeCheck (UnificationResult)

variable {rn : Cell}

/-! ## What the cells hold -/

/-- The line of a choice expression. -/
def lineOf (e : Expr) : List (Option String) × Cell :=
  (e.condbinding.map convertCondPart, e.successors.head?)

/-- The lines of a node, in the order of the expressions. -/
def linesOf (exprs : List Expr) (n : String) : List (List (Option String) × Cell) :=
  (exprs.filter fun e => e.exprname = n).map lineOf

/-- One node is followed by the other in a sequence. -/
def FollowsIn (exprs : List Expr) (x y : String) : Prop :=
  ∃ e ∈ exprs, e.etype = .choice ∧ [x, y] <:+: e.successors

/-- The cell of {lit}`x` holds what the expressions say, where {lit}`F` tells which nodes follow
each other. -/
def Holds (exprs : List Expr) (F : String → String → Prop) (x : String) : Node → Prop
  | .nullNode => (∀ e ∈ exprs, e.exprname ≠ x) ∧ ∀ y, ¬ F x y
  | .cNode _ _ succ _ => (∀ e ∈ exprs, e.exprname ≠ x) ∧ ∃ y, succ = some y ∧ ∀ y', F x y' ↔ y' = y
  | .chExpr n lines => n = x ∧ lines = linesOf exprs x ∧
      (∀ e ∈ exprs, e.exprname = x → e.etype = .choice) ∧ ∃ e ∈ exprs, e.exprname = x
  | .conExpr n succs => n = x ∧
      (∀ e ∈ exprs, e.exprname = x → e.etype = .concurrent ∧ succs = e.successors.map some) ∧
      ∃ e ∈ exprs, e.exprname = x
  | .source _ _ _ _ => False

/-- Every cell is empty or agrees with the expressions that have been added. -/
def Reflects (exprs : List Expr) (F : String → String → Prop) (fmap : FlowMap) : Prop :=
  ∀ x, Holds exprs F x (deref fmap (some x))

section

variable {exprs : List Expr} {F F' : String → String → Prop} {x : String} {fl : Node}

theorem Holds.congr (h : Holds exprs F x fl) (hF : ∀ y, F' x y ↔ F x y) :
    Holds exprs F' x fl := by
  cases fl with
  | nullNode => exact ⟨h.1, fun y hy => h.2 y ((hF y).mp hy)⟩
  | cNode name function succ err =>
      obtain ⟨hnone, y, hsucc, hy⟩ := h
      exact ⟨hnone, y, hsucc, fun y' => (hF y').trans (hy y')⟩
  | chExpr | conExpr | source => exact h

theorem Reflects.congr {fmap : FlowMap} (h : Reflects exprs F fmap)
    (hF : ∀ x y, F' x y ↔ F x y) : Reflects exprs F' fmap :=
  fun x => (h x).congr (hF x)

/-- The flow of an expression says nothing about what follows the node. -/
theorem Holds.of_ofExpr (h : Holds exprs F x fl) (hfl : OfExpr fl) : Holds exprs F' x fl := by
  cases fl with
  | chExpr | conExpr => exact h
  | nullNode | cNode | source => exact hfl.elim

/-- A node is built from an expression when it has one. -/
theorem Holds.ofExpr_iff (h : Holds exprs F x fl) : OfExpr fl ↔ ∃ e ∈ exprs, e.exprname = x := by
  cases fl with
  | chExpr => exact iff_of_true trivial h.2.2.2
  | conExpr => exact iff_of_true trivial h.2.2
  | nullNode => exact iff_of_false id fun ⟨e, he, hname⟩ => h.1 e he hname
  | cNode => exact iff_of_false id fun ⟨e, he, hname⟩ => h.1 e he hname
  | source => exact h.elim

theorem Holds.cons_of_ne {e : Expr} (h : Holds exprs F x fl) (hne : e.exprname ≠ x) :
    Holds (e :: exprs) F x fl := by
  have hlines : linesOf (e :: exprs) x = linesOf exprs x := by simp [linesOf, hne]
  cases fl with
  | nullNode | cNode => exact ⟨List.forall_mem_cons.mpr ⟨hne, h.1⟩, h.2⟩
  | chExpr n lines =>
      obtain ⟨hn, heq, hall, e', he', hname⟩ := h
      exact ⟨hn, hlines ▸ heq, List.forall_mem_cons.mpr ⟨fun heq => absurd heq hne, hall⟩, e',
        List.mem_cons_of_mem e he', hname⟩
  | conExpr n succs =>
      obtain ⟨hn, hall, e', he', hname⟩ := h
      exact ⟨hn, List.forall_mem_cons.mpr ⟨fun heq => absurd heq hne, hall⟩, e',
        List.mem_cons_of_mem e he', hname⟩
  | source => exact h

/-- A node without an expression leads to what follows it. -/
theorem Reflects.leads_iff {fmap : FlowMap} {x y : String} (h : Reflects exprs F fmap)
    (hx : ∀ e ∈ exprs, e.exprname ≠ x) : Leads fmap x y ↔ F x y := by
  have hcell := h x
  cases hnode : deref fmap (some x) with
  | chExpr | conExpr =>
      obtain ⟨e, he, hname⟩ := hcell.ofExpr_iff.mp (hnode ▸ trivial)
      exact absurd hname (hx e he)
  | source =>
      rw [hnode] at hcell
      exact hcell.elim
  | nullNode =>
      rw [hnode] at hcell
      exact iff_of_false (not_leads_of_null hnode) (hcell.2 y)
  | cNode =>
      rw [hnode] at hcell
      obtain ⟨-, z, rfl, hz⟩ := hcell
      rw [hz, Leads, hnode]
      exact List.mem_singleton.trans Option.some_inj

/-- A choice has the lines of its name. -/
theorem Reflects.deref_choice {fmap : FlowMap} {e : Expr} (h : Reflects exprs F fmap)
    (he : e ∈ exprs) (htype : e.etype = .choice) :
    deref fmap (some e.exprname) = .chExpr e.exprname (linesOf exprs e.exprname) := by
  have hcell := h e.exprname
  cases hnode : deref fmap (some e.exprname) with
  | nullNode | cNode =>
      rw [hnode] at hcell
      exact absurd rfl (hcell.1 e he)
  | source =>
      rw [hnode] at hcell
      exact hcell.elim
  | conExpr =>
      rw [hnode] at hcell
      exact absurd (htype.symm.trans (hcell.2.1 e he rfl).1) nofun
  | chExpr =>
      rw [hnode] at hcell
      rw [hcell.1, hcell.2.1]

/-- A concurrent node has the successors of its expression. -/
theorem Reflects.deref_concurrent {fmap : FlowMap} {e : Expr} (h : Reflects exprs F fmap)
    (he : e ∈ exprs) (htype : e.etype = .concurrent) :
    deref fmap (some e.exprname) = .conExpr e.exprname (e.successors.map some) := by
  have hcell := h e.exprname
  cases hnode : deref fmap (some e.exprname) with
  | nullNode | cNode =>
      rw [hnode] at hcell
      exact absurd rfl (hcell.1 e he)
  | source =>
      rw [hnode] at hcell
      exact hcell.elim
  | chExpr =>
      rw [hnode] at hcell
      exact absurd (htype.symm.trans (hcell.2.2.1 e he rfl)) nofun
  | conExpr =>
      rw [hnode] at hcell
      rw [hcell.1, (hcell.2.1 e he rfl).2]

end

/-! ## The members of a sequence, from the last one to the first one -/

section

variable (symtable : SymbolTable) (depth : Nat) (n : String)

/-- No member replaces anything when it is linked to the next one. -/
def CommitKept : FlowMap → Cell → Bool → List String → Prop
  | _, _, _, [] => True
  | fmap, rn, isfirstconseq, m :: t =>
      ∀ fmap', commitConseq symtable depth n fmap rn isfirstconseq [m] = .ok fmap' →
        Kept fmap fmap' ∧ CommitKept fmap' (some m) false t

/-- Each member can be put in front of the next one. -/
def CommitKeeps : FlowMap → Cell → Bool → List String → Prop
  | _, _, _, [] => True
  | fmap, rn, isfirstconseq, m :: t =>
      MemberKeeps fmap rn m ∧
        ∀ fmap', commitConseq symtable depth n fmap rn isfirstconseq [m] = .ok fmap' →
          CommitKeeps fmap' (some m) false t

end

section

variable {symtable : SymbolTable} {depth : Nat} {n m : String} {fmap fmap' : FlowMap}
  {isfirstconseq : Bool} {exprs : List Expr} {F : String → String → Prop}

/-- One more member in front of a cell. -/
theorem Reflects.committed (hF : Reflects exprs F fmap)
    (h : Committed depth n fmap rn isfirstconseq m fmap') (hkeeps : MemberKeeps fmap rn m)
    (hfirst : isfirstconseq = rn.isNone) :
    Reflects exprs (fun x y => F x y ∨ x = m ∧ rn = some y) fmap' := by
  have hothers : ∀ x, x ≠ m → ∀ y, (F x y ∨ x = m ∧ rn = some y) ↔ F x y :=
    fun x hx y => or_iff_left fun hboth => hx hboth.1
  have hadd : ∀ fl, Holds exprs (fun x y => F x y ∨ x = m ∧ rn = some y) m fl →
      Reflects exprs (fun x y => F x y ∨ x = m ∧ rn = some y) (fmap.add m fl) := by
    intro fl hfl x
    rw [deref_add]
    split
    next heq => exact heq ▸ hfl
    next hne => exact (hF x).congr (hothers x hne)
  have hm := hF m
  by_cases hofExpr : OfExpr (deref fmap (some m))
  · rw [h.eq_self hofExpr hkeeps]
    intro x
    by_cases hx : x = m
    · subst hx
      exact hm.of_ofExpr hofExpr
    · exact (hF x).congr (hothers x hx)
  · unfold MemberKeeps at hkeeps
    cases h with
    | choice hcell | concurrent hcell => exact absurd (hcell ▸ trivial) hofExpr
    | last hcell hlast heq =>
        rw [heq]
        obtain rfl : rn = none := Option.isNone_iff_eq_none.mp (hfirst.symm.trans hlast)
        exact hF.congr fun x y => or_iff_left fun hboth => nomatch hboth.2
    | fresh hcell hlast heq =>
        rw [hcell] at hm
        obtain ⟨y, rfl⟩ : ∃ y, rn = some y := by
          rw [← Option.isSome_iff_exists, ← Option.not_isNone, ← hfirst, hlast]
          rfl
        rw [heq]
        refine hadd _ ⟨hm.1, y, rfl, fun y' => ?_⟩
        simp [hm.2 y', eq_comm]
    | again hcell _ heq =>
        rw [hcell] at hm hkeeps
        obtain ⟨hnone, y, hsucc, hy⟩ := hm
        obtain rfl : rn = some y := Eq.trans (Eq.symm hkeeps) hsucc
        rw [heq]
        refine hadd _ ⟨hnone, y, rfl, fun y' => ?_⟩
        simp [hy y', eq_comm]

/-- All members: nothing is replaced exactly if each of them can be put in front of the next one,
and then each is followed by the next one. -/
theorem reflects_commitConseq {members : List String}
    (h : commitConseq symtable depth n fmap rn isfirstconseq members = .ok fmap')
    (hF : Reflects exprs F fmap) (hfirst : isfirstconseq = rn.isNone) :
    (CommitKept symtable depth n fmap rn isfirstconseq members ↔
        CommitKeeps symtable depth n fmap rn isfirstconseq members) ∧
      (CommitKeeps symtable depth n fmap rn isfirstconseq members →
        Reflects exprs (fun x y => F x y ∨ [y, x] <:+: rn.toList ++ members) fmap') := by
  induction members generalizing fmap rn isfirstconseq F with
  | nil =>
      cases h
      refine ⟨Iff.rfl, fun _ => hF.congr fun x y => or_iff_left fun hin => ?_⟩
      have hlength := hin.length_le
      cases rn <;> simp at hlength
  | cons m t ih =>
      obtain ⟨fmap₁, hone, h⟩ := commitConseq_cons_eq_ok h
      have hcommitted := committed_of_eq_ok hone
      rw [CommitKept, CommitKeeps, forall_eq_ok_iff hone, forall_eq_ok_iff hone,
        hcommitted.kept_iff]
      have hrest := fun hm => ih h (hF.committed hcommitted hm hfirst) rfl
      refine ⟨and_congr_right fun hm => (hrest hm).1, fun ⟨hm, ht⟩ => ?_⟩
      refine ((hrest hm).2 ht).congr fun x y => ?_
      have hin : [y, x] <:+: rn.toList ++ m :: t ↔
          x = m ∧ rn = some y ∨ [y, x] <:+: (some m).toList ++ t := by
        cases rn with
        | none => simp
        | some r =>
            rw [Option.toList_some, Option.toList_some, List.singleton_append,
              List.singleton_append, List.infix_cons_iff, List.cons_prefix_cons,
              List.cons_prefix_cons]
            simp [eq_comm, and_comm]
      rw [hin, or_assoc]

end

/-! ## The expressions -/

section

variable (weakUnification : Bool) (symtable : SymbolTable) (depth : Nat)

/-- Nothing that a cell holds is replaced when an expression is added, neither by one of its
members nor by its line. -/
def ExprKept (st : FlowMap × UnificationResult) (expr : Expr) : Prop :=
  ∀ st', addExpr weakUnification symtable depth st expr = .ok st' →
    match expr.etype with
    | .concurrent => Kept st.1 st'.1
    | .choice => ∀ n lines fmap, choiceLines st.1 expr.exprname = .ok (n, lines) →
        commitConseq symtable depth n st.1 none true expr.successors.reverse = .ok fmap →
        CommitKept symtable depth n st.1 none true expr.successors.reverse ∧ Kept fmap st'.1

/-- Each member of a sequence can be put in front of the next one, and none of them takes the empty
cell of the expression itself. -/
def ChoiceKeeps (fmap : FlowMap) (expr : Expr) : Prop :=
  (∀ n lines, choiceLines fmap expr.exprname = .ok (n, lines) →
    CommitKeeps symtable depth n fmap none true expr.successors.reverse) ∧
  (deref fmap (some expr.exprname) = .nullNode →
    ∀ y, ¬ [expr.exprname, y] <:+: expr.successors)

/-- An expression of a choice keeps the sequences if its lines do. -/
def ExprKeeps (fmap : FlowMap) (expr : Expr) : Prop :=
  match expr.etype with
  | .concurrent => True
  | .choice => ChoiceKeeps symtable depth fmap expr

end

section

variable {weakUnification : Bool} {symtable : SymbolTable} {depth : Nat} {exprs : List Expr}
  {e : Expr} {st st' : FlowMap × UnificationResult}

theorem linesOf_cons_self (e : Expr) (exprs : List Expr) :
    linesOf (e :: exprs) e.exprname = lineOf e :: linesOf exprs e.exprname := by
  simp [linesOf]

theorem linesOf_eq_nil {x : String} (h : ∀ e ∈ exprs, e.exprname ≠ x) : linesOf exprs x = [] := by
  simpa [linesOf] using h

/-- What follows what with one more sequence. -/
theorem followsIn_cons_choice (htype : e.etype = .choice) (x y : String) :
    FollowsIn (e :: exprs) x y ↔ FollowsIn exprs x y ∨ [x, y] <:+: e.successors := by
  simp [FollowsIn, htype, or_comm]

/-- A concurrent expression orders nothing. -/
theorem followsIn_cons_concurrent (htype : e.etype = .concurrent) (x y : String) :
    FollowsIn (e :: exprs) x y ↔ FollowsIn exprs x y := by
  simp [FollowsIn, htype]

/-- A concurrent expression fills an empty cell. -/
theorem reflects_addConcurrentExpr (hF : Reflects exprs (FollowsIn exprs) st.1)
    (htype : e.etype = .concurrent)
    (h : addConcurrentExpr weakUnification symtable st e = .ok st') :
    Kept st.1 st'.1 ∧ Reflects (e :: exprs) (FollowsIn (e :: exprs)) st'.1 := by
  obtain ⟨hnull, -, hst'⟩ := addConcurrentExpr_eq_ok h
  have hself := hF e.exprname
  rw [hnull] at hself
  rw [hst']
  refine ⟨kept_add_iff.mpr (hnull ▸ trivial), fun x => ?_⟩
  rw [deref_add]
  split
  next heq =>
    subst heq
    refine ⟨rfl, List.forall_mem_cons.mpr ⟨fun _ => ⟨htype, rfl⟩, fun e' he' hname => ?_⟩, e,
      List.mem_cons_self, rfl⟩
    exact absurd hname (hself.1 e' he')
  next hne =>
    exact ((hF x).cons_of_ne (Ne.symm hne)).congr (followsIn_cons_concurrent htype x)

/-- The lines that a choice expression gets its own in front of. -/
theorem Reflects.choiceLines {F : String → String → Prop} {fmap : FlowMap} {n : String}
    {lines : List (List (Option String) × Cell)} (hF : Reflects exprs F fmap)
    (hlines : choiceLines fmap e.exprname = .ok (n, lines)) :
    n = e.exprname ∧ lines = linesOf exprs e.exprname ∧
      ∀ e' ∈ exprs, e'.exprname = e.exprname → e'.etype = .choice := by
  have hself := hF e.exprname
  rcases choiceLines_eq_ok hlines with ⟨hnull, hn, hnil⟩ | hcell
  · rw [hnull] at hself
    refine ⟨hn, hnil.trans (linesOf_eq_nil hself.1).symm, fun e' he' hname => ?_⟩
    exact absurd hname (hself.1 e' he')
  · rw [hcell] at hself
    exact ⟨hself.1, hself.2.1, hself.2.2.1⟩

/-- The line of a choice expression replaces nothing exactly if the cell of the expression is not
taken by one of the members. -/
theorem kept_line_iff {F : String → String → Prop} {fmap fmap₁ : FlowMap} {n : String}
    {lines : List (List (Option String) × Cell)}
    (hF : Reflects exprs F fmap) (hlines : choiceLines fmap e.exprname = .ok (n, lines))
    (hF₁ : Reflects exprs (fun x y => F x y ∨ [x, y] <:+: e.successors) fmap₁) :
    Kept fmap₁ (fmap₁.add e.exprname (.chExpr n (lineOf e :: lines))) ↔
      (deref fmap (some e.exprname) = .nullNode → ∀ y, ¬ [e.exprname, y] <:+: e.successors) := by
  have hself := hF e.exprname
  have hself₁ := hF₁ e.exprname
  have hofExpr := hself.ofExpr_iff.trans hself₁.ofExpr_iff.symm
  obtain ⟨hn, hold, hchoice⟩ := hF.choiceLines hlines
  rw [kept_add_iff]
  cases hcell₁ : deref fmap₁ (some e.exprname) with
  | nullNode =>
      rw [hcell₁] at hself₁
      exact iff_of_true trivial fun _ y hy => hself₁.2 y (Or.inr hy)
  | cNode name function succ err =>
      rw [hcell₁] at hself₁ hofExpr
      obtain ⟨-, y, -, hy⟩ := hself₁
      have hnull : deref fmap (some e.exprname) = .nullNode := by
        rcases choiceLines_eq_ok hlines with ⟨hnull, -⟩ | hcell
        · exact hnull
        · exact (hofExpr.mp (hcell ▸ trivial)).elim
      rw [hnull] at hself
      refine iff_of_false id fun hnone => hnone hnull y ?_
      exact ((hy y).mpr rfl).resolve_left (hself.2 y)
  | chExpr name lines₁ =>
      rw [hcell₁] at hself₁ hofExpr
      refine iff_of_true ⟨hself₁.1.trans hn.symm, ?_⟩ fun hnull => ?_
      · rw [hself₁.2.1, ← hold]
        exact List.suffix_cons _ _
      · rw [hnull] at hofExpr
        exact (hofExpr.mpr trivial).elim
  | conExpr name succs =>
      rw [hcell₁] at hself₁
      obtain ⟨e', he', hname⟩ := hself₁.2.2
      exact absurd ((hchoice e' he' hname).symm.trans (hself₁.2.1 e' he' hname).1) nofun
  | source =>
      rw [hcell₁] at hself₁
      exact hself₁.elim

/-- A choice expression. -/
theorem reflects_addChoiceExpr (hF : Reflects exprs (FollowsIn exprs) st.1)
    (htype : e.etype = .choice)
    (h : addExpr weakUnification symtable depth st e = .ok st') :
    (ExprKept weakUnification symtable depth st e ↔ ChoiceKeeps symtable depth st.1 e) ∧
      (ChoiceKeeps symtable depth st.1 e →
        Reflects (e :: exprs) (FollowsIn (e :: exprs)) st'.1) := by
  have hadd := h
  unfold addExpr at hadd
  rw [htype] at hadd
  obtain ⟨firstN, n, lines, fmap, hfirst, hlines, hcommit, -, hst'⟩ := addChoiceExpr_eq_ok hadd
  have hline : (e.condbinding.map convertCondPart, some firstN) = lineOf e := by
    rw [lineOf, hfirst]
  rw [hline] at hst'
  have hkept : ExprKept weakUnification symtable depth st e ↔
      CommitKept symtable depth n st.1 none true e.successors.reverse ∧ Kept fmap st'.1 := by
    rw [ExprKept, forall_eq_ok_iff h, htype]
    refine ⟨fun hall => hall n lines fmap hlines hcommit, ?_⟩
    intro hboth n' lines' fmap' hlines' hcommit'
    cases hlines.symm.trans hlines'
    cases hcommit.symm.trans hcommit'
    exact hboth
  have hkeeps : (∀ n lines, choiceLines st.1 e.exprname = .ok (n, lines) →
      CommitKeeps symtable depth n st.1 none true e.successors.reverse) ↔
      CommitKeeps symtable depth n st.1 none true e.successors.reverse := by
    refine ⟨fun hall => hall n lines hlines, fun hone n' lines' hlines' => ?_⟩
    cases hlines.symm.trans hlines'
    exact hone
  obtain ⟨hsame, hreflects⟩ := reflects_commitConseq hcommit hF rfl
  have hreverse : ∀ x y, [x, y] <:+: e.successors ↔ [y, x] <:+: e.successors.reverse := by
    intro x y
    rw [← List.reverse_infix]
    rfl
  have hline := fun hcommitKeeps => kept_line_iff hF hlines
    ((hreflects hcommitKeeps).congr fun x y => or_congr_right (hreverse x y))
  rw [hkept, ChoiceKeeps, hkeeps, hsame, hst']
  refine ⟨and_congr_right hline, ?_⟩
  rintro ⟨hcommitKeeps, -⟩ x
  obtain ⟨rfl, rfl, hchoice⟩ := hF.choiceLines hlines
  rw [deref_add]
  split
  next heq =>
    subst heq
    exact ⟨rfl, (linesOf_cons_self e exprs).symm,
      List.forall_mem_cons.mpr ⟨fun _ => htype, hchoice⟩, e, List.mem_cons_self, rfl⟩
  next hne =>
    refine ((hreflects hcommitKeeps x).cons_of_ne (Ne.symm hne)).congr fun y => ?_
    rw [followsIn_cons_choice htype]
    exact or_congr_right (hreverse x y)

/-- The map reflects one more expression exactly when its cells were free. -/
theorem reflects_addExpr (hF : Reflects exprs (FollowsIn exprs) st.1)
    (h : addExpr weakUnification symtable depth st e = .ok st') :
    (ExprKept weakUnification symtable depth st e ↔ ExprKeeps symtable depth st.1 e) ∧
      (ExprKeeps symtable depth st.1 e →
        Reflects (e :: exprs) (FollowsIn (e :: exprs)) st'.1) := by
  unfold ExprKeeps
  cases htype : e.etype with
  | choice => exact reflects_addChoiceExpr hF htype h
  | concurrent =>
      have hadd := h
      unfold addExpr at hadd
      rw [htype] at hadd
      obtain ⟨hkept, hreflects⟩ := reflects_addConcurrentExpr hF htype hadd
      refine ⟨iff_of_true ?_ trivial, fun _ => hreflects⟩
      rw [ExprKept, forall_eq_ok_iff h, htype]
      exact hkept

/-- The empty map reflects no expression. -/
theorem reflects_buildMap (decls : List NodeDecl) :
    Reflects [] (FollowsIn []) (buildMap decls) := by
  intro x
  rw [deref_buildMap]
  refine ⟨List.forall_mem_nil _, ?_⟩
  rintro y ⟨e, he, -⟩
  cases he

/-- After all expressions the cells hold what the expressions say, if nothing is replaced. -/
theorem reflects_exprs {decls : List NodeDecl}
    (h : exprs.reverse.foldlM (addExpr weakUnification symtable depth) (buildMap decls, []) =
      .ok st) :
    (LoopMeets (addExpr weakUnification symtable depth)
          (ExprKept weakUnification symtable depth) (buildMap decls, []) exprs.reverse ↔
        LoopMeets (addExpr weakUnification symtable depth)
          (fun st expr => ExprKeeps symtable depth st.1 expr) (buildMap decls, [])
          exprs.reverse) ∧
      (LoopMeets (addExpr weakUnification symtable depth)
          (fun st expr => ExprKeeps symtable depth st.1 expr) (buildMap decls, [])
          exprs.reverse →
        Reflects exprs (FollowsIn exprs) st.1) :=
  foldlM_reverse_loopMeets (I := fun exprs st => Reflects exprs (FollowsIn exprs) st.1) h
    (reflects_buildMap decls) fun _ _ _ _ hF hstep => reflects_addExpr hF hstep

end

/-! ## Sources -/

section

variable {weakUnification : Bool} {symtable : SymbolTable}
  {st st' : FlowMap × UnificationResult}

/-- The node is a source with that successor. -/
def Starts (mainfuns : List MainFun) (x y : String) : Prop :=
  ∃ mainfun ∈ mainfuns, mainfun.sourcename = x ∧ mainfun.successor = some y

/-- The edges after the sources were added. -/
theorem leads_addMainFns {mainfuns : List MainFun}
    (h : mainfuns.foldlM (addMainFn weakUnification symtable) st = .ok st') {x y : String} :
    Leads st'.1 x y ↔ Leads st.1 x y ∨ Starts mainfuns x y := by
  induction mainfuns generalizing st with
  | nil =>
      cases h
      exact (or_iff_left fun ⟨_, hmem, _⟩ => nomatch hmem).symm
  | cons mainfun mainfuns ih =>
      obtain ⟨st₁, hstep, h⟩ := foldlM_cons_eq_ok.mp h
      obtain ⟨hnull, hst₁⟩ := addMainFn_eq_ok hstep
      have hone : Leads st₁.1 x y ↔
          Leads st.1 x y ∨ mainfun.sourcename = x ∧ mainfun.successor = some y := by
        rw [hst₁, leads_add]
        split
        next heq =>
          subst heq
          rw [or_iff_right (not_leads_of_null hnull), and_iff_right rfl]
          exact List.mem_singleton.trans eq_comm
        next hne => exact (or_iff_left fun hboth => hne hboth.1.symm).symm
      rw [ih h, hone, or_assoc]
      exact or_congr_right (by simp [Starts])

/-- Sources are not expressions. -/
theorem not_ofExpr_addMainFns {mainfuns : List MainFun} {x : String}
    (h : mainfuns.foldlM (addMainFn weakUnification symtable) st = .ok st')
    (hx : ¬ OfExpr (deref st.1 (some x))) : ¬ OfExpr (deref st'.1 (some x)) := by
  refine foldlM_invariant
    (P := fun st : FlowMap × UnificationResult => ¬ OfExpr (deref st.1 (some x))) h hx
    fun mainfun _ st st' hx hstep => ?_
  rw [(addMainFn_eq_ok hstep).2, deref_add]
  split
  · exact id
  · exact hx

/-- A node without an expression has one successor at most. -/
theorem eq_of_leads_of_leads {fmap : FlowMap} {x y z : String}
    (hx : ¬ OfExpr (deref fmap (some x))) (hy : Leads fmap x y) (hz : Leads fmap x z) :
    y = z := by
  unfold Leads at hy hz
  cases hcell : deref fmap (some x) with
  | chExpr | conExpr => exact absurd (hcell ▸ trivial) hx
  | nullNode =>
      rw [hcell] at hy
      cases hy
  | source | cNode =>
      rw [hcell] at hy hz
      exact Option.some.inj ((List.mem_singleton.mp hy).trans (List.mem_singleton.mp hz).symm)

end

/-! ## The flow of a program -/

/-- A node ends with a concrete one: a sequence with what its last member ends with, and a
concurrent expression with what its branches end with. -/
inductive EndsAt (exprs : List Expr) : String → String → Prop where
  | concrete {x : String} : (∀ e ∈ exprs, e.exprname ≠ x) → EndsAt exprs x x
  | sequence {e : Expr} {s x : String} : e ∈ exprs → e.etype = .choice →
      e.successors.getLast? = some s → EndsAt exprs s x → EndsAt exprs e.exprname x
  | branch {e : Expr} {s x : String} : e ∈ exprs → e.etype = .concurrent →
      s ∈ e.successors → EndsAt exprs s x → EndsAt exprs e.exprname x

/-- A sequence ends at a node without a definition. -/
theorem EndsAt.concrete_end {exprs : List Expr} {s x : String} (h : EndsAt exprs s x) :
    ∀ e ∈ exprs, e.exprname ≠ x := by
  induction h with
  | concrete h => exact h
  | sequence _ _ _ _ ih => exact ih
  | branch _ _ _ _ ih => exact ih

/-- A concrete node ends with itself. -/
theorem EndsAt.eq_of_concrete {exprs : List Expr} {s x : String} (h : EndsAt exprs s x)
    (hs : ∀ e ∈ exprs, e.exprname ≠ s) : x = s := by
  cases h with
  | concrete => rfl
  | sequence he => exact absurd rfl (hs _ he)
  | branch he => exact absurd rfl (hs _ he)

/-- A node is used at a place behind which that node comes next, or none: in front of the next member
of a sequence, or as a source or an error handler would begin it; as the last member of a sequence
or as a branch it is used where the abstract node is. -/
inductive UsedBefore (pr : Program) : String → Option String → Prop where
  | member {e : Expr} {s s' : String} : e ∈ pr.exprList → e.etype = .choice →
      [s, s'] <:+: e.successors → UsedBefore pr s (some s')
  | last {e : Expr} {s : String} {next : Option String} : e ∈ pr.exprList → e.etype = .choice →
      e.successors.getLast? = some s → UsedBefore pr e.exprname next → UsedBefore pr s next
  | branch {e : Expr} {s : String} {next : Option String} : e ∈ pr.exprList →
      e.etype = .concurrent → s ∈ e.successors → UsedBefore pr e.exprname next →
      UsedBefore pr s next
  | source {mainfun : MainFun} {s : String} : mainfun ∈ pr.mainfunList →
      mainfun.successor = some s → UsedBefore pr s none
  | handler {err : Err} : err ∈ pr.errList → UsedBefore pr err.handler none

/-- The flow of a program keeps its sequences.  While it is built, nothing is replaced that a cell
holds; in the end each node leads to the heads of its sequences or to its branches.  Whatever a
member of a sequence ends with leads to the next member and nowhere else, and whatever the last
member ends with leads to what comes next wherever the sequence is used. -/
structure SequencesKept (weakUnification : Bool) (depth : Nat) (symtable : SymbolTable)
    (pr : Program) (built : BuiltFlow) : Prop where
  steps : LoopMeets (addExpr weakUnification symtable depth)
    (ExprKept weakUnification symtable depth) (buildMap pr.nodeDeclList, []) pr.exprList.reverse
  choice : ∀ e ∈ pr.exprList, e.etype = .choice →
    deref built.fmap (some e.exprname) = .chExpr e.exprname (linesOf pr.exprList e.exprname)
  concurrent : ∀ e ∈ pr.exprList, e.etype = .concurrent →
    deref built.fmap (some e.exprname) = .conExpr e.exprname (e.successors.map some)
  follows : ∀ e ∈ pr.exprList, e.etype = .choice → ∀ s s', [s, s'] <:+: e.successors →
    ∀ x, EndsAt pr.exprList s x → ∀ y, Leads built.fmap x y ↔ y = s'
  last : ∀ e ∈ pr.exprList, e.etype = .choice → ∀ s, e.successors.getLast? = some s →
    ∀ next, UsedBefore pr e.exprname next → ∀ x, EndsAt pr.exprList s x →
    ∀ y, Leads built.fmap x y ↔ next = some y

/-- A concrete node is followed by that node, or by none, as a member of a sequence or as a source. -/
def GoesOn (pr : Program) (x : String) : Option String → Prop
  | some y => FollowsIn pr.exprList x y ∨ Starts pr.mainfunList x y
  | none => ∀ y, ¬ (FollowsIn pr.exprList x y ∨ Starts pr.mainfunList x y)

/-- In each step the members can be put in front of each other, and what a member of a sequence ends
with is followed by the next member in a sequence of its own; what the last member ends with is
followed there by what comes next wherever the sequence is used. -/
structure SequencesMeet (weakUnification : Bool) (depth : Nat) (symtable : SymbolTable)
    (pr : Program) : Prop where
  steps : LoopMeets (addExpr weakUnification symtable depth)
    (fun st expr => ExprKeeps symtable depth st.1 expr) (buildMap pr.nodeDeclList, [])
    pr.exprList.reverse
  ends : ∀ e ∈ pr.exprList, e.etype = .choice → ∀ s s', [s, s'] <:+: e.successors →
    ∀ x, EndsAt pr.exprList s x → GoesOn pr x (some s')
  lastEnds : ∀ e ∈ pr.exprList, e.etype = .choice → ∀ s, e.successors.getLast? = some s →
    ∀ next, UsedBefore pr e.exprname next → ∀ x, EndsAt pr.exprList s x → GoesOn pr x next

section

variable {weakUnification : Bool} {depth : Nat} {symtable : SymbolTable} {pr : Program}
  {built : BuiltFlow}

/-- A node that no expression defines leads to what follows it, and to one node at most. -/
theorem leads_iff_goesOn {st st₁ : FlowMap × UnificationResult} {x : String}
    (hF : Reflects pr.exprList (FollowsIn pr.exprList) st.1)
    (hst₁ : pr.mainfunList.foldlM (addMainFn weakUnification symtable) st = .ok st₁)
    (hx : ∀ e ∈ pr.exprList, e.exprname ≠ x) (next : Option String) :
    (∀ y, Leads st₁.1 x y ↔ next = some y) ↔ GoesOn pr x next := by
  have hnone : ¬ OfExpr (deref st.1 (some x)) := fun hofExpr =>
    have ⟨e, he, hname⟩ := (hF x).ofExpr_iff.mp hofExpr
    hx e he hname
  have hleads : ∀ y, Leads st₁.1 x y ↔
      FollowsIn pr.exprList x y ∨ Starts pr.mainfunList x y := by
    intro y
    rw [leads_addMainFns hst₁, hF.leads_iff hx]
  cases next with
  | none => simp [GoesOn, hleads]
  | some s' =>
      rw [GoesOn, ← hleads]
      refine ⟨fun hall => (hall s').mpr rfl, fun hs' y => ⟨fun hy => ?_, ?_⟩⟩
      · exact congrArg some (eq_of_leads_of_leads (not_ofExpr_addMainFns hst₁ hnone) hs' hy)
      · rintro ⟨⟩
        exact hs'

/-- The flow of a program keeps its sequences exactly if the members can be put in front of each
other in each step, and the ends of an abstract member are in sequences of their own. -/
theorem sequencesKept_iff (h : buildFlowMap weakUnification depth symtable pr = .ok built) :
    SequencesKept weakUnification depth symtable pr built ↔
      SequencesMeet weakUnification depth symtable pr := by
  obtain ⟨st, st₁, symtable', res, st₂, hst, hst₁, hnamed, hst₂, hfmap⟩ := buildFlowMap_stages h
  obtain ⟨hsteps, hreflects⟩ := reflects_exprs hst
  have hflow : ∀ {x fl}, OfExpr fl → deref st.1 (some x) = fl → deref built.fmap (some x) = fl := by
    intro x fl hfl hx
    rw [hfmap]
    exact deref_of_stages hst₁ hnamed hst₂ hfl hx
  have hends : Reflects pr.exprList (FollowsIn pr.exprList) st.1 →
      ∀ {s x}, EndsAt pr.exprList s x →
        ∀ next, (∀ y, Leads built.fmap x y ↔ next = some y) ↔ GoesOn pr x next := by
    intro hF s x hx next
    rw [hfmap]
    simp only [leads_of_stages hnamed hst₂]
    exact leads_iff_goesOn hF hst₁ hx.concrete_end next
  constructor
  · intro hkept
    have hF := hreflects (hsteps.mp hkept.steps)
    refine ⟨hsteps.mp hkept.steps, fun e he htype s s' hfollows x hx => ?_,
      fun e he htype s hlast next hused x hx => ?_⟩
    · refine (hends hF hx (some s')).mp fun y => ?_
      rw [hkept.follows e he htype s s' hfollows x hx, Option.some_inj, eq_comm]
    · exact (hends hF hx next).mp (hkept.last e he htype s hlast next hused x hx)
  · intro hmeets
    have hF := hreflects hmeets.steps
    refine ⟨hsteps.mpr hmeets.steps, fun e he htype => ?_, fun e he htype => ?_, ?_, ?_⟩
    · exact hflow trivial (hF.deref_choice he htype)
    · exact hflow trivial (hF.deref_concurrent he htype)
    · intro e he htype s s' hfollows x hx y
      rw [(hends hF hx (some s')).mpr (hmeets.ends e he htype s s' hfollows x hx), Option.some_inj,
        eq_comm]
    · intro e he htype s hlast next hused x hx
      exact (hends hF hx next).mpr (hmeets.lastEnds e he htype s hlast next hused x hx)

end

/-- Nodes without parameters, the abstract ones marked. -/
def plainNodes (names : List (String × Bool)) : List NodeDecl :=
  names.map fun n =>
    { nodename := n.1, nodefunction := n.1, inputs := [], outputs := some [], isAbstract := n.2 }

/-- A sequence that ends with an abstract node. -/
def relayProgram : Program where
  nodeDeclList := plainNodes [("Start", false), ("Process", false), ("Sink", false), ("In", true),
    ("Out", true)]
  exprList := [⟨"In", [], ["Process", "Out"], .choice⟩, ⟨"Out", [], ["Sink"], .choice⟩]
  mainfunList := [⟨"Start", "Start", some "In", 0⟩]

/-- Nothing comes next where its abstract nodes are used. -/
theorem eq_none_of_usedBefore {x : String} {next : Option String}
    (h : UsedBefore relayProgram x next) (hx : x ∈ ["In", "Out"]) : next = none := by
  induction h with
  | @member e s s' he _ hin =>
      rcases List.mem_cons.mp he with rfl | he
      · have heq : [s, s'] = ["Process", "Out"] := hin.eq_of_length rfl
        obtain ⟨rfl, -⟩ : s = "Process" ∧ s' = "Out" := by simpa using heq
        exact absurd hx (by decide)
      · obtain rfl := List.mem_singleton.mp he
        exact absurd hin.length_le (by simp)
  | last he _ _ _ ih =>
      refine ih ?_
      rcases List.mem_cons.mp he with rfl | he
      · decide
      · obtain rfl := List.mem_singleton.mp he
        decide
  | branch he htype =>
      rcases List.mem_cons.mp he with rfl | he
      · cases htype
      · obtain rfl := List.mem_singleton.mp he
        cases htype
  | source => rfl
  | handler => rfl

/-- The sequences of the example end at the sink. -/
theorem eq_sink_of_endsAt {x : String} (h : EndsAt relayProgram.exprList "Out" x) :
    x = "Sink" := by
  generalize hout : "Out" = s at h
  cases h with
  | concrete hno =>
      exact absurd hout (hno ⟨"Out", [], ["Sink"], .choice⟩ (by simp [relayProgram]))
  | sequence he _ hlast hx =>
      rcases List.mem_cons.mp he with rfl | he
      · exact absurd hout (by decide)
      · obtain rfl := List.mem_singleton.mp he
        obtain rfl := Option.some_inj.mp hlast
        exact hx.eq_of_concrete (by decide)
  | branch he htype =>
      rcases List.mem_cons.mp he with rfl | he
      · cases htype
      · obtain rfl := List.mem_singleton.mp he
        cases htype

/-- Its members are linked to each other. -/
theorem sequencesKept_iff_relay :
    ∃ built, buildFlowMap false 3 (tableOf relayProgram) relayProgram = .ok built ∧
      SequencesKept false 3 (tableOf relayProgram) relayProgram built := by
  have hok : (buildFlowMap false 3 (tableOf relayProgram) relayProgram).map (fun _ => ()) =
      .ok () := by
    decide +kernel
  obtain ⟨built, hbuilt, -⟩ := map_eq_ok.mp hok
  refine ⟨built, hbuilt, (sequencesKept_iff hbuilt).mpr ⟨?_, ?_, ?_⟩⟩
  · refine ⟨⟨fun n lines _ => ⟨?_, fun _ _ => trivial⟩, fun _ y hy => ?_⟩, fun st hst => ?_⟩
    · rw [MemberKeeps, deref_buildMap]
      trivial
    · exact absurd (hy.subset List.mem_cons_self) (by decide)
    · have hcells : (addExpr false (tableOf relayProgram) 3
          (buildMap relayProgram.nodeDeclList, []) ⟨"Out", [], ["Sink"], .choice⟩).map
            (fun st => (deref st.1 (some "Out"), deref st.1 (some "Process"))) =
          .ok (.chExpr "Out" [([], some "Sink")], .nullNode) := by
        decide +kernel
      rw [hst] at hcells
      obtain ⟨hout, hprocess⟩ := Prod.mk.inj (Except.ok.inj hcells)
      have hlast : MemberKeeps st.1 none "Out" := by
        rw [MemberKeeps, hout]
        exact Or.inl rfl
      refine ⟨⟨fun n lines _ => ⟨hlast, fun fmap hfmap => ⟨?_, fun _ _ => trivial⟩⟩,
        fun _ y hy => ?_⟩, fun _ _ => trivial⟩
      · rw [(committed_of_eq_ok hfmap).eq_self (hout ▸ trivial) hlast, MemberKeeps, hprocess]
        trivial
      · exact absurd (hy.subset List.mem_cons_self) (by decide)
  · intro e he htype s s' hin x hx
    rcases List.mem_cons.mp he with rfl | he
    · have heq : [s, s'] = ["Process", "Out"] := hin.eq_of_length rfl
      obtain ⟨rfl, rfl⟩ : s = "Process" ∧ s' = "Out" := by simpa using heq
      rw [hx.eq_of_concrete (by decide)]
      exact Or.inl ⟨_, he, htype, hin⟩
    · obtain rfl := List.mem_singleton.mp he
      exact absurd hin.length_le (by simp)
  · intro e he htype s hlast next hused x hx
    have hsink : ∀ y, ¬ (FollowsIn relayProgram.exprList "Sink" y ∨
        Starts relayProgram.mainfunList "Sink" y) := by
      intro y
      rintro (⟨e, he, -, hin⟩ | ⟨mainfun, hmem, hname, -⟩)
      · have hmem := hin.subset List.mem_cons_self
        rcases List.mem_cons.mp he with rfl | he
        · exact absurd hmem (by decide)
        · obtain rfl := List.mem_singleton.mp he
          exact absurd hin.length_le (by simp)
      · obtain rfl := List.mem_singleton.mp hmem
        exact absurd hname (by decide)
    have hend : e.exprname ∈ ["In", "Out"] ∧ x = "Sink" := by
      rcases List.mem_cons.mp he with rfl | he
      · obtain rfl := Option.some_inj.mp hlast
        exact ⟨by decide, eq_sink_of_endsAt hx⟩
      · obtain rfl := List.mem_singleton.mp he
        obtain rfl := Option.some_inj.mp hlast
        exact ⟨by decide, hx.eq_of_concrete (by decide)⟩
    obtain ⟨hname, rfl⟩ := hend
    rw [eq_none_of_usedBefore hused hname]
    exact hsink

/-- A node that one sequence ends with, and that another one goes on behind. -/
def pageProgram : Program where
  nodeDeclList := plainNodes [("Start", false), ("ReadRequest", false), ("Reply", false),
    ("Check", true), ("Page", true)]
  exprList := [⟨"Check", [], ["ReadRequest"], .choice⟩,
    ⟨"Page", [], ["ReadRequest", "Reply"], .choice⟩]
  mainfunList := [⟨"Start", "Start", some "Page", 0⟩]

/-- An abstract node in front of two others. -/
def branchProgram : Program where
  nodeDeclList := plainNodes [("Start", false), ("Branch", false), ("Next", false), ("Last", false),
    ("Choice", true), ("All", true)]
  exprList := [⟨"All", [], ["Choice", "Next", "Last"], .choice⟩,
    ⟨"Choice", [], ["Branch"], .choice⟩]
  mainfunList := [⟨"Start", "Start", some "All", 0⟩]

/-- The builder drops the last member of a sequence whose first member also is the end of another
one, and replaces the branch of an abstract member by the next member. -/
theorem sequences_broken :
    (∃ built, buildFlowMap false 3 (tableOf pageProgram) pageProgram = .ok built ∧
      ¬ SequencesKept false 3 (tableOf pageProgram) pageProgram built) ∧
    ∃ built, buildFlowMap false 3 (tableOf branchProgram) branchProgram = .ok built ∧
      ¬ SequencesKept false 3 (tableOf branchProgram) branchProgram built := by
  have hpage : (buildFlowMap false 3 (tableOf pageProgram) pageProgram).map
      (fun built => deref built.fmap (some "ReadRequest")) =
        .ok (.cNode "ReadRequest" "ReadRequest" none none) := by
    decide +kernel
  have hbranch : (buildFlowMap false 3 (tableOf branchProgram) branchProgram).map
      (fun built => deref built.fmap (some "Choice")) =
        .ok (.chExpr "Choice" [([], some "Next")]) := by
    decide +kernel
  obtain ⟨page, hpageBuilt, hrequest⟩ := map_eq_ok.mp hpage
  obtain ⟨branch, hbranchBuilt, hchosen⟩ := map_eq_ok.mp hbranch
  refine ⟨⟨page, hpageBuilt, fun hkept => ?_⟩, branch, hbranchBuilt, fun hkept => ?_⟩
  · have hfollows := (hkept.follows _ (List.mem_cons_of_mem _ List.mem_cons_self) rfl
      "ReadRequest" "Reply" List.infix_rfl "ReadRequest" (.concrete (by decide)) "Reply").mpr rfl
    rw [Leads, hrequest] at hfollows
    exact absurd hfollows (by decide)
  · have hchoice := hkept.choice _ (List.mem_cons_of_mem _ List.mem_cons_self) rfl
    exact absurd (hchosen.symm.trans hchoice) (by decide)

end Flow
end Frontend
end OFlux
