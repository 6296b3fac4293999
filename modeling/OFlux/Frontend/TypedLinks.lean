import OFlux.Frontend.Consequences
import OFlux.Frontend.FlowRecursions

/-!
# Links between nodes of one type

A node hands its output to the node that runs next, as a pointer that is read as the input of that
node.  The compiler checks the expressions one by one.  The cells of the flow are shared, so that a
link need not be one that has been checked.

Main results:

- Theorem {lit}`Typed.addExpr`: what one declaration keeps, if the members that are followed by
  another one are no expressions.
- Theorem {lit}`HandlersTyped.addError`: the same for error handlers.
-/

namespace OFlux
namespace Frontend
namespace Flow

open Library Fallible
open Classes (Linked)
open TypeCheck (UnificationResult)

/-! ## Ends of nodes -/

/-- The parameters at one end of a node. -/
def paramsAt (symtable : SymbolTable) (e : End) : Option (List DeclFormal) :=
  match symtable.find e.1 with
  | some (.node nd) => if e.2 then some nd.nodeinputs else nd.nodeoutputs
  | _ => none

/-- The types of parameters, without reference signs. -/
def typesOf (dfs : List DeclFormal) : List String :=
  dfs.map fun df => Unify.cleanseAmp df.ctype

/-- Both ends have parameters, of the same types one by one. -/
def SameTypes (symtable : SymbolTable) (a b : End) : Prop :=
  ∃ as bs, paramsAt symtable a = some as ∧ paramsAt symtable b = some bs ∧ typesOf as = typesOf bs

/-- Parameters that unify strongly have the same types. -/
theorem typesOf_eq_of_strongUnify {as bs : List DeclFormal}
    (h : Unify.strongUnify as bs = .success .strong) : typesOf as = typesOf bs := by
  induction Unify.strongUnify_eq_success_iff.mp h with
  | nil => rfl
  | @cons a b as bs hone hrest ih =>
      have htype : Unify.cleanseAmp a.ctype = Unify.cleanseAmp b.ctype := by
        by_contra hne
        rw [Unify.unifySingle, decide_eq_false hne] at hone
        cases hone
      rw [typesOf, List.map_cons, htype]
      exact congrArg _ (ih (Unify.strongUnify_eq_success_iff.mpr hrest))

/-! ## Checks -/

/-- What checks of ends against other ends leave: their pairs, unless an abstract node has no
parameters at that end. -/
structure Checked (symtable : SymbolTable) (S : End → End → Prop)
    (unified unified' : UnificationResult) : Prop where
  grows : unified ⊆ unified'
  nodes : ∀ a b, S a b → (∃ nd, symtable.find a.1 = some (.node nd)) ∧
    ∃ nd, symtable.find b.1 = some (.node nd)
  pair : ∀ a b, S a b → paramsAt symtable a ≠ none → paramsAt symtable b ≠ none →
    (a, b) ∈ unified'
  added : ∀ a b, (a, b) ∈ unified' → (a, b) ∈ unified ∨ S a b ∧ SameTypes symtable a b

/-- A declared node has input parameters. -/
theorem paramsAt_input_ne_none {symtable : SymbolTable} {n : String}
    (h : ∃ nd, symtable.find n = some (.node nd)) : paramsAt symtable (n, true) ≠ none := by
  obtain ⟨nd, hfind⟩ := h
  simp [paramsAt, hfind]

namespace Checked

variable {symtable : SymbolTable} {S T : End → End → Prop}
  {unified unified₁ unified₂ : UnificationResult}

/-- The inputs of nodes are always declared. -/
theorem inputs (h : Checked symtable S unified unified₁) {x y : String}
    (hS : S (x, true) (y, true)) : ((x, true), (y, true)) ∈ unified₁ :=
  have hnodes := h.nodes _ _ hS
  h.pair _ _ hS (paramsAt_input_ne_none hnodes.1) (paramsAt_input_ne_none hnodes.2)

theorem refl : Checked symtable (fun _ _ => False) unified unified where
  grows _ hp := hp
  nodes _ _ h := h.elim
  pair _ _ h := h.elim
  added _ _ hp := Or.inl hp

theorem trans (h : Checked symtable S unified unified₁)
    (h' : Checked symtable T unified₁ unified₂) :
    Checked symtable (fun a b => S a b ∨ T a b) unified unified₂ where
  grows := List.Subset.trans h.grows h'.grows
  nodes a b hab := hab.elim (h.nodes a b) (h'.nodes a b)
  pair a b hab ha hb := hab.elim (fun hS => h'.grows (h.pair a b hS ha hb))
    fun hT => h'.pair a b hT ha hb
  added a b hab := by
    rcases h'.added a b hab with hab | ⟨hT, hsame⟩
    · exact (h.added a b hab).imp_right fun ⟨hS, hsame⟩ => ⟨Or.inl hS, hsame⟩
    · exact Or.inr ⟨Or.inr hT, hsame⟩

theorem congr (h : Checked symtable S unified unified₁) (hST : ∀ a b, S a b ↔ T a b) :
    Checked symtable T unified unified₁ := by
  have heq : S = T := funext fun a => funext fun b => propext (hST a b)
  exact heq ▸ h

end Checked

section

variable {symtable : SymbolTable} {unified unified' : UnificationResult}

/-- Strong unification of the parameters at two ends. -/
theorem unifyNodes_eq {siot iot : Bool} {sflN flN : String} {nds ndf : NodeData}
    (hs : symtable.lookupNodeSymbol sflN = .ok nds) (hf : symtable.lookupNodeSymbol flN = .ok ndf) :
    TypeCheck.unifyNodes false siot iot symtable sflN flN =
      match paramsAt symtable (sflN, siot), paramsAt symtable (flN, iot) with
      | some as, some bs => Unify.strongUnify as bs
      | _, _ => .success .weak := by
  have hparamss : paramsAt symtable (sflN, siot) =
      if siot then some nds.nodeinputs else nds.nodeoutputs := by
    simp [paramsAt, SymbolTable.lookupNodeSymbol_eq_ok.mp hs]
  have hparamsf : paramsAt symtable (flN, iot) =
      if iot then some ndf.nodeinputs else ndf.nodeoutputs := by
    simp [paramsAt, SymbolTable.lookupNodeSymbol_eq_ok.mp hf]
  rw [hparamss, hparamsf]
  cases hps : (if siot then some nds.nodeinputs else nds.nodeoutputs) <;>
    cases hpf : (if iot then some ndf.nodeinputs else ndf.nodeoutputs) <;>
      simp [TypeCheck.unifyNodes, hs, hf, hps, hpf, Unify.unifyTypeInOut]

/-- One check. -/
theorem checked_of_eq_ok {siot iot : Bool} {sflN flN : String}
    (h : TypeCheck.typeCheckGeneral false siot iot symtable unified sflN flN = .ok unified') :
    Checked symtable (fun a b => a = (sflN, siot) ∧ b = (flN, iot)) unified unified' := by
  unfold TypeCheck.typeCheckGeneral at h
  cases hs : symtable.lookupNodeSymbol sflN with
  | error => simp [TypeCheck.unifyNodes, hs] at h
  | ok nds =>
  cases hf : symtable.lookupNodeSymbol flN with
  | error => simp [TypeCheck.unifyNodes, hs, hf] at h
  | ok ndf =>
  rw [unifyNodes_eq hs hf] at h
  have hnodes : ∀ a b : End, a = (sflN, siot) ∧ b = (flN, iot) →
      (∃ nd, symtable.find a.1 = some (.node nd)) ∧ ∃ nd, symtable.find b.1 = some (.node nd) := by
    rintro a b ⟨rfl, rfl⟩
    exact ⟨⟨nds, SymbolTable.lookupNodeSymbol_eq_ok.mp hs⟩, ndf,
      SymbolTable.lookupNodeSymbol_eq_ok.mp hf⟩
  have hundeclared : ∀ {unified'}, Except.ok unified = (Except.ok unified' : Except Exn _) →
      (paramsAt symtable (sflN, siot) = none ∨ paramsAt symtable (flN, iot) = none) →
      Checked symtable (fun a b => a = (sflN, siot) ∧ b = (flN, iot)) unified unified' := by
    intro unified' h hnone
    cases h
    refine ⟨fun _ hp => hp, hnodes, ?_, fun a b hab => Or.inl hab⟩
    rintro a b ⟨rfl, rfl⟩ ha hb
    exact (hnone.elim ha hb).elim
  cases has : paramsAt symtable (sflN, siot) with
  | none => exact hundeclared (by simpa [has] using h) (Or.inl has)
  | some as =>
  cases hbs : paramsAt symtable (flN, iot) with
  | none => exact hundeclared (by simpa [has, hbs] using h) (Or.inr hbs)
  | some bs =>
  simp only [has, hbs] at h
  split at h
  next hstrong =>
    cases h
    refine ⟨List.subset_cons_self _ _, hnodes, ?_, fun a b hab => ?_⟩
    · rintro a b ⟨rfl, rfl⟩ - -
      exact List.mem_cons_self
    · rcases List.mem_cons.mp hab with heq | hab
      · obtain ⟨rfl, rfl⟩ := Prod.mk.inj heq
        exact Or.inr ⟨⟨rfl, rfl⟩, as, bs, has, hbs, typesOf_eq_of_strongUnify hstrong⟩
      · exact Or.inl hab
  next hweak => exact absurd hweak Unify.strongUnifyFrom_ne_weak
  next => cases h

/-- The branches of a concurrent expression against the expression, at both ends. -/
theorem checked_concur {n : String} {branches : List String}
    (h : branches.foldlM (fun unified ename =>
      TypeCheck.typeCheckConcur false symtable unified n ename) unified = .ok unified') :
    Checked symtable (fun a b => a.1 ∈ branches ∧ b.1 = n ∧ a.2 = b.2) unified unified' := by
  induction branches generalizing unified with
  | nil =>
      cases h
      exact Checked.refl.congr fun a b => by simp
  | cons s branches ih =>
      obtain ⟨unified₂, hone, h⟩ := foldlM_cons_eq_ok.mp h
      obtain ⟨unified₁, hin, hout⟩ := bind_eq_ok.mp hone
      refine ((checked_of_eq_ok hin).trans (checked_of_eq_ok hout) |>.trans (ih h)).congr ?_
      rintro ⟨a, aio⟩ ⟨b, bio⟩
      cases aio <;> cases bio <;> simp [List.mem_cons] <;> tauto

/-- The members of a sequence, each against the next one. -/
theorem checked_all {members : List String}
    (h : typeCheckAll false symtable unified members = .ok unified') :
    Checked symtable (fun a b => [b.1, a.1] <:+: members ∧ a.2 = true ∧ b.2 = false)
      unified unified' := by
  induction members generalizing unified with
  | nil =>
      cases h
      exact Checked.refl.congr fun a b => by simp
  | cons h1 rest ih =>
      cases rest with
      | nil =>
          cases h
          refine Checked.refl.congr fun a b => iff_of_false id fun hin => ?_
          exact absurd hin.1.length_le (by simp)
      | cons h2 t =>
          rw [typeCheckAll] at h
          obtain ⟨unified₁, hone, h⟩ := bind_eq_ok.mp h
          refine ((checked_of_eq_ok hone).trans (ih h)).congr ?_
          rintro ⟨a, aio⟩ ⟨b, bio⟩
          rw [List.infix_cons_iff (a := h1), List.cons_prefix_cons, List.cons_prefix_cons]
          simp only [Prod.mk.injEq, List.nil_prefix, and_true]
          tauto

end

/-! ## What the links rely on -/

/-- What a node hands to the nodes that it leads to: an expression its own input, another node its
output. -/
def handedOn (fmap : FlowMap) (x : String) : End :=
  match deref fmap (some x) with
  | .chExpr _ _ | .conExpr _ _ => (x, true)
  | _ => (x, false)

/-- A node built from an expression hands its input on. -/
theorem handedOn_of_ofExpr {fmap : FlowMap} {x : String} (h : OfExpr (deref fmap (some x))) :
    handedOn fmap x = (x, true) := by
  unfold handedOn
  cases hcell : deref fmap (some x) with
  | chExpr | conExpr => rfl
  | source | cNode | nullNode =>
      rw [hcell] at h
      exact h.elim

/-- Any other node hands its output on. -/
theorem handedOn_of_not_ofExpr {fmap : FlowMap} {x : String}
    (h : ¬ OfExpr (deref fmap (some x))) : handedOn fmap x = (x, false) := by
  unfold handedOn
  cases hcell : deref fmap (some x) with
  | chExpr | conExpr =>
      rw [hcell] at h
      exact absurd trivial h
  | source | cNode | nullNode => rfl

/-- The same cells hold expressions. -/
def SameKinds (fmap fmap' : FlowMap) : Prop :=
  ∀ x, OfExpr (deref fmap' (some x)) ↔ OfExpr (deref fmap (some x))

theorem SameKinds.handedOn_eq {fmap fmap' : FlowMap} (h : SameKinds fmap fmap') (x : String) :
    handedOn fmap' x = handedOn fmap x := by
  by_cases hx : OfExpr (deref fmap (some x))
  · rw [handedOn_of_ofExpr hx, handedOn_of_ofExpr ((h x).mpr hx)]
  · rw [handedOn_of_not_ofExpr hx, handedOn_of_not_ofExpr (mt (h x).mp hx)]

theorem SameKinds.refl (fmap : FlowMap) : SameKinds fmap fmap :=
  fun _ => Iff.rfl

theorem SameKinds.trans {fmap fmap₁ fmap₂ : FlowMap} (h : SameKinds fmap fmap₁)
    (h' : SameKinds fmap₁ fmap₂) : SameKinds fmap fmap₂ :=
  fun x => (h' x).trans (h x)

/-- Writing a node of the same kind keeps the kinds. -/
theorem sameKinds_add {fmap : FlowMap} {x : String} {fl : Node}
    (h : OfExpr fl ↔ OfExpr (deref fmap (some x))) : SameKinds fmap (fmap.add x fl) := by
  intro y
  rw [deref_add]
  split
  next heq => exact heq ▸ h
  next => exact Iff.rfl

/-- The two ends are in one class of the pairs, if both have parameters. -/
def Agree (symtable : SymbolTable) (unified : UnificationResult) (a b : End) : Prop :=
  paramsAt symtable b ≠ none → Linked unified a b

theorem Agree.mono {symtable : SymbolTable} {unified unified' : UnificationResult} {a b : End}
    (h : Agree symtable unified a b) (hsub : unified ⊆ unified') : Agree symtable unified' a b :=
  fun hb => (h hb).mono fun _ hp => hsub hp

/-- Checked ends agree. -/
theorem Checked.agree {symtable : SymbolTable} {S : End → End → Prop}
    {unified unified' : UnificationResult} (h : Checked symtable S unified unified') {x : String}
    {b : End} (hS : S (x, true) b) : Agree symtable unified' (x, true) b :=
  fun hb => .rel _ _ (h.pair _ _ hS (paramsAt_input_ne_none (h.nodes _ _ hS).1) hb)

/-- Each node that a link leads to takes what is handed on there.  The pairs are those of checks. -/
structure Typed (symtable : SymbolTable) (exprs : List Expr) (st : FlowMap × UnificationResult) :
    Prop where
  links : ∀ x y, Leads st.1 x y → st.1.find y ≠ none ∧
    Agree symtable st.2 (y, true) (handedOn st.1 x)
  exprs : ∀ x, OfExpr (deref st.1 (some x)) → ∃ e ∈ exprs, e.exprname = x
  pairs : ∀ a b, (a, b) ∈ st.2 → st.1.find a.1 ≠ none ∧ st.1.find b.1 ≠ none ∧
    SameTypes symtable a b

/-- Members that are followed by another one are nodes without an expression. -/
def AbstractLast (exprs : List Expr) : Prop :=
  ∀ e ∈ exprs, e.etype = .choice → ∀ s s', [s, s'] <:+: e.successors →
    ∀ e' ∈ exprs, e'.exprname ≠ s

/-- The pairs of checks among nodes with cells. -/
theorem Typed.pairs_of_checked {symtable : SymbolTable} {exprs : List Expr}
    {st : FlowMap × UnificationResult} {fmap : FlowMap} {unified : UnificationResult}
    {S : End → End → Prop} (h : Typed symtable exprs st)
    (hchecked : Checked symtable S st.2 unified)
    (hkept : ∀ n, st.1.find n ≠ none → fmap.find n ≠ none)
    (hfound : ∀ a b, S a b → fmap.find a.1 ≠ none ∧ fmap.find b.1 ≠ none) :
    ∀ a b, (a, b) ∈ unified →
      fmap.find a.1 ≠ none ∧ fmap.find b.1 ≠ none ∧ SameTypes symtable a b := by
  intro a b hab
  rcases hchecked.added a b hab with hold | ⟨hS, hsame⟩
  · obtain ⟨ha, hb, hsame⟩ := h.pairs a b hold
    exact ⟨hkept _ ha, hkept _ hb, hsame⟩
  · obtain ⟨ha, hb⟩ := hfound a b hS
    exact ⟨ha, hb, hsame⟩

/-! ## Expressions -/

section

variable {symtable : SymbolTable} {depth : Nat} {exprs : List Expr}
  {st st' : FlowMap × UnificationResult}

/-- A node written is in the map. -/
theorem find_add_self_ne_none (fmap : FlowMap) (x : String) (fl : Node) :
    SortedMap.find x (SortedMap.add x fl fmap) ≠ none := by
  rw [SortedMap.find_add, if_pos rfl]
  exact Option.some_ne_none fl

/-- A concurrent expression. -/
theorem Typed.addConcurrentExpr {e : Expr} (h : Typed symtable exprs st)
    (hadd : addConcurrentExpr false symtable st e = .ok st') : Typed symtable (e :: exprs) st' := by
  obtain ⟨hnull, hfound, hst'⟩ := addConcurrentExpr_eq_ok hadd
  have hchecks : e.successors.foldlM (fun unified ename =>
      TypeCheck.typeCheckConcur false symtable unified e.exprname ename) st.2 = .ok st'.2 := by
    unfold Flow.addConcurrentExpr at hadd
    obtain ⟨unified, hunified, hadd⟩ := bind_eq_ok.mp hadd
    obtain ⟨_, _, hadd⟩ := bind_eq_ok.mp hadd
    split at hadd
    · obtain ⟨_, _, hadd⟩ := bind_eq_ok.mp hadd
      cases hadd
      exact hunified
    · cases hadd
  have hchecked := checked_concur hchecks
  have hkept : ∀ n, st.1.find n ≠ none → st'.1.find n ≠ none := by
    intro n hn
    rw [hst']
    exact find_add_ne_none hn
  have hsame : ∀ x, x ≠ e.exprname → handedOn st'.1 x = handedOn st.1 x := by
    intro x hx
    simp only [handedOn, hst', deref_add, if_neg hx]
  refine ⟨fun x y hxy => ?_, fun x hx => ?_, h.pairs_of_checked hchecked hkept ?_⟩
  · by_cases hx : x = e.exprname
    · subst hx
      have hself : handedOn st'.1 e.exprname = (e.exprname, true) := by
        rw [hst', handedOn, deref_add, if_pos rfl]
      rw [hst', leads_add_self] at hxy
      obtain ⟨s, hs, heq⟩ := List.mem_map.mp hxy
      obtain rfl := Option.some.inj heq
      exact ⟨hkept s (hfound s hs), hself ▸ hchecked.agree ⟨hs, rfl, rfl⟩⟩
    · rw [hst', leads_add_of_ne hx] at hxy
      obtain ⟨hy, hagree⟩ := h.links x y hxy
      exact ⟨hkept y hy, hsame x hx ▸ hagree.mono hchecked.grows⟩
  · by_cases hname : x = e.exprname
    · exact ⟨e, List.mem_cons_self, hname.symm⟩
    · rw [hst', deref_add, if_neg hname] at hx
      obtain ⟨e', he', hx'⟩ := h.exprs x hx
      exact ⟨e', List.mem_cons_of_mem e he', hx'⟩
  · rintro a b ⟨ha, hb, -⟩
    refine ⟨hkept _ (hfound _ ha), ?_⟩
    rw [hb, hst']
    exact find_add_self_ne_none _ _ _

/-- Members in front of the cell {lit}`rn`.  The new links lead from one member to the next one. -/
theorem leads_commitConseq {n : String} {members : List String} {fmap fmap' : FlowMap} {rn : Cell}
    {isfirstconseq : Bool}
    (h : commitConseq symtable depth n fmap rn isfirstconseq members = .ok fmap')
    (hfirst : isfirstconseq = rn.isNone)
    (hconcrete : ∀ x y, [y, x] <:+: rn.toList ++ members → ¬ OfExpr (deref fmap (some x))) :
    SameKinds fmap fmap' ∧ (∀ m, m ∈ members ∨ fmap.find m ≠ none → fmap'.find m ≠ none) ∧
      ∀ x y, Leads fmap' x y → Leads fmap x y ∨ [y, x] <:+: rn.toList ++ members := by
  induction members generalizing fmap rn isfirstconseq with
  | nil =>
      cases h
      exact ⟨.refl _, fun m hm => hm.resolve_left List.not_mem_nil, fun x y hxy => Or.inl hxy⟩
  | cons m t ih =>
      have hfind := find_of_commitConseq h
      obtain ⟨fmap₁, hone, h⟩ := commitConseq_cons_eq_ok h
      have hcommitted := committed_of_eq_ok hone
      have hadjacent : ∀ {x y}, [y, x] <:+: rn.toList ++ m :: t ↔
          rn = some y ∧ x = m ∨ [y, x] <:+: (some m).toList ++ t := by
        intro x y
        cases rn with
        | none => simp
        | some r =>
            rw [Option.toList_some, Option.toList_some, List.singleton_append,
              List.singleton_append, List.infix_cons_iff, List.cons_prefix_cons,
              List.cons_prefix_cons]
            simp [eq_comm]
      -- one member
      have hstep : SameKinds fmap fmap₁ ∧
          ∀ x y, Leads fmap₁ x y → Leads fmap x y ∨ rn = some y ∧ x = m := by
        have hlink : ∀ function err, ¬ OfExpr (deref fmap (some m)) →
            SameKinds fmap (fmap.add m (.cNode m function rn err)) ∧
              ∀ x y, Leads (fmap.add m (.cNode m function rn err)) x y →
                Leads fmap x y ∨ rn = some y ∧ x = m := by
          intro function err hm
          refine ⟨sameKinds_add (iff_of_false id hm), fun x y hxy => ?_⟩
          by_cases hx : x = m
          · subst hx
            exact Or.inr ⟨(List.mem_singleton.mp (leads_add_self.mp hxy)).symm, rfl⟩
          · exact Or.inl ((leads_add_of_ne hx).mp hxy)
        have hbehind : OfExpr (deref fmap (some m)) →
            addtoend rn depth [n] fmap (some m) = .ok fmap₁ → fmap₁ = fmap := by
          intro hm hend
          cases rn with
          | some r => exact absurd hm (hconcrete m r (hadjacent.mpr (Or.inl ⟨rfl, rfl⟩)))
          | none =>
              cases depth with
              | zero => cases hend
              | succ depth =>
                  rcases addtoend_succ_eq_ok hend with ⟨-, heq⟩ | ⟨hne, -⟩
                  · exact heq
                  · exact absurd rfl hne
        cases hcommitted with
        | choice hcell hend =>
            rw [hbehind (hcell ▸ trivial) hend]
            exact ⟨.refl fmap, fun x y hxy => Or.inl hxy⟩
        | concurrent hcell hend =>
            rw [hbehind (hcell ▸ trivial) hend]
            exact ⟨.refl fmap, fun x y hxy => Or.inl hxy⟩
        | last _ _ heq =>
            rw [heq]
            exact ⟨.refl fmap, fun x y hxy => Or.inl hxy⟩
        | fresh hcell _ heq =>
            rw [heq]
            exact hlink _ _ (hcell ▸ id)
        | again hcell _ heq =>
            rw [heq]
            exact hlink _ _ (hcell ▸ id)
      obtain ⟨hkinds, hnew⟩ := hstep
      obtain ⟨hkinds', hfound, hrest⟩ := ih h rfl fun x y hxy hx =>
        hconcrete x y (hadjacent.mpr (Or.inr hxy)) ((hkinds x).mp hx)
      refine ⟨hkinds.trans hkinds', fun m' hm' => ?_, fun x y hxy => ?_⟩
      · rcases hm' with hm' | hm'
        · rcases List.mem_cons.mp hm' with rfl | hm'
          · exact hfound m' (Or.inr (hcommitted.find_ne_none hfind))
          · exact hfound m' (Or.inl hm')
        · exact hfound m' (Or.inr (hcommitted.find_ne_none hm'))
      · rw [hadjacent]
        rcases hrest x y hxy with hxy | hxy
        · exact (hnew x y hxy).imp_right Or.inl
        · exact Or.inr (Or.inr hxy)

/-- The checks of a choice expression. -/
theorem checked_addChoiceExpr {e : Expr} (h : addChoiceExpr false symtable depth st e = .ok st') :
    ∃ S, Checked symtable S st.2 st'.2 ∧
      (∀ s s', [s, s'] <:+: e.successors → S (s', true) (s, false)) ∧
      (∀ s ∈ e.successors.head?, S (s, true) (e.exprname, true)) ∧
      ∀ a b, S a b → (a.1 = e.exprname ∨ a.1 ∈ e.successors) ∧
        (b.1 = e.exprname ∨ b.1 ∈ e.successors) := by
  have hline : ∀ {firstN : String} {unified : UnificationResult}, (do
      let earlier ← choiceLines st.1 e.exprname
      let fmap ← commitConseq symtable depth earlier.1 st.1 none true e.successors.reverse
      let head ← getfl fmap firstN
      return (fmap.add e.exprname
        (.chExpr earlier.1 ((e.condbinding.map convertCondPart, head) :: earlier.2)), unified)) =
      Except.ok st' → st'.2 = unified := by
    intro firstN unified h
    obtain ⟨_, _, h⟩ := bind_eq_ok.mp h
    obtain ⟨_, _, h⟩ := bind_eq_ok.mp h
    obtain ⟨_, _, h⟩ := bind_eq_ok.mp h
    cases h
    rfl
  unfold addChoiceExpr at h
  obtain ⟨_, _, h⟩ := bind_eq_ok.mp h
  cases hsuccs : e.successors with
  | nil =>
      simp only [hsuccs] at h
      cases h
  | cons firstN rest =>
      obtain ⟨lastN, hlast⟩ : ∃ lastN, e.successors.getLast? = some lastN :=
        ⟨_, List.getLast?_eq_some_getLast (hsuccs ▸ List.cons_ne_nil _ _)⟩
      have hmem : lastN ∈ firstN :: rest := hsuccs ▸ List.mem_of_getLast? hlast
      rw [hlast] at h
      simp only [hsuccs] at h hline
      obtain ⟨_, _, h⟩ := bind_eq_ok.mp h
      obtain ⟨_, _, h⟩ := bind_eq_ok.mp h
      obtain ⟨unified₁, hall, h⟩ := bind_eq_ok.mp h
      obtain ⟨unified₂, hin, h⟩ := bind_eq_ok.mp h
      have hboth := (checked_all hall).trans (checked_of_eq_ok hin)
      have hnames : ∀ a b : End, ([b.1, a.1] <:+: firstN :: rest ∧ a.2 = true ∧ b.2 = false) ∨
          a = (firstN, true) ∧ b = (e.exprname, true) →
          (a.1 = e.exprname ∨ a.1 ∈ firstN :: rest) ∧
            (b.1 = e.exprname ∨ b.1 ∈ firstN :: rest) := by
        rintro a b (⟨hin, -⟩ | ⟨rfl, rfl⟩)
        · exact ⟨Or.inr (hin.subset (by simp)), Or.inr (hin.subset (by simp))⟩
        · exact ⟨Or.inr List.mem_cons_self, Or.inl rfl⟩
      split at h
      · obtain ⟨unified₃, hout, h⟩ := bind_eq_ok.mp h
        obtain rfl := hline h
        refine ⟨_, hboth.trans (checked_of_eq_ok hout), fun s s' hin => ?_, fun s hs => ?_, ?_⟩
        · exact Or.inl (Or.inl ⟨hin, rfl, rfl⟩)
        · obtain rfl := Option.some.inj hs
          exact Or.inl (Or.inr ⟨rfl, rfl⟩)
        · rintro a b (hab | ⟨rfl, rfl⟩)
          · exact hnames a b hab
          · exact ⟨Or.inl rfl, Or.inr hmem⟩
      · obtain ⟨_, hpure, h⟩ := bind_eq_ok.mp h
        cases hpure
        obtain rfl := hline h
        refine ⟨_, hboth, fun s s' hin => Or.inl ⟨hin, rfl, rfl⟩, fun s hs => ?_, hnames⟩
        obtain rfl := Option.some.inj hs
        exact Or.inr ⟨rfl, rfl⟩

/-- A choice expression. -/
theorem Typed.addChoiceExpr {e : Expr} (h : Typed symtable exprs st)
    (hconcrete : ∀ s s', [s, s'] <:+: e.successors → ¬ OfExpr (deref st.1 (some s)))
    (hadd : addChoiceExpr false symtable depth st e = .ok st') :
    Typed symtable (e :: exprs) st' := by
  obtain ⟨S, hchecked, hnext, hhead, hnames⟩ := checked_addChoiceExpr hadd
  obtain ⟨firstN, n, lines, fmap, hfirst, hlines, hcommit, -, hst'⟩ := addChoiceExpr_eq_ok hadd
  have hreverse : ∀ {x y : String},
      [y, x] <:+: (none : Cell).toList ++ e.successors.reverse ↔ [x, y] <:+: e.successors := by
    intro x y
    have hswap : [x, y].reverse <:+: e.successors.reverse ↔ [x, y] <:+: e.successors :=
      List.reverse_infix
    exact hswap
  obtain ⟨hkinds, hfound, hleads⟩ := leads_commitConseq hcommit rfl fun x y hxy =>
    hconcrete x y (hreverse.mp hxy)
  have hmembers : ∀ m, m ∈ e.successors ∨ st.1.find m ≠ none → st'.1.find m ≠ none := by
    intro m hm
    rw [hst']
    exact find_add_ne_none (hfound m (hm.imp_left List.mem_reverse.mpr))
  have hself : st'.1.find e.exprname ≠ none := by
    rw [hst']
    exact find_add_self_ne_none _ _ _
  have hhanded : handedOn st'.1 e.exprname = (e.exprname, true) := by
    rw [hst', handedOn, deref_add, if_pos rfl]
  have hsame : ∀ x, x ≠ e.exprname → handedOn st'.1 x = handedOn st.1 x := by
    intro x hx
    rw [← hkinds.handedOn_eq x]
    simp only [handedOn, hst', deref_add, if_neg hx]
  refine ⟨fun x y hxy => ?_, fun x hx => ?_, h.pairs_of_checked hchecked
    (fun m hm => hmembers m (Or.inr hm)) fun a b hab => ?_⟩
  · by_cases hx : x = e.exprname
    · subst hx
      rw [hhanded]
      rw [hst', leads_add_self] at hxy
      rcases List.mem_cons.mp hxy with heq | hold
      · obtain rfl := Option.some.inj heq
        exact ⟨hmembers y (Or.inl (List.mem_of_mem_head? hfirst)),
          hchecked.agree (hhead y hfirst)⟩
      · rcases choiceLines_eq_ok hlines with ⟨-, -, rfl⟩ | hcell
        · exact absurd hold List.not_mem_nil
        · have hexpr : OfExpr (deref st.1 (some e.exprname)) := hcell ▸ trivial
          obtain ⟨hy, hagree⟩ := h.links e.exprname y (by rw [Leads, hcell]; exact hold)
          rw [handedOn_of_ofExpr hexpr] at hagree
          exact ⟨hmembers y (Or.inr hy), hagree.mono hchecked.grows⟩
    · rw [hsame x hx]
      rw [hst', leads_add_of_ne hx] at hxy
      rcases hleads x y hxy with hold | hnew
      · obtain ⟨hy, hagree⟩ := h.links x y hold
        exact ⟨hmembers y (Or.inr hy), hagree.mono hchecked.grows⟩
      · have hin := hreverse.mp hnew
        rw [handedOn_of_not_ofExpr (hconcrete x y hin)]
        exact ⟨hmembers y (Or.inl (hin.subset (by simp))), hchecked.agree (hnext x y hin)⟩
  · by_cases hname : x = e.exprname
    · exact ⟨e, List.mem_cons_self, hname.symm⟩
    · rw [hst', deref_add, if_neg hname, hkinds x] at hx
      obtain ⟨e', he', hx'⟩ := h.exprs x hx
      exact ⟨e', List.mem_cons_of_mem e he', hx'⟩
  · obtain ⟨ha, hb⟩ := hnames a b hab
    refine ⟨ha.elim (fun heq => heq ▸ hself) fun ha => hmembers _ (Or.inl ha),
      hb.elim (fun heq => heq ▸ hself) fun hb => hmembers _ (Or.inl hb)⟩

/-- One expression, in which no member in front of another one is an expression. -/
theorem Typed.addExpr {e : Expr} (h : Typed symtable exprs st)
    (hconcrete : e.etype = .choice → ∀ s s', [s, s'] <:+: e.successors →
      ¬ OfExpr (deref st.1 (some s)))
    (hadd : addExpr false symtable depth st e = .ok st') : Typed symtable (e :: exprs) st' := by
  unfold Flow.addExpr at hadd
  split at hadd
  next htype => exact h.addChoiceExpr (hconcrete htype) hadd
  next => exact h.addConcurrentExpr hadd

/-- The empty map is typed. -/
theorem typed_buildMap (symtable : SymbolTable) (decls : List NodeDecl) :
    Typed symtable [] (buildMap decls, []) where
  links x y hxy := absurd hxy (not_leads_of_null (deref_buildMap decls _))
  exprs x hx := by
    rw [deref_buildMap] at hx
    exact hx.elim
  pairs a b hab := absurd hab List.not_mem_nil

/-- The expressions are added from the last one to the first one. -/
theorem typed_exprs {decls : List NodeDecl} {rest all : List Expr} (hlast : AbstractLast all)
    (hsub : ∀ e ∈ rest, e ∈ all)
    (h : rest.reverse.foldlM (addExpr false symtable depth) (buildMap decls, []) = .ok st) :
    Typed symtable rest st := by
  induction rest generalizing st with
  | nil =>
      cases h
      exact typed_buildMap symtable decls
  | cons e rest ih =>
      rw [List.reverse_cons] at h
      obtain ⟨st₁, hst₁, h⟩ := foldlM_append_eq_ok.mp h
      obtain ⟨st₂, hadd, h⟩ := foldlM_cons_eq_ok.mp h
      cases h
      rw [List.forall_mem_cons] at hsub
      have htyped := ih hsub.2 hst₁
      refine htyped.addExpr (fun htype s s' hin hs => ?_) hadd
      obtain ⟨e', he', hname⟩ := htyped.exprs s hs
      exact hlast e hsub.1 htype s s' hin e' (hsub.2 e' he') hname

/-! ## Sources and nodes without an expression -/

/-- The check of a source. -/
theorem checked_addMainFn {mainfun : MainFun}
    (hadd : addMainFn false symtable st mainfun = .ok st') :
    ∃ S, Checked symtable S st.2 st'.2 ∧
      (∀ y, mainfun.successor = some y → S (y, true) (mainfun.sourcename, false) ∧
        st.1.find y ≠ none) ∧
      ∀ a b, S a b → mainfun.successor = some a.1 ∧ b.1 = mainfun.sourcename := by
  have hend : ∀ (sfl : Cell) {unified : UnificationResult}, (do
      let fl ← findCell st.1 mainfun.sourcename
      if fl = .nullNode then
        return (st.1.add mainfun.sourcename
          (.source mainfun.sourcename mainfun.sourcefunction sfl none), unified)
      else throw (.failure ("Source " ++ mainfun.sourcename ++ " already defined"))) =
        Except.ok st' → st'.2 = unified := by
    intro sfl unified h
    obtain ⟨_, _, h⟩ := bind_eq_ok.mp h
    split at h
    · cases h
      rfl
    · cases h
  unfold addMainFn at hadd
  cases hsucc : mainfun.successor with
  | none =>
      simp only [hsucc] at hadd
      rw [hend none (onNotFound_error_eq_ok.mp hadd)]
      exact ⟨_, .refl, fun y hy => (Option.some_ne_none y hy.symm).elim, fun _ _ hS => hS.elim⟩
  | some succ =>
      simp only [hsucc] at hadd
      obtain ⟨unified, hcheck, hadd⟩ := bind_eq_ok.mp hadd
      obtain ⟨_, hfind, hadd⟩ := bind_eq_ok.mp (onNotFound_error_eq_ok.mp hadd)
      obtain rfl := hend _ hadd
      refine ⟨_, checked_of_eq_ok hcheck, fun y hy => ?_, ?_⟩
      · obtain rfl := Option.some.inj hy
        refine ⟨⟨rfl, rfl⟩, fun hnone => ?_⟩
        rw [findCell, hnone] at hfind
        cases hfind
      · rintro a b ⟨rfl, rfl⟩
        exact ⟨rfl, rfl⟩

/-- A source. -/
theorem Typed.addMainFn {mainfun : MainFun} (h : Typed symtable exprs st)
    (hadd : addMainFn false symtable st mainfun = .ok st') : Typed symtable exprs st' := by
  obtain ⟨hnull, hst'⟩ := addMainFn_eq_ok hadd
  obtain ⟨S, hchecked, hnext, hnames⟩ := checked_addMainFn hadd
  have hkept : ∀ n, st.1.find n ≠ none → st'.1.find n ≠ none := by
    intro n hn
    rw [hst']
    exact find_add_ne_none hn
  have hkinds : SameKinds st.1 st'.1 := by
    rw [hst']
    exact sameKinds_add (by rw [hnull]; exact Iff.rfl)
  refine ⟨fun x y hxy => ?_, fun x hx => h.exprs x ((hkinds x).mp hx),
    h.pairs_of_checked hchecked hkept fun a b hab => ?_⟩
  · rw [hkinds.handedOn_eq]
    by_cases hx : x = mainfun.sourcename
    · subst hx
      rw [hst', leads_add_self] at hxy
      obtain ⟨hS, hy⟩ := hnext y (List.mem_singleton.mp hxy).symm
      rw [handedOn_of_not_ofExpr (hnull ▸ id)]
      exact ⟨hkept y hy, hchecked.agree hS⟩
    · rw [hst', leads_add_of_ne hx] at hxy
      obtain ⟨hy, hagree⟩ := h.links x y hxy
      exact ⟨hkept y hy, hagree.mono hchecked.grows⟩
  · obtain ⟨ha, hb⟩ := hnames a b hab
    refine ⟨hkept _ (hnext _ ha).2, ?_⟩
    rw [hb, hst']
    exact find_add_self_ne_none _ _ _

end

/-- Every cell is that of a node in the table. -/
def Named (symtable : SymbolTable) (fmap : FlowMap) : Prop :=
  ∀ n, fmap.find n ≠ none → ∃ nd, symtable.find n = some (.node nd)

/-- The nodes of the second table have been in the first one. -/
def KeepsNodes (symtable symtable' : SymbolTable) : Prop :=
  ∀ n nd, symtable'.find n = some (.node nd) → symtable.find n = some (.node nd)

theorem KeepsNodes.paramsAt_eq {symtable symtable' : SymbolTable} {fmap : FlowMap}
    (h : KeepsNodes symtable symtable') (hnamed : Named symtable' fmap) {e : End}
    (he : fmap.find e.1 ≠ none) : paramsAt symtable' e = paramsAt symtable e := by
  obtain ⟨nd, hfind⟩ := hnamed e.1 he
  simp [paramsAt, hfind, h e.1 nd hfind]

/-- What is handed on belongs to the node. -/
theorem handedOn_fst (fmap : FlowMap) (x : String) : (handedOn fmap x).1 = x := by
  unfold handedOn
  split <;> rfl

/-- A node that leads on is in the map. -/
theorem find_ne_none_of_leads {fmap : FlowMap} {x y : String} (h : Leads fmap x y) :
    fmap.find x ≠ none := by
  intro hnone
  refine not_leads_of_null (a := x) (b := y) ?_ h
  rw [deref_some, hnone]
  rfl

/-- What changes neither the links nor the kinds of the cells. -/
theorem Typed.transport {symtable symtable' : SymbolTable} {exprs : List Expr}
    {st : FlowMap × UnificationResult} {fmap : FlowMap} (h : Typed symtable exprs st)
    (hkinds : SameKinds st.1 fmap) (hleads : ∀ x y, Leads fmap x y ↔ Leads st.1 x y)
    (hkept : ∀ n, st.1.find n ≠ none → fmap.find n ≠ none)
    (hparams : ∀ e : End, st.1.find e.1 ≠ none → paramsAt symtable' e = paramsAt symtable e) :
    Typed symtable' exprs (fmap, st.2) where
  links x y hxy := by
    have hold := (hleads x y).mp hxy
    obtain ⟨hy, hagree⟩ := h.links x y hold
    refine ⟨hkept y hy, ?_⟩
    rw [hkinds.handedOn_eq]
    intro hparam
    rw [hparams _ ((handedOn_fst st.1 x).symm ▸ find_ne_none_of_leads hold)] at hparam
    exact hagree hparam
  exprs x hx := h.exprs x ((hkinds x).mp hx)
  pairs a b hab := by
    obtain ⟨ha, hb, as, bs, has, hbs, hsame⟩ := h.pairs a b hab
    exact ⟨hkept _ ha, hkept _ hb, as, bs, (hparams a ha).trans has, (hparams b hb).trans hbs,
      hsame⟩

/-- The cell of the node that handles the errors of a node. -/
def errCell : Node → Cell
  | .source _ _ _ err | .cNode _ _ _ err => err
  | _ => none

/-- No node has an error handler yet. -/
def NoHandlers (fmap : FlowMap) : Prop :=
  ∀ x, errCell (deref fmap (some x)) = none

/-- Writing a node without a handler adds none. -/
theorem NoHandlers.add {fmap : FlowMap} (h : NoHandlers fmap) {x : String} {fl : Node}
    (hfl : errCell fl = none) : NoHandlers (fmap.add x fl) := by
  intro y
  rw [deref_add]
  split
  · exact hfl
  · exact h y

section

variable {symtable : SymbolTable} {depth : Nat} {st st' : FlowMap × UnificationResult}

/-- A sequence adds no handler. -/
theorem NoHandlers.commitConseq {n : String} {members : List String} {fmap fmap' : FlowMap}
    {rn : Cell} {isfirstconseq : Bool} (h : NoHandlers fmap)
    (hcommit : commitConseq symtable depth n fmap rn isfirstconseq members = .ok fmap') :
    NoHandlers fmap' := by
  induction members generalizing fmap rn isfirstconseq with
  | nil =>
      cases hcommit
      exact h
  | cons m t ih =>
      obtain ⟨fmap₁, hone, hcommit⟩ := commitConseq_cons_eq_ok hcommit
      refine ih ?_ hcommit
      have hset : ∀ (fmap : FlowMap) (m : String) (i : Nat), NoHandlers fmap →
          NoHandlers (fmap.add m (setLink i rn (deref fmap (some m)))) := by
        intro fmap m i h
        refine h.add ?_
        have hm := h m
        cases hcell : deref fmap (some m) <;> rw [hcell] at hm <;> exact hm
      cases committed_of_eq_ok hone with
      | choice _ hend => exact addtoend_invariant hset hend h
      | concurrent _ hend => exact addtoend_invariant hset hend h
      | last _ _ heq => exact heq ▸ h
      | fresh _ _ heq => exact heq ▸ h.add rfl
      | again hcell _ heq =>
          have hm := h m
          rw [hcell] at hm
          exact heq ▸ h.add hm

/-- Error handlers are bound after the expressions and the sources. -/
theorem noHandlers_stages {decls : List NodeDecl} {exprs : List Expr} {mainfuns : List MainFun}
    {st₁ : FlowMap × UnificationResult}
    (hst : exprs.foldlM (addExpr false symtable depth) (buildMap decls, []) = .ok st)
    (hst₁ : mainfuns.foldlM (addMainFn false symtable) st = .ok st₁) : NoHandlers st₁.1 := by
  refine foldlM_invariant (P := fun s : FlowMap × UnificationResult => NoHandlers s.1) hst₁
    (foldlM_invariant (P := fun s : FlowMap × UnificationResult => NoHandlers s.1) hst ?_ ?_) ?_
  · intro x
    rw [deref_buildMap]
    rfl
  · intro e _ s s' hs hstep
    unfold addExpr at hstep
    split at hstep
    · obtain ⟨_, _, _, _, -, -, hcommit, -, hs'⟩ := addChoiceExpr_eq_ok hstep
      rw [hs']
      exact (hs.commitConseq hcommit).add rfl
    · rw [(addConcurrentExpr_eq_ok hstep).2.2]
      exact hs.add rfl
  · intro mainfun _ s s' hs hstep
    rw [(addMainFn_eq_ok hstep).2]
    exact hs.add rfl

/-- The nodes without an expression get their cells, and all nodes are looked up. -/
theorem named_addNamed {fmap : FlowMap} {res : FlowMap × List String}
    (h : addNamed symtable fmap = .ok res) :
    SameKinds fmap res.1 ∧ (∀ n, fmap.find n ≠ none → res.1.find n ≠ none) ∧
      Named symtable fmap ∧ Named symtable res.1 ∧ (NoHandlers fmap → NoHandlers res.1) := by
  unfold addNamed at h
  obtain ⟨st, hst, h⟩ := bind_eq_ok.mp h
  cases h
  have hone : ∀ entry ∈ fmap.entries, ∀ s s' : FlowMap × List String, (do
      let nd ← symtable.lookupNodeSymbol entry.1
      if entry.2 = .nullNode then
        return (s.1.add entry.1 (.cNode entry.1 nd.functionname none none), entry.1 :: s.2)
      else return s) = Except.ok s' →
      (∃ nd, symtable.find entry.1 = some (.node nd)) ∧
        (s'.1 = s.1 ∨ deref fmap (some entry.1) = .nullNode ∧
          ∃ f, s'.1 = s.1.add entry.1 (.cNode entry.1 f none none)) := by
    intro entry hentry s s' hstep
    obtain ⟨nd, hnd, hstep⟩ := bind_eq_ok.mp hstep
    refine ⟨⟨nd, SymbolTable.lookupNodeSymbol_eq_ok.mp hnd⟩, ?_⟩
    split at hstep
    next hnull =>
      cases hstep
      refine Or.inr ⟨?_, _, rfl⟩
      rw [deref_some, SortedMap.mem_entries_iff.mp hentry, hnull]
      rfl
    next =>
      cases hstep
      exact Or.inl rfl
  have hnamed : Named symtable fmap := by
    have hall := foldlM_forall_mem (P := fun _ : FlowMap × List String => True)
      (Q := fun (entry : String × Node) (_ : FlowMap × List String) =>
        ∃ nd, symtable.find entry.1 = some (.node nd)) hst trivial
      (fun _ _ _ _ _ _ => trivial)
      (fun entry hentry s s' _ hstep => (hone entry hentry s s' hstep).1)
      fun _ _ _ _ _ _ hQ _ => hQ
    intro n hn
    obtain ⟨fl, hfl⟩ := Option.ne_none_iff_exists'.mp hn
    exact hall (n, fl) (SortedMap.mem_entries_iff.mpr hfl)
  have hkept := foldlM_invariant (P := fun s : FlowMap × List String => SameKinds fmap s.1 ∧
      (∀ n, fmap.find n ≠ none ↔ s.1.find n ≠ none) ∧ (NoHandlers fmap → NoHandlers s.1)) hst
    ⟨.refl fmap, fun _ => Iff.rfl, id⟩ fun entry hentry s s' hs hstep => by
      rcases (hone entry hentry s s' hstep).2 with heq | ⟨hnull, f, heq⟩
      · rw [heq]
        exact hs
      · have hfound : fmap.find entry.1 ≠ none := by
          rw [SortedMap.mem_entries_iff.mp hentry]
          exact Option.some_ne_none _
        rw [heq]
        refine ⟨hs.1.trans (sameKinds_add (iff_of_false id ?_)), fun n => ?_, fun h =>
          (hs.2.2 h).add rfl⟩
        · rw [hs.1 entry.1, hnull]
          exact id
        · rw [SortedMap.find_add]
          split
          next hn => exact iff_of_true (hn ▸ hfound) (Option.some_ne_none _)
          next => exact hs.2.1 n
  exact ⟨hkept.1, fun n hn => (hkept.2.1 n).mp hn, hnamed,
    fun n hn => hnamed n ((hkept.2.1 n).mpr hn), hkept.2.2⟩

/-- A condition that is declared by its use may hide a node, and changes none. -/
theorem keepsNodes_addConditionals {exprs : List Expr} {symtable' : SymbolTable}
    (h : exprs.foldlM addConditionals symtable = .ok symtable') :
    KeepsNodes symtable symtable' := by
  have hone : ∀ (table table' : SymbolTable) (item : DeclFormal × CommaItem),
      KeepsNodes symtable table → addConditional table item = .ok table' →
      KeepsNodes symtable table' := by
    intro table table' item hkeeps hadd
    unfold addConditional at hadd
    split at hadd
    · cases hadd
      exact hkeeps
    · unfold TypeCheck.onNotFound at hadd
      split at hadd
      · cases hadd
        intro n nd hfind
        rw [SymbolTable.addConditional, SortedMap.find_add] at hfind
        split at hfind
        · cases hfind
        · exact hkeeps n nd hfind
      · obtain ⟨conds, -, hadd⟩ := bind_eq_ok.mp hadd
        split at hadd
        · split at hadd
          · cases hadd
            exact hkeeps
          · cases hadd
        · cases hadd
  refine foldlM_invariant (P := KeepsNodes symtable) h (fun _ _ hfind => hfind)
    fun e _ table table' hkeeps hstep => ?_
  unfold addConditionals at hstep
  split at hstep
  · cases hstep
    exact hkeeps
  · obtain ⟨nd, -, hstep⟩ := bind_eq_ok.mp hstep
    split at hstep
    · exact foldlM_invariant (P := KeepsNodes symtable) hstep hkeeps
        fun item _ table table' hkeeps hitem => hone table table' item hkeeps hitem
    · cases hstep

end

/-! ## Error handlers -/

/-- Setting the error handler keeps the kind. -/
theorem ofExpr_setErr {hr : Cell} {fl : Node} : OfExpr (setErr hr fl) ↔ OfExpr fl := by
  cases fl <;> exact Iff.rfl

/-- More checks. -/
theorem Typed.grow {symtable : SymbolTable} {exprs : List Expr} {fmap : FlowMap}
    {unified unified' : UnificationResult} {S : End → End → Prop}
    (h : Typed symtable exprs (fmap, unified)) (hchecked : Checked symtable S unified unified')
    (hfound : ∀ a b, S a b → fmap.find a.1 ≠ none ∧ fmap.find b.1 ≠ none) :
    Typed symtable exprs (fmap, unified') where
  links x y hxy := (h.links x y hxy).imp_right fun hagree => hagree.mono hchecked.grows
  exprs := h.exprs
  pairs := h.pairs_of_checked hchecked (fun _ hn => hn) hfound

/-- An error handler takes the input of the node. -/
structure HandlersTyped (symtable : SymbolTable) (exprs : List Expr)
    (st : FlowMap × UnificationResult) : Prop extends Typed symtable exprs st where
  named : Named symtable st.1
  handlers : ∀ x y, errCell (deref st.1 (some x)) = some y →
    st.1.find y ≠ none ∧ Linked st.2 (y, true) (x, true)

/-- The cell that is bound takes the input of the handler that was written. -/
def HandlerFits (hname : String) (hcell : Cell) (st : FlowMap × UnificationResult) : Prop :=
  st.1.find hname ≠ none ∧
    ∀ y, hcell = some y → st.1.find y ≠ none ∧ Linked st.2 (y, true) (hname, true)

section

variable {symtable : SymbolTable} {exprs : List Expr} {st st' : FlowMap × UnificationResult}
  {hname n : String} {hcell : Cell}

/-- The error handler of a node is checked against its input. -/
theorem checked_addErrorOn (hadd : addErrorOn false symtable hname hcell st n = .ok st') :
    Checked symtable (fun a b => a = (hname, true) ∧ b = (n, true)) st.2 st'.2 := by
  unfold addErrorOn at hadd
  obtain ⟨fl, _, hadd⟩ := bind_eq_ok.mp hadd
  split at hadd
  · split at hadd
    · obtain ⟨_, hcheck, hadd⟩ := bind_eq_ok.mp hadd
      cases hadd
      exact checked_of_eq_ok hcheck
    · cases hadd
  · split at hadd
    · obtain ⟨_, hcheck, hadd⟩ := bind_eq_ok.mp hadd
      cases hadd
      exact checked_of_eq_ok hcheck
    · cases hadd
  · cases hadd

/-- A handler of one node. -/
theorem HandlersTyped.addErrorOn (h : HandlersTyped symtable exprs st)
    (hfits : HandlerFits hname hcell st)
    (hadd : addErrorOn false symtable hname hcell st n = .ok st') :
    HandlersTyped symtable exprs st' ∧ HandlerFits hname hcell st' := by
  have hchecked := checked_addErrorOn hadd
  obtain ⟨hne, hst'⟩ := addErrorOn_eq_ok hadd
  have hfound : st.1.find n ≠ none := by
    intro hnone
    rw [deref_some, hnone] at hne
    exact hne rfl
  have hkept : ∀ m, st.1.find m ≠ none → st'.1.find m ≠ none := by
    intro m hm
    rw [hst']
    exact find_add_ne_none hm
  have hmono : ∀ {a b : End}, Linked st.2 a b → Linked st'.2 a b := fun hlinked =>
    hlinked.mono fun _ hp => hchecked.grows hp
  have hpair := hchecked.inputs (x := hname) (y := n) ⟨rfl, rfl⟩
  have hkinds : SameKinds st.1 st'.1 := by
    rw [hst']
    exact sameKinds_add ofExpr_setErr
  have hleads : ∀ x y, Leads st'.1 x y ↔ Leads st.1 x y := by
    intro x y
    rw [hst', leads_add]
    split
    next heq => rw [successorCells_setErr, heq, Leads]
    next => exact Iff.rfl
  have htyped := h.toTyped.transport hkinds hleads hkept fun _ _ => rfl
  refine ⟨⟨htyped.grow hchecked ?_, fun m hm => ?_, fun x y hxy => ?_⟩, hkept _ hfits.1,
    fun y hy => (hfits.2 y hy).imp (hkept y) hmono⟩
  · rintro a b ⟨rfl, rfl⟩
    exact ⟨hkept _ hfits.1, hkept _ hfound⟩
  · rw [hst', SortedMap.find_add] at hm
    split at hm
    next heq => exact heq ▸ h.named n hfound
    next => exact h.named m hm
  · rw [hst', deref_add] at hxy
    split at hxy
    next heq =>
      subst heq
      have hy : hcell = some y ∨ errCell (deref st.1 (some x)) = some y := by
        cases hcase : deref st.1 (some x) with
        | source | cNode =>
            rw [hcase] at hxy
            exact Or.inl hxy
        | chExpr | conExpr | nullNode =>
            rw [hcase] at hxy
            exact Or.inr hxy
      rcases hy with hy | hy
      · obtain ⟨hfind, hlinked⟩ := hfits.2 y hy
        exact ⟨hkept y hfind, (hmono hlinked).trans _ _ _ (.rel _ _ hpair)⟩
      · exact (h.handlers x y hy).imp (hkept y) hmono
    next => exact (h.handlers x y hxy).imp (hkept y) hmono

/-- A handler that is an expression with one branch stands for what that leads to. -/
theorem handlerFits_of_followConcrete (h : HandlersTyped symtable exprs st)
    (hfound : st.1.find hname ≠ none)
    (hfollow : followConcrete st.1 hname (some hname) = .ok hcell) :
    HandlerFits hname hcell st := by
  refine ⟨hfound, fun y hy => ?_⟩
  have hself : hcell = some hname → st.1.find y ≠ none ∧ Linked st.2 (y, true) (hname, true) := by
    intro heq
    obtain rfl := Option.some.inj (heq.symm.trans hy)
    exact ⟨hfound, .refl _⟩
  have hbranch : OfExpr (deref st.1 (some hname)) → Leads st.1 hname y →
      st.1.find y ≠ none ∧ Linked st.2 (y, true) (hname, true) := by
    intro hexpr hleads
    obtain ⟨hfind, hagree⟩ := h.links hname y hleads
    rw [handedOn_of_ofExpr hexpr] at hagree
    exact ⟨hfind, hagree (paramsAt_input_ne_none (h.named hname hfound))⟩
  unfold followConcrete at hfollow
  split at hfollow
  next =>
    cases hfollow
    exact hself rfl
  next =>
    cases hfollow
    exact hself rfl
  next hcase =>
    cases hfollow
    refine hbranch (hcase ▸ trivial) ?_
    rw [Leads, hcase, hy]
    exact List.mem_singleton.mpr rfl
  next hcase =>
    cases hfollow
    refine hbranch (hcase ▸ trivial) ?_
    rw [Leads, hcase, hy]
    exact List.mem_singleton.mpr rfl
  next => cases hfollow

/-- Error handlers are typed one after another. -/
theorem HandlersTyped.addError {err : Err} (h : HandlersTyped symtable exprs st)
    (hadd : addError false symtable st err = .ok st') : HandlersTyped symtable exprs st' := by
  unfold Flow.addError at hadd
  obtain ⟨_, hfind, hadd⟩ := bind_eq_ok.mp hadd
  obtain ⟨hcell, hfollow, hadd⟩ := bind_eq_ok.mp hadd
  have hfound : st.1.find err.handler ≠ none := by
    intro hnone
    have hcase := onNotFound_error_eq_ok.mp hfind
    rw [findCell, hnone] at hcase
    cases hcase
  exact (foldlM_invariant
    (P := fun s => HandlersTyped symtable exprs s ∧ HandlerFits err.handler hcell s) hadd
    ⟨h, handlerFits_of_followConcrete h hfound hfollow⟩
    fun n _ s s' hs hstep => hs.1.addErrorOn hs.2 hstep).1

end

end Flow
end Frontend
end OFlux
