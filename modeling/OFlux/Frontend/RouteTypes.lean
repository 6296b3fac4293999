import OFlux.Frontend.TypedLinks

/-!
# Types along the routes

From a node that ends, a route goes through expressions to the nodes that run next.  The structures
of the generated code are numbered for the whole program, by the classes that the checks generate.

Main results:

- Theorem {lit}`hasTypes_of_associated`: the ends in one class have parameters of the same types.
- Theorem {lit}`routes_typed`: if only nodes without an expression are followed by another member,
  whatever a node is handed has the structure and the types of its input.
- Theorem {lit}`routes_untyped`: a program whose flow hands over something else.
-/

namespace OFlux
namespace Frontend
namespace Flow

open Library Fallible
open Relation (ReflTransGen)
open Classes (Linked)
open TypeCheck (UnificationResult HasParameters FunctionEnd Associated toFunc)

/-! ## The routes of a program -/

/-- A node that runs when another one has been entered: expressions hand on to their branches. -/
def Enters (fmap : FlowMap) : String → String → Prop :=
  ReflTransGen fun x y => OfExpr (deref fmap (some x)) ∧ Leads fmap x y

/-- The node is handed what stands at that end: the output of a node in front of it, or the input of
a node that it handles the errors of. -/
inductive Handed (fmap : FlowMap) : End → String → Prop where
  | output {m y s : String} :
      ¬ OfExpr (deref fmap (some m)) → Leads fmap m y → Enters fmap y s → Handed fmap (m, false) s
  | input {m y s : String} :
      errCell (deref fmap (some m)) = some y → Enters fmap y s → Handed fmap (m, true) s

/-- The ends along an abstract entry are unified. -/
theorem HandlersTyped.linked_of_enters {symtable : SymbolTable} {exprs : List Expr}
    {st : FlowMap × UnificationResult} (h : HandlersTyped symtable exprs st) {y s : String}
    (henters : Enters st.1 y s) : Linked st.2 (s, true) (y, true) := by
  induction henters with
  | refl => exact .refl _
  | @tail x z hyx hxz ih =>
      obtain ⟨hexpr, hleads⟩ := hxz
      obtain ⟨-, hagree⟩ := h.links x z hleads
      rw [handedOn_of_ofExpr hexpr] at hagree
      have hnode := h.named x (find_ne_none_of_leads hleads)
      exact (hagree (paramsAt_input_ne_none hnode)).trans _ _ _ ih

/-- What is handed to a node is unified with its input. -/
theorem HandlersTyped.linked_of_handed {symtable : SymbolTable} {exprs : List Expr}
    {st : FlowMap × UnificationResult} (h : HandlersTyped symtable exprs st) {e : End} {s : String}
    (hhanded : Handed st.1 e s) (hdeclared : paramsAt symtable e ≠ none) :
    Linked st.2 (s, true) e := by
  cases hhanded with
  | output hm hleads henters =>
      obtain ⟨-, hagree⟩ := h.links _ _ hleads
      rw [handedOn_of_not_ofExpr hm] at hagree
      exact (h.linked_of_enters henters).trans _ _ _ (hagree hdeclared)
  | input herr henters => exact (h.linked_of_enters henters).trans _ _ _ (h.handlers _ _ herr).2

/-! ## Classes -/

/-- Nodes with the same function have parameters of the same types. -/
def OneSignature (symtable : SymbolTable) : Prop :=
  ∀ n nd n' nd', symtable.find n = some (.node nd) → symtable.find n' = some (.node nd') →
    nd.functionname = nd'.functionname → typesOf nd.nodeinputs = typesOf nd'.nodeinputs ∧
      nd.nodeoutputs.map typesOf = nd'.nodeoutputs.map typesOf

/-- A node has that function, with parameters of those types at that end. -/
def HasTypes (symtable : SymbolTable) (e : End) (types : List String) : Prop :=
  ∃ n dfs, toFunc symtable (n, e.2) = e ∧ paramsAt symtable (n, e.2) = some dfs ∧
    typesOf dfs = types

/-- The parameters at an end of a node. -/
theorem paramsAt_eq_some {symtable : SymbolTable} {e : End} {dfs : List DeclFormal} :
    paramsAt symtable e = some dfs ↔ ∃ nd, symtable.find e.1 = some (.node nd) ∧
      (if e.2 then some nd.nodeinputs else nd.nodeoutputs) = some dfs := by
  unfold paramsAt
  split
  next nd hfind => simp [hfind]
  next hother =>
    refine iff_of_false (Option.some_ne_none dfs).symm ?_
    rintro ⟨nd, hfind, -⟩
    exact hother nd hfind

/-- The end of the function of a node. -/
theorem toFunc_of_find {symtable : SymbolTable} {n : String} {nd : NodeData} {isin : Bool}
    (h : symtable.find n = some (.node nd)) :
    toFunc symtable (n, isin) = (nd.functionname, isin) := by
  simp [toFunc, SymbolTable.lookupNodeSymbol, h]

/-- The side of an end stays. -/
theorem toFunc_snd (symtable : SymbolTable) (e : End) : (toFunc symtable e).2 = e.2 := by
  unfold toFunc
  split <;> rfl

section

variable {symtable : SymbolTable} {ulist : UnificationResult} {a b c : End}

/-- Parameters give the types of the function. -/
theorem HasTypes.of_params {dfs : List DeclFormal} (h : paramsAt symtable a = some dfs) :
    HasTypes symtable (toFunc symtable a) (typesOf dfs) :=
  ⟨a.1, dfs, by rw [toFunc_snd], by rw [toFunc_snd]; exact h, rfl⟩

/-- What has types is the end of a function. -/
theorem HasTypes.functionEnd {types : List String} (h : HasTypes symtable a types) :
    FunctionEnd symtable a := by
  obtain ⟨n, dfs, hfunc, hparams, -⟩ := h
  obtain ⟨nd, hfind, hdfs⟩ := paramsAt_eq_some.mp hparams
  rw [toFunc_of_find hfind] at hfunc
  exact ⟨_, n, nd, dfs, hfind, congrArg Prod.fst hfunc, hdfs, rfl⟩

/-- With one signature a function end has one list of types. -/
theorem HasTypes.unique (hone : OneSignature symtable) {types types' : List String}
    (h : HasTypes symtable a types) (h' : HasTypes symtable a types') : types = types' := by
  obtain ⟨f, isin⟩ := a
  obtain ⟨n, dfs, hfunc, hparams, rfl⟩ := h
  obtain ⟨n', dfs', hfunc', hparams', rfl⟩ := h'
  obtain ⟨nd, hfind, hdfs⟩ := paramsAt_eq_some.mp hparams
  obtain ⟨nd', hfind', hdfs'⟩ := paramsAt_eq_some.mp hparams'
  rw [toFunc_of_find hfind] at hfunc
  rw [toFunc_of_find hfind'] at hfunc'
  obtain ⟨hin, hout⟩ :=
    hone n nd n' nd' hfind hfind' (congrArg Prod.fst (hfunc.trans hfunc'.symm))
  cases isin with
  | true =>
      obtain rfl := Option.some.inj hdfs
      obtain rfl := Option.some.inj hdfs'
      exact hin
  | false =>
      simp only [Bool.false_eq_true, if_false] at hdfs hdfs'
      rw [hdfs, hdfs'] at hout
      exact Option.some.inj hout

/-- Parameters give types. -/
theorem hasTypes_of_hasParameters {dfs : List StrippedDf}
    (h : HasParameters symtable a dfs) :
    HasTypes symtable a (dfs.map fun df => Unify.cleanseAmp (ofLex (ofLex df).2).1) := by
  obtain ⟨f, isin⟩ := a
  obtain ⟨n, nd, decls, hfind, hfunction, hdecls, rfl⟩ := h
  refine ⟨n, decls, ?_, paramsAt_eq_some.mpr ⟨nd, hfind, hdecls⟩, ?_⟩
  · rw [toFunc_of_find hfind]
    exact Prod.ext hfunction rfl
  · rw [List.map_map]
    rfl

/-- Ends of one class have the same types, if all pairs have. -/
theorem hasTypes_of_associated (hone : OneSignature symtable)
    (hpairs : ∀ p ∈ ulist, SameTypes symtable p.1 p.2)
    (h : Relation.EqvGen (Associated ulist symtable) a b) :
    a = b ∨ ∃ types, HasTypes symtable a types ∧ HasTypes symtable b types := by
  induction h with
  | rel a b hab =>
      right
      rcases hab with ⟨p, hp, rfl, rfl⟩ | ⟨dfs, ha, hb⟩
      · obtain ⟨as, bs, has, hbs, hsame⟩ := hpairs p hp
        exact ⟨_, .of_params has, hsame ▸ .of_params hbs⟩
      · exact ⟨_, hasTypes_of_hasParameters ha, hasTypes_of_hasParameters hb⟩
  | refl a => exact Or.inl rfl
  | symm a b _ ih =>
      rcases ih with rfl | ⟨types, ha, hb⟩
      · exact Or.inl rfl
      · exact Or.inr ⟨types, hb, ha⟩
  | trans a b c _ _ ihab ihbc =>
      rcases ihab with rfl | ⟨types, ha, hb⟩
      · exact ihbc
      · rcases ihbc with rfl | ⟨types', hb', hc⟩
        · exact Or.inr ⟨types, ha, hb⟩
        · obtain rfl := hb.unique hone hb'
          exact Or.inr ⟨types, ha, hc⟩

/-- Unified ends have associated functions. -/
theorem associated_of_linked (h : Linked ulist a b) :
    Relation.EqvGen (Associated ulist symtable) (toFunc symtable a) (toFunc symtable b) := by
  induction h with
  | rel a b hab => exact .rel _ _ (Or.inl ⟨(a, b), hab, rfl, rfl⟩)
  | refl a => exact .refl _
  | symm a b _ ih => exact ih.symm
  | trans a b c _ _ ih ih' => exact ih.trans _ _ _ ih'

/-- The pairs of the first and last nodes, which have no parameters, and of each end with itself. -/
theorem sameTypes_fromBasicNodes {sinks sources : List String}
    (hsinks : ∀ n ∈ sinks, paramsAt symtable (n, false) = some [])
    (hsources : ∀ n ∈ sources, paramsAt symtable (n, true) = some []) :
    ∀ p ∈ TypeCheck.fromBasicNodes symtable sinks sources, SameTypes symtable p.1 p.2 := by
  have hempty : ∀ e ∈ sinks.map (fun x => (x, false)) ++ sources.map (fun x => (x, true)),
      paramsAt symtable e = some [] := by
    intro e he
    rcases List.mem_append.mp he with he | he
    · obtain ⟨n, hn, rfl⟩ := List.mem_map.mp he
      exact hsinks n hn
    · obtain ⟨n, hn, rfl⟩ := List.mem_map.mp he
      exact hsources n hn
  have hself : ∀ e, paramsAt symtable e ≠ none → SameTypes symtable e e := by
    intro e he
    obtain ⟨dfs, hdfs⟩ := Option.ne_none_iff_exists'.mp he
    exact ⟨dfs, dfs, hdfs, hdfs, rfl⟩
  intro p hp
  unfold TypeCheck.fromBasicNodes at hp
  rw [SymbolTable.mem_foldNodes (P := fun n nd p => p = ((n, true), (n, true)) ∨
    nd.nodeoutputs ≠ none ∧ p = ((n, false), (n, false))) fun n nd ul x => by
      by_cases hnone : nd.nodeoutputs = none
      · simp [hnone, or_comm]
      · simp only [hnone, if_false, List.mem_cons, ne_eq, not_false_eq_true, true_and]
        rw [← or_assoc, or_comm]] at hp
  rcases hp with hp | ⟨n, nd, hfind, hp⟩
  · split at hp
    next e rest heq =>
      obtain ⟨e', he', rfl⟩ := List.mem_map.mp hp
      rw [heq, List.forall_mem_cons] at hempty
      exact ⟨[], [], hempty.1, hempty.2 e' he', rfl⟩
    next => exact absurd hp List.not_mem_nil
  · rcases hp with rfl | ⟨hout, rfl⟩
    · exact hself _ (paramsAt_input_ne_none ⟨nd, hfind⟩)
    · refine hself _ ?_
      simpa [paramsAt, hfind] using hout

end

/-! ## Whole programs -/

/-- {lit}`is_concrete`: the nodes with generated code and an element in the XML file. -/
def isConcrete (stable : SymbolTable) (fm : FlowMap) (n : String) : Bool :=
  match fm.find n with
  | some (.source _ _ _ _) | some (.cNode _ _ _ _) =>
      match stable.lookupNodeSymbol n with
      | .ok nd => nd.nodeoutputs.isSome
      | .error _ => false
  | _ => false

/-- A concrete node has parameters. -/
theorem paramsAt_of_isConcrete {symtable : SymbolTable} {fmap : FlowMap} {n : String}
    (h : isConcrete symtable fmap n = true) (isin : Bool) : paramsAt symtable (n, isin) ≠ none := by
  have hnode : (match symtable.lookupNodeSymbol n with
      | .ok nd => nd.nodeoutputs.isSome
      | .error _ => false) = true := by
    unfold isConcrete at h
    split at h
    · exact h
    · exact h
    · cases h
  split at hnode
  next nd hnd =>
    have hfind := SymbolTable.lookupNodeSymbol_eq_ok.mp hnd
    cases isin with
    | true => exact paramsAt_input_ne_none ⟨nd, hfind⟩
    | false =>
        obtain ⟨outs, houts⟩ := Option.isSome_iff_exists.mp hnode
        simp [paramsAt, hfind, houts]
  next => cases hnode

section

variable {depth : Nat} {symtable : SymbolTable} {pr : Program} {built : BuiltFlow}

/-- The stages of the builder, with what they check. -/
theorem buildFlowMap_checks (h : buildFlowMap false depth symtable pr = .ok built) :
    ∃ st st₁ res sinks st₂,
      pr.exprList.reverse.foldlM (addExpr false symtable depth)
        (buildMap pr.nodeDeclList, []) = .ok st ∧
      pr.mainfunList.foldlM (addMainFn false symtable) st = .ok st₁ ∧
      pr.exprList.foldlM addConditionals symtable = .ok built.symtable ∧
      addNamed built.symtable st₁.1 = .ok res ∧
      sinks.forM (verifySink built.symtable) = .ok ⟨⟩ ∧
      pr.errList.foldlM (addError false built.symtable) (res.1, st₁.2) = .ok st₂ ∧
      (pr.mainfunList.map MainFun.sourcename).forM (verifySource built.symtable) = .ok ⟨⟩ ∧
      built.fmap = st₂.1 ∧
      built.ulist = st₂.2 ++ TypeCheck.fromBasicNodes built.symtable sinks
        (pr.mainfunList.map MainFun.sourcename) ∧
      TypeCheck.consequences built.ulist built.symtable = .ok built.consequences := by
  unfold buildFlowMap at h
  obtain ⟨st, hst, h⟩ := bind_eq_ok.mp h
  obtain ⟨st₁, hst₁, h⟩ := bind_eq_ok.mp h
  obtain ⟨symtable', hconds, h⟩ := bind_eq_ok.mp h
  obtain ⟨res, hnamed, h⟩ := bind_eq_ok.mp h
  obtain ⟨named, _, h⟩ := bind_eq_ok.mp h
  obtain ⟨_, hsinks, h⟩ := bind_eq_ok.mp h
  obtain ⟨st₂, hst₂, h⟩ := bind_eq_ok.mp h
  obtain ⟨_, _, h⟩ := bind_eq_ok.mp h
  obtain ⟨_, hsources, h⟩ := bind_eq_ok.mp h
  obtain ⟨_, _, h⟩ := bind_eq_ok.mp h
  obtain ⟨conseq, hconseq, h⟩ := bind_eq_ok.mp h
  cases h
  exact ⟨st, st₁, res, _, st₂, hst, hst₁, hconds, hnamed, hsinks, hst₂, hsources, rfl, rfl, hconseq⟩

/-- A checked source or sink end has no parameters. -/
theorem params_of_verifySs {ntype n : String} {params : List DeclFormal}
    (h : verifySs ntype n params = .ok ()) : params = [] := by
  unfold verifySs at h
  split at h
  · cases h
  next hlength => exact List.length_eq_zero_iff.mp (Nat.eq_zero_of_not_pos hlength)

/-- A sink has no outputs. -/
theorem paramsAt_of_verifySink {n : String} (h : verifySink symtable n = .ok ()) :
    paramsAt symtable (n, false) = some [] := by
  unfold verifySink at h
  obtain ⟨nd, hnd, h⟩ := bind_eq_ok.mp h
  split at h
  next => cases h
  next outs houts =>
    simp [paramsAt, SymbolTable.lookupNodeSymbol_eq_ok.mp hnd, houts, params_of_verifySs h]

/-- A source has no inputs. -/
theorem paramsAt_of_verifySource {n : String} (h : verifySource symtable n = .ok ()) :
    paramsAt symtable (n, true) = some [] := by
  unfold verifySource at h
  obtain ⟨nd, hnd, h⟩ := bind_eq_ok.mp h
  simp [paramsAt, SymbolTable.lookupNodeSymbol_eq_ok.mp hnd, params_of_verifySs h]

/-- What the flow of a program hands from node to node agrees with the pairs of the checks. -/
theorem handlersTyped_of_stages (hlast : AbstractLast pr.exprList)
    {st st₁ st₂ : FlowMap × UnificationResult} {res : FlowMap × List String}
    {symtable' : SymbolTable}
    (hst : pr.exprList.reverse.foldlM (addExpr false symtable depth)
      (buildMap pr.nodeDeclList, []) = .ok st)
    (hst₁ : pr.mainfunList.foldlM (addMainFn false symtable) st = .ok st₁)
    (hconds : pr.exprList.foldlM addConditionals symtable = .ok symtable')
    (hnamed : addNamed symtable' st₁.1 = .ok res)
    (hst₂ : pr.errList.foldlM (addError false symtable') (res.1, st₁.2) = .ok st₂) :
    HandlersTyped symtable' pr.exprList st₂ := by
  have htyped := foldlM_invariant (P := fun s => Typed symtable pr.exprList s) hst₁
    (typed_exprs hlast (fun _ he => he) hst) fun mainfun _ s s' hs hstep => hs.addMainFn hstep
  obtain ⟨hkinds, hkept, hcells, hnodes, hnone⟩ := named_addNamed hnamed
  have hkeeps := keepsNodes_addConditionals hconds
  refine foldlM_invariant (P := fun s => HandlersTyped symtable' pr.exprList s) hst₂
    ⟨htyped.transport hkinds (fun x y => leads_addNamed hnamed) hkept fun e he =>
      hkeeps.paramsAt_eq hcells he, hnodes, fun x y hxy => ?_⟩
    fun err _ s s' hs hstep => hs.addError hstep
  rw [hnone (noHandlers_stages hst hst₁) x] at hxy
  cases hxy

/-- In the flow of a program whose followed members are no expressions, a node is handed what has
the structure of its input, and parameters of the same types. -/
theorem routes_typed (h : buildFlowMap false depth symtable pr = .ok built)
    (hlast : AbstractLast pr.exprList) (hone : OneSignature built.symtable) {e : End} {s : String}
    (hhanded : Handed built.fmap e s) (he : isConcrete built.symtable built.fmap e.1 = true)
    (hs : isConcrete built.symtable built.fmap s = true) :
    (∃ number, built.consequences.unionMap.lookup (toFunc built.symtable e) = some number ∧
      built.consequences.unionMap.lookup (toFunc built.symtable (s, true)) = some number) ∧
    SameTypes built.symtable (s, true) e := by
  obtain ⟨st, st₁, res, sinks, st₂, hst, hst₁, hconds, hnamed, hsinks, hst₂, hsources, hfmap,
    hulist, hconseq⟩ := buildFlowMap_checks h
  have htyped := handlersTyped_of_stages hlast hst hst₁ hconds hnamed hst₂
  obtain ⟨as, has⟩ := Option.ne_none_iff_exists'.mp (paramsAt_of_isConcrete he e.2)
  obtain ⟨bs, hbs⟩ := Option.ne_none_iff_exists'.mp (paramsAt_of_isConcrete hs true)
  have hlinked : Linked built.ulist (s, true) e := by
    rw [hfmap] at hhanded
    rw [hulist]
    exact (htyped.linked_of_handed hhanded (Option.ne_none_iff_exists'.mpr ⟨as, has⟩)).mono
      fun _ hp => List.mem_append_left _ hp
  have hassociated : Relation.EqvGen (Associated built.ulist built.symtable)
      (toFunc built.symtable (s, true)) (toFunc built.symtable e) := associated_of_linked hlinked
  have hparamsE : HasTypes built.symtable (toFunc built.symtable e) (typesOf as) := .of_params has
  have hparamsS : HasTypes built.symtable (toFunc built.symtable (s, true)) (typesOf bs) :=
    .of_params hbs
  have hrefl := hulist ▸ TypeCheck.reflexive_append_fromBasicNodes built.symtable st₂.2 sinks
    (pr.mainfunList.map MainFun.sourcename)
  obtain ⟨classes, -, hdisjoint, -, hcovers, hclass, hnumber, -, hresult⟩ :=
    TypeCheck.consequences_classes built.symtable built.ulist hrefl
  refine ⟨?_, ?_⟩
  · rw [(hresult _ hconseq).2]
    have hsame := (hnumber _ _ hparamsS.functionEnd hparamsE.functionEnd).mpr
      ((hclass _ _ hparamsS.functionEnd hparamsE.functionEnd).mpr hassociated)
    obtain ⟨c, hc, hmem⟩ := hcovers _ hparamsE.functionEnd
    obtain ⟨k, hk⟩ := List.mem_iff_getElem?.mp hc
    have hlookup := TypeCheck.lookup_getUmap hdisjoint hk hmem
    exact ⟨1 + k, hlookup, hsame.trans hlookup⟩
  · have hpairs : ∀ p ∈ built.ulist, SameTypes built.symtable p.1 p.2 := by
      intro p hp
      rw [hulist] at hp
      rcases List.mem_append.mp hp with hp | hp
      · exact (htyped.pairs p.1 p.2 hp).2.2
      · exact sameTypes_fromBasicNodes
          (fun n hn => paramsAt_of_verifySink (forM_eq_ok hsinks n hn))
          (fun n hn => paramsAt_of_verifySource (forM_eq_ok hsources n hn)) p hp
    have hequal : typesOf bs = typesOf as := by
      rcases hasTypes_of_associated hone hpairs hassociated with heq | ⟨types, htypesS, htypesE⟩
      · exact hparamsS.unique hone (heq ▸ hparamsE)
      · exact (hparamsS.unique hone htypesS).trans (htypesE.unique hone hparamsE)
    exact ⟨bs, as, hbs, has, hequal⟩

end

/-- Checked over the entries of the table. -/
theorem oneSignature_of_entries {symtable : SymbolTable}
    (h : (symtable.entries.all fun p => symtable.entries.all fun q =>
      match p.2, q.2 with
      | .node nd, .node nd' => !decide (nd.functionname = nd'.functionname) ||
          decide (typesOf nd.nodeinputs = typesOf nd'.nodeinputs) &&
            decide (nd.nodeoutputs.map typesOf = nd'.nodeoutputs.map typesOf)
      | _, _ => true) = true) : OneSignature symtable := by
  intro n nd n' nd' hfind hfind' hfunction
  have hp := List.all_eq_true.mp h _ (SortedMap.mem_entries_iff.mpr hfind)
  have hq := List.all_eq_true.mp hp _ (SortedMap.mem_entries_iff.mpr hfind')
  simpa [hfunction] using hq

/-- Without conditions the table stays as it is. -/
theorem symtable_of_no_conditions {pr : Program} {symtable : SymbolTable} {built : BuiltFlow}
    {depth : Nat} (h : buildFlowMap false depth symtable pr = .ok built)
    (hnone : ∀ e ∈ pr.exprList, e.condbinding = []) : built.symtable = symtable := by
  obtain ⟨_, _, _, _, _, -, -, hconds, -⟩ := buildFlowMap_checks h
  have hsame : pr.exprList.foldlM addConditionals symtable = .ok symtable :=
    foldlM_eq_self fun e he => by rw [addConditionals, if_pos (hnone e he)]
  exact Except.ok.inj (hconds.symm.trans hsame)

/-- A node with typed parameters; without outputs when it is abstract. -/
def typedNode (n : String) (inputs : List String) (outputs : Option (List String)) : NodeDecl :=
  { nodename := n, nodefunction := n
    inputs := inputs.map fun t => { ctypemod := "", ctype := t, name := "x" }
    outputs := outputs.map fun l => l.map fun t => { ctypemod := "", ctype := t, name := "x" } }

/-- A source behind which an abstract node is a sequence, with an error handler. -/
def readProgram : Program where
  nodeDeclList := [typedNode "Read" [] (some ["int"]), typedNode "Handle" ["int"] none,
    typedNode "Show" ["int"] (some ["string"]), typedNode "Write" ["string"] (some []),
    typedNode "Failed" ["int"] (some [])]
  exprList := [⟨"Handle", [], ["Show", "Write"], .choice⟩]
  mainfunList := [⟨"Read", "Read", some "Handle", 0⟩]
  errList := [⟨["Show"], "Failed"⟩]

/-- The first node of the sequence is handed the output of the source. -/
theorem routes_typed_read :
    ∃ built, buildFlowMap false 3 (tableOf readProgram) readProgram = .ok built ∧
      (∃ number, built.consequences.unionMap.lookup
          (toFunc built.symtable ("Read", false)) = some number ∧
        built.consequences.unionMap.lookup
          (toFunc built.symtable ("Show", true)) = some number) ∧
      SameTypes built.symtable ("Show", true) ("Read", false) := by
  have hcells : (buildFlowMap false 3 (tableOf readProgram) readProgram).map
      (fun built => (deref built.fmap (some "Read"), deref built.fmap (some "Handle"),
        isConcrete built.symtable built.fmap "Read",
        isConcrete built.symtable built.fmap "Show")) =
        .ok (.source "Read" "Read" (some "Handle") none,
          .chExpr "Handle" [([], some "Show")], true, true) := by
    decide +kernel
  obtain ⟨built, hbuilt, hcells⟩ := map_eq_ok.mp hcells
  simp only [Prod.mk.injEq] at hcells
  obtain ⟨hread, hhandle, hconcreteRead, hconcreteShow⟩ := hcells
  have htable : built.symtable = tableOf readProgram :=
    symtable_of_no_conditions hbuilt (by decide)
  refine ⟨built, hbuilt, routes_typed hbuilt ?_ ?_ (.output (m := "Read") (y := "Handle") ?_ ?_ ?_)
    hconcreteRead hconcreteShow⟩
  · intro e he _ s s' hin e' he'
    obtain rfl := List.mem_singleton.mp he
    obtain rfl := List.mem_singleton.mp he'
    have heq : [s, s'] = ["Show", "Write"] := hin.eq_of_length rfl
    obtain ⟨rfl, -⟩ := List.cons.inj heq
    decide
  · rw [htable]
    exact oneSignature_of_entries (by decide +kernel)
  · rw [hread]
    exact id
  · rw [Leads, hread]
    exact List.mem_singleton.mpr rfl
  · refine .single ⟨hhandle ▸ trivial, ?_⟩
    rw [Leads, hhandle]
    exact List.mem_singleton.mpr rfl

/-- An abstract node in front of two others. -/
def followedProgram : Program where
  nodeDeclList := [typedNode "Read" [] (some ["int"]), typedNode "All" ["int"] none,
    typedNode "Choice" ["int"] none, typedNode "Branch" ["int"] (some []),
    typedNode "Next" ["string"] (some ["string"]), typedNode "Last" ["string"] (some [])]
  exprList := [⟨"All", [], ["Choice", "Next", "Last"], .choice⟩,
    ⟨"Choice", [], ["Branch"], .choice⟩]
  mainfunList := [⟨"Read", "Read", some "All", 0⟩]

/-- The builder puts the next member in the place of the branch, and hands a number to a node that
reads a string. -/
theorem routes_untyped :
    ∃ built, buildFlowMap false 3 (tableOf followedProgram) followedProgram = .ok built ∧
      OneSignature built.symtable ∧ Handed built.fmap ("Read", false) "Next" ∧
      isConcrete built.symtable built.fmap "Read" = true ∧
      isConcrete built.symtable built.fmap "Next" = true ∧
      built.consequences.unionMap.lookup (toFunc built.symtable ("Read", false)) ≠
        built.consequences.unionMap.lookup (toFunc built.symtable ("Next", true)) ∧
      ¬ SameTypes built.symtable ("Next", true) ("Read", false) := by
  have hcells : (buildFlowMap false 3 (tableOf followedProgram) followedProgram).map
      (fun built => (deref built.fmap (some "Read"), deref built.fmap (some "All"),
        deref built.fmap (some "Choice"), isConcrete built.symtable built.fmap "Read",
        isConcrete built.symtable built.fmap "Next",
        decide (built.consequences.unionMap.lookup (toFunc built.symtable ("Read", false)) =
          built.consequences.unionMap.lookup (toFunc built.symtable ("Next", true))))) =
        .ok (.source "Read" "Read" (some "All") none, .chExpr "All" [([], some "Choice")],
          .chExpr "Choice" [([], some "Next")], true, true, false) := by
    decide +kernel
  obtain ⟨built, hbuilt, hcells⟩ := map_eq_ok.mp hcells
  simp only [Prod.mk.injEq, decide_eq_false_iff_not] at hcells
  obtain ⟨hread, hall, hchoice, hconcreteRead, hconcreteNext, hnumbers⟩ := hcells
  have htable : built.symtable = tableOf followedProgram :=
    symtable_of_no_conditions hbuilt (by decide)
  refine ⟨built, hbuilt, ?_, .output (m := "Read") (y := "All") ?_ ?_ ?_, hconcreteRead,
    hconcreteNext, hnumbers, ?_⟩
  · rw [htable]
    exact oneSignature_of_entries (by decide +kernel)
  · rw [hread]
    exact id
  · rw [Leads, hread]
    exact List.mem_singleton.mpr rfl
  · have hfirst : OfExpr (deref built.fmap (some "All")) ∧ Leads built.fmap "All" "Choice" := by
      rw [Leads, hall]
      exact ⟨trivial, List.mem_singleton.mpr rfl⟩
    have hsecond : OfExpr (deref built.fmap (some "Choice")) ∧
        Leads built.fmap "Choice" "Next" := by
      rw [Leads, hchoice]
      exact ⟨trivial, List.mem_singleton.mpr rfl⟩
    exact ReflTransGen.tail (b := "Choice") (.single hfirst) hsecond
  · rw [htable]
    rintro ⟨as, bs, has, hbs, htypes⟩
    have hnext : (paramsAt (tableOf followedProgram) ("Next", true)).map typesOf =
        some ["string"] := by
      decide +kernel
    have hout : (paramsAt (tableOf followedProgram) ("Read", false)).map typesOf =
        some ["int"] := by
      decide +kernel
    rw [has] at hnext
    rw [hbs] at hout
    have hstring := Option.some.inj hnext
    have hint := Option.some.inj hout
    rw [hstring, hint] at htypes
    exact absurd htypes (by decide)

end Flow
end Frontend
end OFlux
