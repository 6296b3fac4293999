import OFlux.Frontend.Flatten

/-!
# The order of guards that depend on each other

The key of a guard reference, or its condition, may mention another reference of the same node.
The guard that is mentioned has to come first, and {lit}`for_program` adds such a pair to the
order declarations.  Names change on the way to the program without modules, by prefixes and by
identified guards, and the pairs change with them.

Main results:

- Theorem {lit}`eq_of_prefixSp_eq`: what a prefixed reference is called by.
- Theorem {lit}`ordersMentions_flatten`: every mention has its pair.
-/

namespace OFlux
namespace Frontend
namespace Flatten

open TypeCheck (assoc)
open Library.Fallible (bind_eq_ok exists_mem_of_mapM)

/-! ## Mentions -/

/-- The reference that a key means by a name: the first one of that local name. -/
def referenceOf (grl : List GuardRef) (ga : String) : Option GuardRef :=
  grl.find? fun gr => GuardRef.localName gr = ga

/-- The key or the condition of {lit}`gr` mentions {lit}`gr'`. -/
def Mentions (grl : List GuardRef) (gr gr' : GuardRef) : Prop :=
  gr ∈ grl ∧ ∃ ga ∈ GuardRef.gargs gr, referenceOf grl ga = some gr'

/-- Whatever is mentioned comes first. -/
def OrdersMentions (ndl : List NodeDecl) (orders : List (String × String)) : Prop :=
  ∀ nd ∈ ndl, ∀ gr gr', Mentions nd.guardrefs gr gr' → (gr'.guardname, gr.guardname) ∈ orders

/-- A local name stands for the guard of its reference. -/
theorem lookup_localName (grl : List GuardRef) (ga : String) :
    (grl.map fun gr => (GuardRef.localName gr, gr.guardname)).lookup ga =
      (referenceOf grl ga).map GuardRef.guardname := by
  unfold referenceOf
  induction grl with
  | nil => rfl
  | cons gr grl ih =>
      rw [List.map_cons, List.lookup_cons, List.find?_cons]
      by_cases h : GuardRef.localName gr = ga
      · simp [h]
      · have hne : (ga == GuardRef.localName gr) = false := beq_eq_false_iff_ne.mpr (Ne.symm h)
        simpa [h, hne] using ih

/-- The implicit orderings order every mention. -/
theorem ordersMentions_implicit {ndl : List NodeDecl} {orders : List (String × String)}
    (h : getImplicitGrOrderings ndl = .ok orders) : OrdersMentions ndl orders := by
  unfold getImplicitGrOrderings at h
  obtain ⟨perNode, hnodes, h⟩ := bind_eq_ok.mp h
  cases h
  rintro nd hnd gr gr' ⟨hgr, ga, hga, href⟩
  obtain ⟨ofNode, hmem, hone⟩ := exists_mem_of_mapM hnodes nd hnd
  unfold implicitOrderings at hone
  obtain ⟨perRef, hrefs, hone⟩ := bind_eq_ok.mp hone
  cases hone
  obtain ⟨ofRef, hmemRef, hpairs⟩ := exists_mem_of_mapM hrefs gr hgr
  obtain ⟨pair, hpair, hassoc⟩ := exists_mem_of_mapM hpairs ga hga
  have hpairEq : pair = (gr'.guardname, gr.guardname) := by
    rw [assoc, lookup_localName, href] at hassoc
    cases hassoc
    rfl
  refine List.mem_flatten.mpr ⟨_, hmem, List.mem_flatten.mpr ⟨_, hmemRef, ?_⟩⟩
  exact hpairEq ▸ hpair

/-- Dropping repetitions loses nothing. -/
theorem mem_discardRepeated {ll : List (String × String)} {x : String × String} :
    x ∈ discardRepeated ll ↔ x ∈ ll := by
  fun_induction discardRepeated ll with
  | case1 h t ih => simp [ih]
  | case2 h1 h2 t hne ih => simp [ih]
  | case3 ll => rfl

/-- Dropping repetitions loses nothing. -/
theorem mem_uniqStrPosedPairs {ll : List (String × String)} {x : String × String} :
    x ∈ uniqStrPosedPairs ll ↔ x ∈ ll := by
  rw [uniqStrPosedPairs, mem_discardRepeated, List.mem_insertionSort]

/-! ## References under other names -/

/-- A change of the references of a node after which each key means what it meant before. -/
theorem Mentions.of_map {f : GuardRef → GuardRef} {grl : List GuardRef} {gr gr' : GuardRef}
    (hargs : ∀ g ∈ grl, ∀ ga ∈ GuardRef.gargs (f g), ∃ ga₀ ∈ GuardRef.gargs g,
      ∀ g₁, referenceOf (grl.map f) ga = some g₁ →
        ∃ g₀, referenceOf grl ga₀ = some g₀ ∧ g₁ = f g₀)
    (h : Mentions (grl.map f) gr gr') :
    ∃ g g', Mentions grl g g' ∧ gr = f g ∧ gr' = f g' := by
  obtain ⟨hgr, ga, hga, href⟩ := h
  obtain ⟨g, hg, rfl⟩ := List.mem_map.mp hgr
  obtain ⟨ga₀, hga₀, hsame⟩ := hargs g hg ga hga
  obtain ⟨g', hg', rfl⟩ := hsame gr' href
  exact ⟨g, g', ⟨hg, ga₀, hga₀, hg'⟩, rfl, rfl⟩

/-- Two texts that begin alike end alike. -/
theorem append_cons_cancel {c : Char} {p rest t : List Char} (h : c :: (p ++ rest) = p ++ t) :
    c :: rest = t := by
  induction p with
  | nil => exact h
  | cons d p ih =>
      rw [List.cons_append, List.cons_append, List.cons.injEq] at h
      obtain ⟨rfl, h⟩ := h
      exact ih h

/-- The ampersand in front of a prefixed name cannot be mistaken for a part of the prefix. -/
theorem eq_of_prefixSp_eq {p s t : String} (h : prefixSp p s = p ++ t) : s = t := by
  rw [← String.toList_inj] at h ⊢
  unfold prefixSp at h
  split at h
  next rest hs =>
    rw [hs]
    refine append_cons_cancel (p := p.toList) ?_
    simpa using h
  next =>
    rw [String.toList_append, String.toList_append] at h
    exact List.append_cancel_left h

/-- The local name inside an instance. -/
theorem localName_forGuardRef (p : String) (gr : GuardRef) :
    GuardRef.localName (forGuardRef p gr) = prefixSp p (GuardRef.localName gr) := by
  unfold GuardRef.localName forGuardRef
  cases gr.localgname <;> rfl

/-- The arguments inside an instance. -/
theorem mem_gargs_forGuardRef {p ga : String} {gr : GuardRef}
    (h : ga ∈ GuardRef.gargs (forGuardRef p gr)) : ∃ ga₀ ∈ GuardRef.gargs gr, ga = p ++ ga₀ := by
  unfold GuardRef.gargs forGuardRef at h
  obtain ⟨ue, hue, hga⟩ := List.mem_filterMap.mp h
  have hmap : (gr.guardcond.map (prefixGarg p) ::
      gr.arguments.map fun uel => uel.map (prefixGarg p)).flatten =
        (gr.guardcond :: gr.arguments).flatten.map (prefixGarg p) := by
    rw [List.map_flatten, List.map_cons]
  rw [hmap] at hue
  obtain ⟨ue₀, hue₀, rfl⟩ := List.mem_map.mp hue
  cases ue₀ with
  | gArg ga₀ =>
      refine ⟨ga₀, List.mem_filterMap.mpr ⟨_, hue₀, rfl⟩, ?_⟩
      exact (Option.some.inj hga).symm
  | arg name => cases hga
  | context text => cases hga

/-- A mention inside an instance comes from its module. -/
theorem Mentions.of_forGuardRef {p : String} {grl : List GuardRef} {gr gr' : GuardRef}
    (h : Mentions (grl.map (forGuardRef p)) gr gr') :
    ∃ g g', Mentions grl g g' ∧ gr = forGuardRef p g ∧ gr' = forGuardRef p g' := by
  refine h.of_map fun g _ ga hga => ?_
  obtain ⟨ga₀, hga₀, rfl⟩ := mem_gargs_forGuardRef hga
  refine ⟨ga₀, hga₀, fun g₁ hg₁ => ?_⟩
  unfold referenceOf at hg₁ ⊢
  rw [List.find?_map] at hg₁
  obtain ⟨g₀, hg₀, rfl⟩ := Option.map_eq_some_iff.mp hg₁
  -- the name that is found shows how the prefix acts on it
  have hfound : prefixSp p (GuardRef.localName g₀) = p ++ ga₀ := by
    simpa [localName_forGuardRef] using List.find?_some hg₀
  rw [eq_of_prefixSp_eq hfound] at hfound
  refine ⟨g₀, ?_, rfl⟩
  rw [← hg₀]
  congr 1
  funext g
  rw [Function.comp_apply, localName_forGuardRef, decide_eq_decide]
  constructor
  · exact fun heq => heq.symm ▸ hfound
  · exact eq_of_prefixSp_eq

/-! ## Identified references -/

/-- A substitution keeps the local name. -/
theorem localName_substGuardref (gr : GuardRef) (sub : String × String) :
    GuardRef.localName (substGuardref gr sub) = GuardRef.localName gr := by
  unfold substGuardref
  split <;> rfl

/-- A substitution keeps the arguments. -/
theorem gargs_substGuardref (gr : GuardRef) (sub : String × String) :
    GuardRef.gargs (substGuardref gr sub) = GuardRef.gargs gr := by
  unfold substGuardref
  split <;> rfl

/-- A substitution changes the guard. -/
theorem guardname_substGuardref (gr : GuardRef) (sub : String × String) :
    (substGuardref gr sub).guardname = substName gr.guardname sub := by
  unfold substGuardref substName
  split <;> rfl

/-- Identifying guards changes what a reference names, and nothing by which it is known. -/
theorem substGuardrefs_spec (subst : List (String × String)) (gr : GuardRef) :
    GuardRef.localName (subst.foldl substGuardref gr) = GuardRef.localName gr ∧
      GuardRef.gargs (subst.foldl substGuardref gr) = GuardRef.gargs gr ∧
      (subst.foldl substGuardref gr).guardname = subst.foldl substName gr.guardname := by
  induction subst generalizing gr with
  | nil => exact ⟨rfl, rfl, rfl⟩
  | cons sub subst ih =>
      rw [List.foldl_cons, List.foldl_cons, ← localName_substGuardref gr sub,
        ← gargs_substGuardref gr sub, ← guardname_substGuardref gr sub]
      exact ih _

/-- A mention after a substitution comes from one before. -/
theorem Mentions.of_substGuardrefs {subst : List (String × String)} {grl : List GuardRef}
    {gr gr' : GuardRef} (h : Mentions (substGuardrefs subst grl) gr gr') :
    ∃ g g', Mentions grl g g' ∧ gr = subst.foldl substGuardref g ∧
      gr' = subst.foldl substGuardref g' := by
  refine Mentions.of_map (fun g _ ga hga => ⟨ga, (substGuardrefs_spec subst g).2.1 ▸ hga, ?_⟩) h
  intro g₁ hg₁
  unfold referenceOf at hg₁ ⊢
  rw [List.find?_map] at hg₁
  obtain ⟨g₀, hg₀, rfl⟩ := Option.map_eq_some_iff.mp hg₁
  refine ⟨g₀, ?_, rfl⟩
  rw [← hg₀]
  congr 1
  funext g
  rw [Function.comp_apply, (substGuardrefs_spec subst g).1]

/-! ## The program without modules -/

theorem OrdersMentions.mono {ndl ndl' : List NodeDecl} {orders orders' : List (String × String)}
    (h : OrdersMentions ndl orders) (hnodes : ∀ nd ∈ ndl', nd ∈ ndl)
    (horders : ∀ x ∈ orders, x ∈ orders') : OrdersMentions ndl' orders' :=
  fun nd hnd gr gr' hm => horders _ (h nd (hnodes nd hnd) gr gr' hm)

theorem OrdersMentions.append {ndl ndl' : List NodeDecl} {orders orders' : List (String × String)}
    (h : OrdersMentions ndl orders) (h' : OrdersMentions ndl' orders') :
    OrdersMentions (ndl ++ ndl') (orders ++ orders') := by
  intro nd hnd gr gr' hm
  rcases List.mem_append.mp hnd with hnd | hnd
  · exact List.mem_append_left _ (h nd hnd gr gr' hm)
  · exact List.mem_append_right _ (h' nd hnd gr gr' hm)

/-- An instance of a module has its mentions ordered. -/
theorem ordersMentions_forProgram {ip mp : String} {pr pr' : Program}
    (h : forProgram ip mp pr = .ok pr') :
    OrdersMentions pr'.nodeDeclList pr'.orderDeclList := by
  unfold forProgram at h
  obtain ⟨implicit, himplicit, h⟩ := bind_eq_ok.mp h
  cases h
  intro nd' hnd' gr gr' hm
  obtain ⟨nd, hnd, rfl⟩ := List.mem_map.mp hnd'
  obtain ⟨g, g', hmentions, rfl, rfl⟩ := Mentions.of_forGuardRef hm
  have hpair := ordersMentions_implicit himplicit nd hnd g g' hmentions
  exact mem_uniqStrPosedPairs.mpr (List.mem_map.mpr ⟨_, List.mem_append_right _ hpair, rfl⟩)

/-- A substitution keeps the mentions ordered. -/
theorem ordersMentions_applyGuardrefSubst (gsubst : List (String × String)) {pr : Program}
    (h : OrdersMentions pr.nodeDeclList pr.orderDeclList) :
    OrdersMentions (applyGuardrefSubst gsubst pr).nodeDeclList
      (applyGuardrefSubst gsubst pr).orderDeclList := by
  intro nd' hnd' gr gr' hm
  obtain ⟨nd, hnd, rfl⟩ := List.mem_map.mp hnd'
  obtain ⟨g, g', hmentions, rfl, rfl⟩ := Mentions.of_substGuardrefs hm
  refine List.mem_map.mpr ⟨_, h nd hnd g g' hmentions, ?_⟩
  rw [substOrderDecl, (substGuardrefs_spec gsubst g).2.2, (substGuardrefs_spec gsubst g').2.2]

/-- Joining an instance keeps the mentions ordered. -/
theorem ordersMentions_joinInst {ip mp : String} {isstaticmod externalinst : Bool}
    {gsubst : List (String × String)} {prSofar moddefpr pr : Program}
    (hsofar : OrdersMentions prSofar.nodeDeclList prSofar.orderDeclList)
    (hinner : OrdersMentions moddefpr.nodeDeclList moddefpr.orderDeclList)
    (h : joinInst ip mp isstaticmod gsubst externalinst prSofar moddefpr = .ok pr) :
    OrdersMentions pr.nodeDeclList pr.orderDeclList := by
  have hjoined := joinInst_eq_ok h
  rw [hjoined.nodeDeclList, hjoined.orderDeclList]
  refine (hsofar.mono (fun _ => List.mem_of_mem_filter) fun _ => id).append ?_
  have hsubst := ordersMentions_applyGuardrefSubst gsubst hinner
  cases externalinst with
  | false => exact hsubst.mono (fun _ => List.mem_of_mem_filter) fun _ => id
  | true =>
      -- nothing but external nodes
      intro nd hnd
      obtain ⟨hnd, hexternal⟩ := List.mem_filter.mp hnd
      obtain ⟨_, _, rfl⟩ := List.mem_map.mp hnd
      cases hexternal

/-- In the program without modules, a pair of the order declarations puts a guard that a key
mentions before the guard of the key. -/
theorem ordersMentions_flatten {weakUnification : Bool} {depth : Nat} {prog flat : Program}
    (h : flatten weakUnification depth prog = .ok flat) :
    OrdersMentions flat.nodeDeclList flat.orderDeclList := by
  unfold flatten at h
  obtain ⟨_, _, h⟩ := bind_eq_ok.mp h
  exact flt_invariant _ (P := fun pr => OrdersMentions pr.nodeDeclList pr.orderDeclList)
    (fun _ _ _ _ => ordersMentions_forProgram)
    (fun _ _ _ _ _ _ _ _ hsofar hinner => ordersMentions_joinInst hsofar hinner) h

end Flatten
end Frontend
end OFlux
