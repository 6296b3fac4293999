import OFlux.Reader.PluginReplay

/-!
# Applying a plugin

A flow that was read from a program and its plugin, compared to the flow of the program that
has the plugin built in.

Main results:

- Theorem {lit}`replayNode_spec`: what becomes of a node that was there before.
- Theorem {lit}`readExternals`: the differences of all nodes are read independently.
- Theorem {lit}`pluginApplies_iff`: a plugin makes the program that it was computed from
  exactly when the order in which it adds cases makes no difference.
-/

namespace OFlux
namespace Reader

open Library Compiler

/-! ## Targets of cases -/

/-- The target of the first case that holds. -/
def firstTarget (v : Valuation) (cases : List CaseElement) : Option String :=
  (cases.find? fun c => (caseObject c).satisfied v).map CaseElement.nodetarget

/-- The target of the last case that holds. -/
def lastTarget (v : Valuation) (cases : List CaseElement) : Option String :=
  firstTarget v cases.reverse

/-- Cases read at the end: the first one that holds. -/
theorem getSuccessor_casesObject_false (v : Valuation) (name : String) (l : List CaseElement) :
    (Successor.getSuccessor ⟨name, casesObject false l⟩ v).map Case.targetName =
      firstTarget v l := by
  have hfind : Successor.getSuccessor ⟨name, casesObject false l⟩ v =
      (l.map caseObject).find? fun c => c.satisfied v := rfl
  rw [hfind, List.find?_map, Option.map_map]
  rfl

/-- Cases read in front: the last one that holds. -/
theorem getSuccessor_casesObject_true (v : Valuation) (name : String) (l : List CaseElement) :
    (Successor.getSuccessor ⟨name, casesObject true l⟩ v).map Case.targetName =
      lastTarget v l := by
  have hreverse : casesObject true l = casesObject false l.reverse := by
    simp [casesObject]
  rw [hreverse, getSuccessor_casesObject_false]
  rfl

/-- A changed successor tries its new cases first. -/
theorem getSuccessor_replayedSuccessor (v : Valuation) (sb sa : SuccessorElement) :
    ((replayedSuccessor sb sa).getSuccessor v).map Case.targetName =
      (lastTarget v (newCases sb sa)).or (firstTarget v sb.cases) := by
  rw [replayedSuccessor, Successor.getSuccessor_append, Option.map_or,
    getSuccessor_casesObject_true, getSuccessor_casesObject_false]

/-! ## Nodes that were there before -/

section

variable (nb na : NodeElement)

/-- Nothing that the difference of a node looks at is lost. -/
def NothingLost : Prop :=
  if nb.successors.length = na.successors.length then
    ∀ sb ∈ nb.successors, ∀ sa ∈ na.successors, sb.name = sa.name →
      sb.cases.length ≠ sa.cases.length → CasesKept sb sa
  else SuccessorsKept nb na

/-- With equally many successors, the last new case of a successor that holds is taken, or
else its first old case.  Otherwise the first old case of an old successor is taken, and the
last case of a new one. -/
def TakesChanged (v : Valuation) (t : String) : Prop :=
  if nb.successors.length = na.successors.length then
    ∃ sb ∈ nb.successors, ∃ sa ∈ na.successors, sb.name = sa.name ∧
      (lastTarget v (newCases sb sa)).or (firstTarget v sb.cases) = some t
  else
    (∃ sb ∈ nb.successors, firstTarget v sb.cases = some t) ∨
      ∃ s ∈ newSuccessors nb na, lastTarget v s.cases = some t

/-- The targets that a node takes. -/
def Takes (v : Valuation) (t : String) : Prop :=
  ∃ s ∈ na.successors, firstTarget v s.cases = some t

/-- A node leads to a target in some case. -/
def LeadsTo (t : String) : Prop :=
  ∃ s ∈ na.successors, ∃ c ∈ s.cases, c.nodetarget = t

/-- An old node with other successors. -/
def replayedNode (sl : SuccessorList) : Node :=
  { nodeObject false nb with successorList := some sl }

/-- The successors that a node has after its difference was read. -/
structure Replayed (sl : SuccessorList) : Prop where
  targets : ∀ v t, (∃ s ∈ sl, (s.getSuccessor v).map Case.targetName = some t) ↔
    TakesChanged nb na v t
  cases : ∀ s ∈ sl, ∀ c ∈ s.cases, LeadsTo nb c.targetName ∨ LeadsTo na c.targetName

end

/-- Cases read come from elements. -/
theorem exists_of_mem_casesObject {front : Bool} {l : List CaseElement} {c : Case}
    (h : c ∈ casesObject front l) : ∃ e ∈ l, e.nodetarget = c.targetName := by
  have hmem : c ∈ l.map caseObject := by
    cases front with
    | false => exact h
    | true => exact List.mem_reverse.mp h
  obtain ⟨e, he, rfl⟩ := List.mem_map.mp hmem
  exact ⟨e, he, rfl⟩

section Paired

variable {nb na : NodeElement} {pairs : List (SuccessorElement × SuccessorElement)}
  {resl : List (Bool × Xml)}

/-- The pairs are the successors of equal names. -/
theorem mem_pairs_iff (hbefore : (pairs.map Prod.fst).Perm nb.successors)
    (hafter : (pairs.map Prod.snd).Perm na.successors)
    (hdiffs : List.Forall₂ (fun p r => SuccessorDiff p.1 p.2 r) pairs resl)
    {sb sa : SuccessorElement} :
    (sb, sa) ∈ pairs ↔ sb ∈ nb.successors ∧ sa ∈ na.successors ∧ sb.name = sa.name := by
  constructor
  · intro hp
    exact ⟨hbefore.mem_iff.mp (List.mem_map_of_mem hp),
      hafter.mem_iff.mp (List.mem_map_of_mem hp), name_eq_of_mem_pairs hdiffs hp⟩
  · rintro ⟨hsb, hsa, hname⟩
    obtain ⟨p, hp, rfl⟩ := List.mem_map.mp (hbefore.mem_iff.mpr hsb)
    have hmem : p.2 ∈ na.successors := hafter.mem_iff.mp (List.mem_map_of_mem hp)
    have hsame : p.2 = sa := List.inj_on_of_nodup_map na.names_nodup hmem hsa
      ((name_eq_of_mem_pairs hdiffs hp).symm.trans hname)
    exact hsame ▸ hp

/-- The successors of a node whose changed successors were read one by one. -/
theorem replayed_paired (hlength : nb.successors.length = na.successors.length)
    (hbefore : (pairs.map Prod.fst).Perm nb.successors)
    (hafter : (pairs.map Prod.snd).Perm na.successors)
    (hdiffs : List.Forall₂ (fun p r => SuccessorDiff p.1 p.2 r) pairs resl) :
    Replayed nb na ((pairs.map fun p => replayedSuccessor p.1 p.2).foldl
      (KeyedList.replace Successor.name) (nb.successors.map (successorObject false))) := by
  have hnames : (pairs.map fun p => p.1.name).Nodup := by
    have hperm := (hbefore.map SuccessorElement.name).nodup_iff.mpr nb.names_nodup
    rwa [List.map_map] at hperm
  have hstored : ((nb.successors.map (successorObject false)).map Successor.name) =
      nb.successors.map SuccessorElement.name := by
    rw [List.map_map]
    rfl
  have hmem : ∀ s, s ∈ (pairs.map fun p => replayedSuccessor p.1 p.2).foldl
      (KeyedList.replace Successor.name) (nb.successors.map (successorObject false)) ↔
        ∃ p ∈ pairs, replayedSuccessor p.1 p.2 = s := by
    intro s
    have hreplaced : ((pairs.map fun p => replayedSuccessor p.1 p.2).map Successor.name) =
        pairs.map fun p => p.1.name := by
      rw [List.map_map]
      rfl
    rw [KeyedList.mem_foldl_replace (hstored ▸ nb.names_nodup) (hreplaced ▸ hnames), List.mem_map]
    · refine or_iff_left fun ⟨hs, hnot⟩ => hnot ?_
      obtain ⟨sb, hsb, rfl⟩ := List.mem_map.mp hs
      obtain ⟨p, hp, rfl⟩ := List.mem_map.mp (hbefore.mem_iff.mpr hsb)
      rw [hreplaced]
      exact List.mem_map.mpr ⟨p, hp, rfl⟩
    · intro s hs
      obtain ⟨p, hp, rfl⟩ := List.mem_map.mp hs
      rw [hstored]
      exact List.mem_map_of_mem (hbefore.mem_iff.mp (List.mem_map_of_mem hp))
  constructor
  · intro v t
    rw [TakesChanged, if_pos hlength]
    constructor
    · rintro ⟨s, hs, ht⟩
      obtain ⟨p, hp, rfl⟩ := (hmem s).mp hs
      obtain ⟨hsb, hsa, hname⟩ := (mem_pairs_iff hbefore hafter hdiffs).mp hp
      rw [getSuccessor_replayedSuccessor] at ht
      exact ⟨p.1, hsb, p.2, hsa, hname, ht⟩
    · rintro ⟨sb, hsb, sa, hsa, hname, ht⟩
      have hp := (mem_pairs_iff hbefore hafter hdiffs).mpr ⟨hsb, hsa, hname⟩
      refine ⟨_, (hmem _).mpr ⟨_, hp, rfl⟩, ?_⟩
      rw [getSuccessor_replayedSuccessor]
      exact ht
  · intro s hs c hc
    obtain ⟨p, hp, rfl⟩ := (hmem s).mp hs
    obtain ⟨hsb, hsa, _⟩ := (mem_pairs_iff hbefore hafter hdiffs).mp hp
    rcases List.mem_append.mp hc with hc | hc
    · obtain ⟨e, he, ht⟩ := exists_of_mem_casesObject hc
      have hmemnew : e ∈ p.2.cases := (OrderedMatching.fresh_sublist _ _).subset he
      exact Or.inr ⟨p.2, hsa, e, hmemnew, ht⟩
    · obtain ⟨e, he, ht⟩ := exists_of_mem_casesObject hc
      exact Or.inl ⟨p.1, hsb, e, he, ht⟩

end Paired

/-- The successors of a node to which new successors were added. -/
theorem replayed_merged {nb na : NodeElement}
    (hlength : nb.successors.length ≠ na.successors.length) :
    Replayed nb na (nb.successors.map (successorObject false) ++
      (mergedNew nb na).map (successorObject true)) := by
  constructor
  · intro v t
    rw [TakesChanged, if_neg hlength]
    constructor
    · rintro ⟨s, hs, ht⟩
      rcases List.mem_append.mp hs with hs | hs
      · obtain ⟨e, he, rfl⟩ := List.mem_map.mp hs
        rw [successorObject, getSuccessor_casesObject_false] at ht
        exact Or.inl ⟨e, he, ht⟩
      · obtain ⟨e, he, rfl⟩ := List.mem_map.mp hs
        rw [successorObject, getSuccessor_casesObject_true] at ht
        exact Or.inr ⟨e, mem_mergedNew.mp he, ht⟩
    · rintro (⟨e, he, ht⟩ | ⟨e, he, ht⟩)
      · refine ⟨_, List.mem_append_left _ (List.mem_map_of_mem he), ?_⟩
        rw [successorObject, getSuccessor_casesObject_false]
        exact ht
      · refine ⟨_, List.mem_append_right _ (List.mem_map_of_mem (mem_mergedNew.mpr he)), ?_⟩
        rw [successorObject, getSuccessor_casesObject_true]
        exact ht
  · intro s hs c hc
    rcases List.mem_append.mp hs with hs | hs
    · obtain ⟨se, hse, rfl⟩ := List.mem_map.mp hs
      have hc' : c ∈ casesObject false se.cases := hc
      obtain ⟨e, he, ht⟩ := exists_of_mem_casesObject hc'
      exact Or.inl ⟨se, hse, e, he, ht⟩
    · obtain ⟨se, hse, rfl⟩ := List.mem_map.mp hs
      have hc' : c ∈ casesObject true se.cases := hc
      obtain ⟨e, he, ht⟩ := exists_of_mem_casesObject hc'
      exact Or.inr ⟨se, (List.mem_filter.mp (mem_mergedNew.mp hse)).1, e, he, ht⟩

/-- What becomes of a node that was there before: it is changed unless something is lost. -/
theorem replayNode_spec {nb na : NodeElement} {out : Option Xml}
    (h : emitExisting nb.toXml na.toXml = .ok out) (guards : List String) :
    (NothingLost nb na → ∃ sl, replayNode guards (nodeObject false nb) out =
        .ok (replayedNode nb sl) ∧ Replayed nb na sl) ∧
      (¬NothingLost nb na → ∃ e, replayNode guards (nodeObject false nb) out = .error e) := by
  have hsl : (nodeObject false nb).successorList =
      some (nb.successors.map (successorObject false)) := rfl
  have hstored : ((nb.successors.map (successorObject false)).map Successor.name) =
      nb.successors.map SuccessorElement.name := by
    rw [List.map_map]
    rfl
  obtain ⟨r, hr, rfl⟩ := emitExisting_eq_ok h
  unfold NothingLost
  cases hr with
  | paired pairs resl hlength hbefore hafter hdiffs =>
      have hkept : PairsKept pairs ↔ ∀ sb ∈ nb.successors, ∀ sa ∈ na.successors,
          sb.name = sa.name → sb.cases.length ≠ sa.cases.length → CasesKept sb sa := by
        constructor
        · intro hkept sb hsb sa hsa hname
          exact hkept (sb, sa) ((mem_pairs_iff hbefore hafter hdiffs).mpr ⟨hsb, hsa, hname⟩)
        · intro hkept p hp
          obtain ⟨hsb, hsa, hname⟩ := (mem_pairs_iff hbefore hafter hdiffs).mp hp
          exact hkept p.1 hsb p.2 hsa hname
      rw [if_pos hlength, ← hkept, replayNode_combine hsl]
      constructor
      · intro hpairs
        have hnames : (pairs.map fun p => p.1.name).Nodup := by
          have hperm := (hbefore.map SuccessorElement.name).nodup_iff.mpr nb.names_nodup
          rwa [List.map_map] at hperm
        have hfind : ∀ p ∈ pairs, SuccessorList.getSuccessor
            (nb.successors.map (successorObject false)) p.1.name =
              some (successorObject false p.1) := by
          intro p hp
          have hmem : p.1 ∈ nb.successors := hbefore.mem_iff.mp (List.mem_map_of_mem hp)
          exact KeyedList.find_of_mem Successor.name (hstored ▸ nb.names_nodup)
            (List.mem_map_of_mem hmem)
        rw [readPaired hdiffs hpairs hnames hfind]
        exact ⟨_, rfl, replayed_paired hlength hbefore hafter hdiffs⟩
      · intro hlost
        obtain ⟨e, he⟩ := exists_error_of_not_pairsKept hdiffs hlost
          (nb.successors.map (successorObject false))
        exact ⟨e, by rw [he]; rfl⟩
  | merged hlength =>
      rw [if_neg hlength, xmlSort_map_toXml, xmlSort_map_toXml]
      have hread := replayNode_mergeSuccessors guards hsl nb na
      constructor
      · intro hkept
        rw [readMerged hkept hstored] at hread
        exact ⟨_, hread, replayed_merged hlength⟩
      · intro hlost
        obtain ⟨e, he⟩ := exists_error_of_lost_successor hlost
          (nb.successors.map (successorObject false))
        rw [he] at hread
        exact ⟨e, hread⟩

/-! ## All differences -/

/-- An external node is read into the node of its name. -/
theorem readDirect_makeExternal (f : Flow) (nb : NodeElement) (contents : List Xml) :
    readDirect readFlowElement true true f
        (makeExternal (.element "node" nb.attributes contents)) =
      match f.getNode nb.name with
      | some n => (replayNode f.guards n
          (some (makeExternal (.element "node" nb.attributes contents)))).bind fun n =>
            .ok (f.setNode n)
      | none => .error "null node" :=
  rfl

/-- An external node whose name is in the flow. -/
theorem readDirect_external {f : Flow} {nb : NodeElement} {n : Node}
    (hn : f.getNode nb.name = some n) (contents : List Xml) :
    readDirect readFlowElement true true f
        (makeExternal (.element "node" nb.attributes contents)) =
      (replayNode f.guards n (some (makeExternal (.element "node" nb.attributes contents)))).bind
        fun n => .ok (f.setNode n) := by
  rw [readDirect_makeExternal, hn]

/-- What is emitted for a node names the node, which keeps its name. -/
structure Replayable (nb : NodeElement) (out : Option Xml) : Prop where
  external : out = none ∨
    ∃ contents, out = some (makeExternal (.element "node" nb.attributes contents))
  name : ∀ guards m, replayNode guards (nodeObject false nb) out = .ok m → m.name = nb.name

/-- What is emitted for a node can be read into it. -/
theorem replayable_of_emitExisting {nb na : NodeElement} {out : Option Xml}
    (h : emitExisting nb.toXml na.toXml = .ok out) : Replayable nb out := by
  constructor
  · obtain ⟨r, _, rfl⟩ := emitExisting_eq_ok h
    unfold emitted
    split
    · exact Or.inr ⟨_, rfl⟩
    · exact Or.inl rfl
  · intro guards m hm
    obtain ⟨hkept, hlost⟩ := replayNode_spec h guards
    by_cases hnothing : NothingLost nb na
    · obtain ⟨sl, hsl, _⟩ := hkept hnothing
      rw [hsl] at hm
      cases hm
      rfl
    · obtain ⟨e, he⟩ := hlost hnothing
      rw [he] at hm
      cases hm

/-- The differences of all nodes are read independently. -/
theorem readExternals {l : List NodeElement} {outs : List (Option Xml)}
    (houts : List.Forall₂ Replayable l outs) (done : List Node) {f : Flow} {new : List Node}
    (hnodes : f.nodes = done ++ (l.map (nodeObject false) ++ new))
    (hdone : ∀ m ∈ done, ∀ nb ∈ l, m.name ≠ nb.name) (hnames : (l.map NodeElement.name).Nodup) :
    (outs.filterMap id).foldlM (readDirect readFlowElement true true) f =
      ((l.zip outs).mapM fun p => replayNode f.guards (nodeObject false p.1) p.2).bind fun ms =>
        .ok { f with nodes := done ++ (ms ++ new) } := by
  induction houts generalizing f done with
  | nil =>
      change Except.ok f = Except.ok { f with nodes := done ++ (([] : List Node) ++ new) }
      have hsame : done ++ (([] : List Node) ++ new) = f.nodes := hnodes.symm
      rw [hsame]
  | @cons nb out l outs hout hrest ih =>
      rw [List.map_cons, List.nodup_cons] at hnames
      have hstep : ∀ m : Node, m.name = nb.name → ∀ g : Flow, g.guards = f.guards →
          g.nodes = done ++ (m :: (l.map (nodeObject false) ++ new)) →
          g.precedences = f.precedences →
          (outs.filterMap id).foldlM (readDirect readFlowElement true true) g =
            ((l.zip outs).mapM fun p => replayNode f.guards (nodeObject false p.1) p.2).bind
              fun ms => .ok { f with nodes := done ++ (m :: ms ++ new) } := by
        intro m hm g hguards hg hprecedences
        have hgdone : ∀ m' ∈ done ++ [m], ∀ nb' ∈ l, m'.name ≠ nb'.name := by
          intro m' hm' nb' hnb'
          rcases List.mem_append.mp hm' with hm' | hm'
          · exact hdone m' hm' nb' (List.mem_cons_of_mem _ hnb')
          · rw [List.mem_singleton.mp hm', hm]
            exact fun heq => hnames.1 (heq ▸ List.mem_map_of_mem hnb')
        have hgnodes : g.nodes = done ++ [m] ++ (l.map (nodeObject false) ++ new) := by
          rw [hg]
          simp
        rw [ih (done ++ [m]) hgnodes hgdone hnames.2, hguards, hprecedences]
        simp only [List.append_assoc, List.cons_append, List.nil_append]
      have hzip : ((nb :: l).zip (out :: outs)).mapM
          (fun p => replayNode f.guards (nodeObject false p.1) p.2) =
            (replayNode f.guards (nodeObject false nb) out).bind fun m =>
              ((l.zip outs).mapM fun p => replayNode f.guards (nodeObject false p.1) p.2).bind
                fun ms => .ok (m :: ms) := by
        rw [List.zip_cons_cons, List.mapM_cons]
        rfl
      have hfront : ∀ z ∈ done, z.name ≠ nb.name := fun z hz => hdone z hz nb List.mem_cons_self
      rw [hzip]
      rcases hout.external with rfl | ⟨contents, rfl⟩
      · have hrun := hstep (nodeObject false nb) rfl f rfl (by rw [hnodes]; simp) rfl
        rw [List.filterMap_cons_none rfl, hrun]
        cases (l.zip outs).mapM fun p => replayNode f.guards (nodeObject false p.1) p.2 <;> rfl
      · have hget : f.getNode nb.name = some (nodeObject false nb) := by
          rw [Flow.getNode, hnodes, List.map_cons, List.cons_append]
          exact KeyedList.find_append_cons Node.name (y := nodeObject false nb) hfront
        have hcons : (some (makeExternal (.element "node" nb.attributes contents)) ::
            outs).filterMap id =
              makeExternal (.element "node" nb.attributes contents) :: outs.filterMap id := rfl
        rw [hcons, List.foldlM_cons, readDirect_external hget]
        cases hm : replayNode f.guards (nodeObject false nb)
            (some (makeExternal (.element "node" nb.attributes contents))) with
        | error e => rfl
        | ok m =>
            have hname := hout.name _ _ hm
            have hset : (f.setNode m).nodes = done ++ (m :: (l.map (nodeObject false) ++ new)) := by
              rw [Flow.setNode, hnodes, List.map_cons, List.cons_append]
              exact KeyedList.replace_append_cons Node.name
                (fun z hz => hname ▸ hfront z hz) hname.symm
            have hrun := hstep m hname (f.setNode m) rfl hset rfl
            refine hrun.trans ?_
            cases (l.zip outs).mapM fun p => replayNode f.guards (nodeObject false p.1) p.2 <;> rfl

/-! ## Runs over two lists -/

section

variable {α β γ : Type} {P : α → β → Prop} {f : α × β → Except ReaderException γ}
  {l : List α} {l' : List β}

/-- A map over related pairs succeeds when it does on each. -/
theorem exists_mapM_zip (h : List.Forall₂ P l l')
    (hf : ∀ a ∈ l, ∀ b, P a b → ∃ c, f (a, b) = .ok c) : ∃ cs, (l.zip l').mapM f = .ok cs := by
  induction h with
  | nil => exact ⟨[], rfl⟩
  | cons hab _ ih =>
      rw [List.forall_mem_cons] at hf
      obtain ⟨c, hc⟩ := hf.1 _ hab
      obtain ⟨cs, hcs⟩ := ih hf.2
      refine ⟨c :: cs, ?_⟩
      rw [List.zip_cons_cons, List.mapM_cons, hc, hcs]
      rfl

/-- A map over related pairs gives the result of each. -/
theorem forall₂_of_mapM_zip (h : List.Forall₂ P l l') {cs : List γ}
    (hcs : (l.zip l').mapM f = .ok cs) :
    List.Forall₂ (fun a c => ∃ b, P a b ∧ f (a, b) = .ok c) l cs := by
  have hzip := Fallible.mapM_eq_ok_iff.mp hcs
  clear hcs
  induction h generalizing cs with
  | nil =>
      cases hzip
      exact .nil
  | cons hab _ ih =>
      rw [List.zip_cons_cons] at hzip
      cases hzip with
      | cons hc hrest => exact .cons ⟨_, hab, hc⟩ (ih hrest)

end

/-! ## Flows that select the same -/

/-- Two nodes select the same targets, whatever the conditions give, and refer to the same
guards and error handler. -/
structure SameNode (m n : Node) : Prop where
  name : m.name = n.name
  targets : ∀ v t, t ∈ m.targets v ↔ t ∈ n.targets v
  guardRefs : m.guardRefs.Perm n.guardRefs
  errorHandler : m.errorHandler = n.errorHandler

/-- Two flows have the same nodes, up to the order of their successors. -/
def SameFlow (f g : Flow) : Prop :=
  (∀ m ∈ f.nodes, ∃ n ∈ g.nodes, SameNode m n) ∧ ∀ n ∈ g.nodes, ∃ m ∈ f.nodes, SameNode m n

/-- A program with a plugin is read as the program that has the plugin built in. -/
def PluginApplies (programname ofluxversion : String) (before after : Program)
    (plugin : List Xml) : Prop :=
  ∃ f g, read (before.toXml programname ofluxversion) [pluginXml ofluxversion plugin] = .ok f ∧
    read (after.toXml programname ofluxversion) [] = .ok g ∧ SameFlow f g

/-- In a new node it does not matter whether the first or the last case that holds is taken. -/
def OrderFree (na : NodeElement) : Prop :=
  ∀ v t, (∃ s ∈ na.successors, lastTarget v s.cases = some t) ↔ Takes na v t

/-- In an old node nothing is lost, and it does not matter that old cases keep their
conditions and that new ones are tried before them, the last one first. -/
def ChangeAgrees (nb na : NodeElement) : Prop :=
  NothingLost nb na ∧ ∀ v t, TakesChanged nb na v t ↔ Takes na v t

/-- Every node of `after` is new and order-free, or agrees with its node in `before`. -/
def ChangesAgree (before after : Program) : Prop :=
  ∀ na ∈ after.nodes, (na.name ∉ before.nodes.map NodeElement.name → OrderFree na) ∧
    ∀ nb ∈ before.nodes, nb.name = na.name → ChangeAgrees nb na

/-- The targets of a node that is read. -/
theorem mem_targets_nodeObject (na : NodeElement) (v : Valuation) (t : String) :
    t ∈ (nodeObject false na).targets v ↔ Takes na v t := by
  have hsl : (nodeObject false na).successorList =
      some (na.successors.map (successorObject false)) := rfl
  rw [Node.mem_targets_iff hsl]
  constructor
  · rintro ⟨s, hs, ht⟩
    obtain ⟨e, he, rfl⟩ := List.mem_map.mp hs
    rw [successorObject, getSuccessor_casesObject_false] at ht
    exact ⟨e, he, ht⟩
  · rintro ⟨e, he, ht⟩
    refine ⟨_, List.mem_map_of_mem he, ?_⟩
    rw [successorObject, getSuccessor_casesObject_false]
    exact ht

/-- The targets of a node that a plugin adds. -/
theorem mem_targets_nodeObject_front (na : NodeElement) (v : Valuation) (t : String) :
    t ∈ (nodeObject true na).targets v ↔
      ∃ s ∈ na.successors, lastTarget v s.cases = some t := by
  have hsl : (nodeObject true na).successorList =
      some (na.successors.map (successorObject true)) := rfl
  rw [Node.mem_targets_iff hsl]
  constructor
  · rintro ⟨s, hs, ht⟩
    obtain ⟨e, he, rfl⟩ := List.mem_map.mp hs
    rw [successorObject, getSuccessor_casesObject_true] at ht
    exact ⟨e, he, ht⟩
  · rintro ⟨e, he, ht⟩
    refine ⟨_, List.mem_map_of_mem he, ?_⟩
    rw [successorObject, getSuccessor_casesObject_true]
    exact ht

/-- The node that an old one becomes, next to its counterpart. -/
def Changed (after : Program) (nb : NodeElement) (m : Node) : Prop :=
  ∃ na ∈ after.nodes, na.attributes = nb.attributes ∧ nb.guardrefs.Perm na.guardrefs ∧
    nb.errorhandler = na.errorhandler ∧ NothingLost nb na ∧
      ∃ sl, m = replayedNode nb sl ∧ Replayed nb na sl

section

variable {before after : Program} {outs : List (Option Xml)} {guards : List String}

/-- Reading the difference of a node changes it. -/
theorem changed_of_replayNode {nb : NodeElement} {out : Option Xml} {m : Node}
    (h : ∃ na ∈ after.nodes, na.attributes = nb.attributes ∧
      emitExisting nb.toXml na.toXml = .ok out)
    (hm : replayNode guards (nodeObject false nb) out = .ok m) : Changed after nb m := by
  obtain ⟨na, hna, hattributes, hok⟩ := h
  obtain ⟨hguards, hhandler⟩ := references_of_emitExisting hok
  obtain ⟨hkept, hlost⟩ := replayNode_spec hok guards
  by_cases hnothing : NothingLost nb na
  · obtain ⟨sl, hsl, hreplayed⟩ := hkept hnothing
    rw [hsl] at hm
    exact ⟨na, hna, hattributes, hguards, hhandler, hnothing, sl, (Except.ok.inj hm).symm,
      hreplayed⟩
  · obtain ⟨e, he⟩ := hlost hnothing
    rw [he] at hm
    cases hm

/-- What a plugin does to the flow of its program, when it can be read. -/
theorem readPlugin_emission (hem : Emission before after outs) (ofluxversion : String) {f : Flow}
    (hnodes : f.nodes = before.nodes.map (nodeObject false))
    (hguards : ∀ g ∈ before.guards.map GuardElement.name, g ∈ f.guards) :
    ∃ f' : Flow, readPlugin f (pluginXml ofluxversion
        ((newGuards before after).map GuardElement.toXml ++
          (newPrecedences before after).map GuardPrecedenceElement.toXml ++
            (newNodes before after).map NodeElement.toXml ++ outs.filterMap id)) =
      ((before.nodes.zip outs).mapM fun p =>
          replayNode f'.guards (nodeObject false p.1) p.2).bind fun ms =>
        .ok { f' with nodes := ms ++ (newNodes before after).map (nodeObject true) } := by
  have hold : f.nodes.map Node.name = before.nodes.map NodeElement.name := by
    rw [hnodes, List.map_map]
    rfl
  have hnames : (f.nodes.map Node.name ++
      (newNodes before after).map NodeElement.name).Nodup := by
    rw [hold, List.nodup_append]
    refine ⟨before.names_nodup, after.names_nodup.sublist (List.filter_sublist.map _), ?_⟩
    intro t ht t' ht' heq
    obtain ⟨n, hn, rfl⟩ := List.mem_map.mp ht'
    have hfresh := (List.mem_filter.mp hn).2
    simp only [decide_eq_true_eq] at hfresh
    exact hfresh (heq ▸ ht)
  have hrefs : ∀ n ∈ newNodes before after, ∀ g ∈ n.guardrefs, g.name ∈ f.guards ∨
      g.name ∈ (newGuards before after).map GuardElement.name := by
    intro n hn g hg
    obtain ⟨ge, hge, hname⟩ :=
      List.mem_map.mp (after.guards_declared n (List.mem_filter.mp hn).1 g hg)
    by_cases hnew : ge ∈ newGuards before after
    · exact Or.inr (hname ▸ List.mem_map_of_mem hnew)
    · exact Or.inl (hguards _ (hname ▸ hem.guard_names ge hge hnew))
  have hexternal : ∀ n ∈ newNodes before after, n.external = "false" := fun n hn =>
    after.external_eq n (List.mem_filter.mp hn).1
  obtain ⟨f', hf', hf'nodes, _⟩ := readElements true (newGuards before after)
    (newPrecedences before after) hexternal hrefs hnames
  refine ⟨f', ?_⟩
  have hread : ∀ contents, readPlugin f (pluginXml ofluxversion contents) =
      contents.foldlM (readDirect readFlowElement true true) f := fun contents => rfl
  have houts : List.Forall₂ Replayable before.nodes outs :=
    hem.nodes.imp fun nb out h => replayable_of_emitExisting h.choose_spec.2.2
  rw [hread, Fallible.foldlM_append_of_ok hf']
  exact readExternals houts [] (by rw [hf'nodes, hnodes]; rfl) (by simp)
    before.names_nodup

/-- A program with one plugin. -/
theorem read_plugin {x y : Xml} {f f' : Flow} (hx : readFlow x = .ok f)
    (hy : readPlugin f y = .ok f') :
    read x [y] = if f'.Resolved then .ok f' else .error "assertion failed: fsrc" := by
  have hread : read x [y] = (readFlow x).bind fun f => ((readPlugin f y).bind .ok).bind fun f =>
      if f.Resolved then .ok f else .error "assertion failed: fsrc" := rfl
  rw [hread, hx]
  change ((readPlugin f y).bind .ok).bind _ = _
  rw [hy]
  rfl

/-- A plugin that cannot be read fails the program. -/
theorem read_plugin_error {x y : Xml} {f : Flow} {e : ReaderException}
    (hx : readFlow x = .ok f) (hy : readPlugin f y = .error e) : read x [y] = .error e := by
  have hread : read x [y] = (readFlow x).bind fun f => ((readPlugin f y).bind .ok).bind fun f =>
      if f.Resolved then .ok f else .error "assertion failed: fsrc" := rfl
  rw [hread, hx]
  change ((readPlugin f y).bind .ok).bind _ = _
  rw [hy]
  rfl

/-- The nodes of a program with its plugin, when it can be read. -/
theorem read_plugin_eq_ok (hem : Emission before after outs) {programname ofluxversion : String}
    {f : Flow}
    (h : read (before.toXml programname ofluxversion) [pluginXml ofluxversion
      ((newGuards before after).map GuardElement.toXml ++
        (newPrecedences before after).map GuardPrecedenceElement.toXml ++
          (newNodes before after).map NodeElement.toXml ++ outs.filterMap id)] = .ok f) :
    ∃ ms, List.Forall₂ (Changed after) before.nodes ms ∧
      f.nodes = ms ++ (newNodes before after).map (nodeObject true) := by
  obtain ⟨f₀, hf₀, hnodes, hguards, -⟩ := readFlow_program programname ofluxversion before
  obtain ⟨f', hf'⟩ := readPlugin_emission hem ofluxversion hnodes fun g => (hguards g).mpr
  cases hms : (before.nodes.zip outs).mapM fun p =>
      replayNode f'.guards (nodeObject false p.1) p.2 with
  | error e =>
      rw [hms] at hf'
      rw [read_plugin_error hf₀ hf'] at h
      cases h
  | ok ms =>
      rw [hms] at hf'
      rw [read_plugin hf₀ hf'] at h
      refine ⟨ms, (forall₂_of_mapM_zip hem.nodes hms).imp fun nb m hm => ?_, ?_⟩
      · obtain ⟨out, hout, hm⟩ := hm
        exact changed_of_replayNode hout hm
      · split at h
        · cases h
          rfl
        · cases h

/-- Old nodes keep their names. -/
theorem names_of_changed {l : List NodeElement} {ms : List Node}
    (h : List.Forall₂ (Changed after) l ms) :
    ms.map Node.name = l.map NodeElement.name := by
  induction h with
  | nil => rfl
  | cons hm _ ih =>
      obtain ⟨_, _, _, _, _, _, sl, rfl, _⟩ := hm
      rw [List.map_cons, List.map_cons, ih]
      rfl

end

/-! ## Both flows -/

section

variable {before after : Program} {outs : List (Option Xml)} {f : Flow} {ms : List Node}

/-- A program has a name once. -/
theorem node_eq_of_name {p : Program} {n m : NodeElement} (hn : n ∈ p.nodes) (hm : m ∈ p.nodes)
    (h : n.name = m.name) : n = m :=
  List.inj_on_of_nodup_map p.names_nodup hn hm h

theorem exists_changed (hms : List.Forall₂ (Changed after) before.nodes ms) {nb : NodeElement}
    (hnb : nb ∈ before.nodes) : ∃ m ∈ ms, Changed after nb m := by
  obtain ⟨l₁, l₂, hsplit⟩ := List.append_of_mem hnb
  rw [hsplit] at hms
  obtain ⟨m₁, m, m₂, rfl, _, hm, _⟩ := exists_split_of_forall₂ hms
  exact ⟨m, List.mem_append_right _ List.mem_cons_self, hm⟩

/-- The counterpart of an old node is the node of its name. -/
theorem Changed.counterpart {nb na : NodeElement} {m : Node} (h : Changed after nb m)
    (hna : na ∈ after.nodes) (hname : nb.name = na.name) :
    na.attributes = nb.attributes ∧ nb.guardrefs.Perm na.guardrefs ∧
      nb.errorhandler = na.errorhandler ∧ NothingLost nb na ∧
        ∃ sl, m = replayedNode nb sl ∧ Replayed nb na sl := by
  obtain ⟨na', hna', hattributes, hrest⟩ := h
  have hsame : na' = na := node_eq_of_name hna' hna
    ((NodeElement.name_eq_of_attributes hattributes).trans hname)
  exact hsame ▸ ⟨hattributes, hrest⟩

/-- The targets of a changed node. -/
theorem Replayed.mem_targets {nb na : NodeElement} {sl : SuccessorList} (h : Replayed nb na sl)
    (v : Valuation) (t : String) :
    t ∈ (replayedNode nb sl).targets v ↔
      TakesChanged nb na v t := by
  have hsl : (replayedNode nb sl).successorList = some sl := rfl
  rw [Node.mem_targets_iff hsl]
  exact h.targets v t

theorem plugin_names_nodup (hms : List.Forall₂ (Changed after) before.nodes ms)
    (hnodes : f.nodes = ms ++ (newNodes before after).map (nodeObject true)) :
    (f.nodes.map Node.name).Nodup := by
  have hnew : ((newNodes before after).map (nodeObject true)).map Node.name =
      (newNodes before after).map NodeElement.name := by
    rw [List.map_map]
    rfl
  rw [hnodes, List.map_append, names_of_changed hms, hnew, List.nodup_append]
  refine ⟨before.names_nodup, after.names_nodup.sublist (List.filter_sublist.map _), ?_⟩
  intro t ht t' ht' heq
  obtain ⟨n, hn, rfl⟩ := List.mem_map.mp ht'
  have hfresh := (List.mem_filter.mp hn).2
  simp only [decide_eq_true_eq] at hfresh
  exact hfresh (heq ▸ ht)

/-- Every node of the later program is in the flow, with its role as an error handler. -/
theorem exists_getNode (hms : List.Forall₂ (Changed after) before.nodes ms)
    (hnodes : f.nodes = ms ++ (newNodes before after).map (nodeObject true))
    {na : NodeElement} (hna : na ∈ after.nodes) :
    ∃ m, f.getNode na.name = some m ∧ m.isErrorHandler = boolVal na.iserrhandler := by
  have hnodup := plugin_names_nodup hms hnodes
  by_cases hold : na.name ∈ before.nodes.map NodeElement.name
  · obtain ⟨nb, hnb, hname⟩ := List.mem_map.mp hold
    obtain ⟨m, hm, hchanged⟩ := exists_changed hms hnb
    obtain ⟨hattributes, _, _, _, sl, rfl, _⟩ := hchanged.counterpart hna hname
    have hmem := hnodes ▸ List.mem_append_left _ hm
    have hfind := KeyedList.find_of_mem Node.name hnodup hmem
    have hsame : (replayedNode nb sl).name = na.name := hname
    rw [hsame] at hfind
    refine ⟨_, hfind, ?_⟩
    exact congrArg boolVal (NodeElement.iserrhandler_eq_of_attributes hattributes).symm
  · have hnew : na ∈ newNodes before after :=
      List.mem_filter.mpr ⟨hna, by simpa using hold⟩
    have hmem := hnodes ▸ List.mem_append_right ms (List.mem_map_of_mem hnew)
    exact ⟨_, KeyedList.find_of_mem Node.name hnodup hmem, rfl⟩

/-- Every target of the flow read is in it. -/
theorem resolved_plugin (hms : List.Forall₂ (Changed after) before.nodes ms)
    (hnodes : f.nodes = ms ++ (newNodes before after).map (nodeObject true)) : f.Resolved := by
  have hafter : ∀ na ∈ after.nodes, ∀ t, LeadsTo na t → (f.getNode t).isSome := by
    rintro na hna t ⟨s, hs, c, hc, rfl⟩
    obtain ⟨n, hn, hname⟩ := List.mem_map.mp (after.targets_declared na hna s hs c hc)
    obtain ⟨m, hm, _⟩ := exists_getNode hms hnodes hn
    rw [← hname, hm]
    rfl
  have hbefore : ∀ nb ∈ before.nodes, ∀ t, LeadsTo nb t → (f.getNode t).isSome := by
    rintro nb hnb t ⟨s, hs, c, hc, rfl⟩
    have hmem := before.targets_declared nb hnb s hs c hc
    rw [← names_of_changed hms] at hmem
    rw [Flow.getNode, KeyedList.find_isSome_iff, hnodes, List.map_append]
    exact List.mem_append_left _ hmem
  have hhandler : ∀ na ∈ after.nodes, na.iserrhandler = "true" →
      (f.getNode na.name).any Node.isErrorHandler := by
    intro na hna htrue
    obtain ⟨m, hm, herror⟩ := exists_getNode hms hnodes hna
    rw [hm]
    simp [herror, htrue, boolVal]
  -- an old node or a new one
  have hcases : ∀ n ∈ f.nodes,
      (∃ nb ∈ before.nodes, Changed after nb n) ∨
        ∃ na ∈ newNodes before after, nodeObject true na = n := by
    intro n hn
    rw [hnodes] at hn
    rcases List.mem_append.mp hn with hn | hn
    · obtain ⟨nb, hnb, hchanged⟩ := exists_of_mem_right hms hn
      exact Or.inl ⟨nb, hnb, hchanged⟩
    · exact Or.inr (List.mem_map.mp hn)
  constructor
  · intro n hn s hs c hc
    rcases hcases n hn with ⟨nb, hnb, na, hna, _, _, _, _, sl, rfl, hreplayed⟩ | ⟨na, hna, rfl⟩
    · exact (hreplayed.cases s hs c hc).elim (hbefore nb hnb _) (hafter na hna _)
    · obtain ⟨se, hse, rfl⟩ := List.mem_map.mp hs
      have hc' : c ∈ casesObject true se.cases := hc
      obtain ⟨e, he, ht⟩ := exists_of_mem_casesObject hc'
      exact hafter na (List.mem_filter.mp hna).1 _ ⟨se, hse, e, he, ht⟩
  · intro n hn e he
    rcases hcases n hn with ⟨nb, hnb, na, hna, _, _, hhandlers, _, sl, rfl, _⟩ | ⟨na, hna, rfl⟩
    · obtain ⟨ma, hma, rfl, htrue⟩ := after.handlers_declared na hna e (hhandlers ▸ he)
      exact hhandler ma hma htrue
    · obtain ⟨ma, hma, rfl, htrue⟩ := after.handlers_declared na (List.mem_filter.mp hna).1 e he
      exact hhandler ma hma htrue

/-- A plugin that makes its program changes only what agrees. -/
theorem changesAgree_of_sameFlow (hms : List.Forall₂ (Changed after) before.nodes ms)
    (hf : f.nodes = ms ++ (newNodes before after).map (nodeObject true)) {g : Flow}
    (hg : g.nodes = after.nodes.map (nodeObject false)) (hsame : SameFlow f g) :
    ChangesAgree before after := by
  have hnode : ∀ m ∈ f.nodes, ∀ na ∈ after.nodes, m.name = na.name →
      SameNode m (nodeObject false na) := by
    intro m hm na hna hname
    obtain ⟨n, hn, hsamenode⟩ := hsame.1 m hm
    rw [hg] at hn
    obtain ⟨na', hna', rfl⟩ := List.mem_map.mp hn
    have heq : na' = na := node_eq_of_name hna' hna (hsamenode.name.symm.trans hname)
    exact heq ▸ hsamenode
  intro na hna
  constructor
  · intro hfresh v t
    have hnew : na ∈ newNodes before after := List.mem_filter.mpr ⟨hna, by simpa using hfresh⟩
    have hmem : nodeObject true na ∈ f.nodes :=
      hf ▸ List.mem_append_right ms (List.mem_map_of_mem hnew)
    have htargets := (hnode _ hmem na hna rfl).targets v t
    rwa [mem_targets_nodeObject, mem_targets_nodeObject_front] at htargets
  · intro nb hnb hname
    obtain ⟨m, hm, hchanged⟩ := exists_changed hms hnb
    obtain ⟨_, _, _, hnothing, sl, rfl, hreplayed⟩ := hchanged.counterpart hna hname
    refine ⟨hnothing, fun v t => ?_⟩
    have hmem : replayedNode nb sl ∈ f.nodes := hf ▸ List.mem_append_left _ hm
    have htargets := (hnode _ hmem na hna hname).targets v t
    rwa [mem_targets_nodeObject, hreplayed.mem_targets] at htargets

/-- Changes that agree make the later program. -/
theorem sameFlow_of_changesAgree (hms : List.Forall₂ (Changed after) before.nodes ms)
    (hf : f.nodes = ms ++ (newNodes before after).map (nodeObject true)) {g : Flow}
    (hg : g.nodes = after.nodes.map (nodeObject false)) (hagree : ChangesAgree before after) :
    SameFlow f g := by
  have hold : ∀ {nb na : NodeElement} {m : Node}, nb ∈ before.nodes → na ∈ after.nodes →
      nb.name = na.name → Changed after nb m → SameNode m (nodeObject false na) := by
    intro nb na m hnb hna hname hchanged
    obtain ⟨_, hguards, hhandler, _, sl, rfl, hreplayed⟩ := hchanged.counterpart hna hname
    refine ⟨hname, fun v t => ?_, hguards.map guardRefObject, hhandler⟩
    rw [mem_targets_nodeObject, hreplayed.mem_targets]
    exact ((hagree na hna).2 nb hnb hname).2 v t
  have hnew : ∀ {na : NodeElement}, na ∈ newNodes before after →
      SameNode (nodeObject true na) (nodeObject false na) := by
    intro na hna
    obtain ⟨hna, hfresh⟩ := List.mem_filter.mp hna
    refine ⟨rfl, fun v t => ?_, List.Perm.refl _, rfl⟩
    rw [mem_targets_nodeObject, mem_targets_nodeObject_front]
    exact (hagree na hna).1 (by simpa using hfresh) v t
  constructor
  · intro m hm
    rw [hf] at hm
    rcases List.mem_append.mp hm with hm | hm
    · obtain ⟨nb, hnb, hchanged⟩ := exists_of_mem_right hms hm
      obtain ⟨na, hna, hattributes, _⟩ := id hchanged
      have hname := (NodeElement.name_eq_of_attributes hattributes).symm
      exact ⟨_, hg ▸ List.mem_map_of_mem hna, hold hnb hna hname hchanged⟩
    · obtain ⟨na, hna, rfl⟩ := List.mem_map.mp hm
      exact ⟨_, hg ▸ List.mem_map_of_mem (List.mem_filter.mp hna).1, hnew hna⟩
  · intro n hn
    rw [hg] at hn
    obtain ⟨na, hna, rfl⟩ := List.mem_map.mp hn
    by_cases hname : na.name ∈ before.nodes.map NodeElement.name
    · obtain ⟨nb, hnb, hname⟩ := List.mem_map.mp hname
      obtain ⟨m, hm, hchanged⟩ := exists_changed hms hnb
      exact ⟨m, hf ▸ List.mem_append_left _ hm, hold hnb hna hname hchanged⟩
    · have hfresh : na ∈ newNodes before after :=
        List.mem_filter.mpr ⟨hna, by simpa using hname⟩
      exact ⟨_, hf ▸ List.mem_append_right ms (List.mem_map_of_mem hfresh), hnew hfresh⟩

/-- When nothing is lost, a plugin can be read. -/
theorem exists_read_plugin (hem : Emission before after outs)
    (hnothing : ∀ nb ∈ before.nodes, ∀ na ∈ after.nodes, nb.name = na.name → NothingLost nb na)
    (programname ofluxversion : String) :
    ∃ f, read (before.toXml programname ofluxversion) [pluginXml ofluxversion
      ((newGuards before after).map GuardElement.toXml ++
        (newPrecedences before after).map GuardPrecedenceElement.toXml ++
          (newNodes before after).map NodeElement.toXml ++ outs.filterMap id)] = .ok f := by
  obtain ⟨f₀, hf₀, hnodes, hguards, -⟩ := readFlow_program programname ofluxversion before
  obtain ⟨f', hf'⟩ := readPlugin_emission hem ofluxversion hnodes fun g => (hguards g).mpr
  have hreplay : ∀ nb ∈ before.nodes, ∀ out, (∃ na ∈ after.nodes,
      na.attributes = nb.attributes ∧ emitExisting nb.toXml na.toXml = .ok out) →
        ∃ m, replayNode f'.guards (nodeObject false nb) out = .ok m := by
    rintro nb hnb out ⟨na, hna, hattributes, hok⟩
    have hname := (NodeElement.name_eq_of_attributes hattributes).symm
    obtain ⟨sl, hsl, _⟩ := (replayNode_spec hok f'.guards).1 (hnothing nb hnb na hna hname)
    exact ⟨_, hsl⟩
  obtain ⟨ms, hms⟩ := exists_mapM_zip
    (f := fun p => replayNode f'.guards (nodeObject false p.1) p.2) hem.nodes hreplay
  have hchanged : List.Forall₂ (Changed after) before.nodes ms :=
    (forall₂_of_mapM_zip hem.nodes hms).imp fun nb m ⟨out, hout, hm⟩ =>
      changed_of_replayNode hout hm
  rw [hms] at hf'
  have hresolved := resolved_plugin
    (f := { f' with nodes := ms ++ (newNodes before after).map (nodeObject true) }) hchanged rfl
  refine ⟨_, (read_plugin hf₀ hf').trans (if_pos hresolved)⟩

/-- The changes of a plugin that makes its program agree. -/
theorem changesAgree_of_pluginApplies {plugin : List Xml}
    (h : emitPlugin before.contents after.contents = .ok plugin)
    {programname ofluxversion : String}
    (happlies : PluginApplies programname ofluxversion before after plugin) :
    ChangesAgree before after := by
  obtain ⟨outs, hem, rfl⟩ := emitPlugin_eq_ok h
  obtain ⟨g, hg, hgnodes, -⟩ := read_program programname ofluxversion after
  obtain ⟨f, g', hf, hg', hsame⟩ := happlies
  rw [hg] at hg'
  obtain ⟨ms, hms, hfnodes⟩ := read_plugin_eq_ok hem hf
  exact changesAgree_of_sameFlow hms hfnodes (Except.ok.inj hg' ▸ hgnodes) hsame

/-- A plugin makes the program that it was computed from exactly when its changes agree. -/
theorem pluginApplies_iff {plugin : List Xml}
    (h : emitPlugin before.contents after.contents = .ok plugin)
    (programname ofluxversion : String) :
    PluginApplies programname ofluxversion before after plugin ↔ ChangesAgree before after := by
  constructor
  · exact changesAgree_of_pluginApplies h
  · intro hagree
    obtain ⟨outs, hem, rfl⟩ := emitPlugin_eq_ok h
    obtain ⟨g, hg, hgnodes, -⟩ := read_program programname ofluxversion after
    obtain ⟨f, hf⟩ := exists_read_plugin hem
      (fun nb hnb na hna hname => ((hagree na hna).2 nb hnb hname).1) programname ofluxversion
    obtain ⟨ms, hms, hfnodes⟩ := read_plugin_eq_ok hem hf
    exact ⟨f, g, hf, hg, sameFlow_of_changesAgree hms hfnodes hgnodes hagree⟩

end

/-! ## A plugin in two levels -/

/-- A node that ends the flow. -/
def sinkNode (name : String) : NodeElement :=
  { dispatchBefore with name := name, function := name, successors := [], names_nodup := by decide }

/-- A program of nodes without guards and error handlers. -/
def guardlessProgram (nodes : List NodeElement)
    (names_nodup : (nodes.map NodeElement.name).Nodup)
    (external_eq : ∀ n ∈ nodes, n.external = "false") (guardrefs_eq : ∀ n ∈ nodes, n.guardrefs = [])
    (errorhandler_eq : ∀ n ∈ nodes, n.errorhandler = none)
    (targets_declared : ∀ n ∈ nodes, ∀ s ∈ n.successors, ∀ c ∈ s.cases,
      c.nodetarget ∈ nodes.map NodeElement.name) : Program where
  guards := []
  precedences := []
  nodes := nodes
  names_nodup := names_nodup
  external_eq := external_eq
  guards_declared := fun n hn g hg => by simp [guardrefs_eq n hn] at hg
  handlers_declared := fun n hn e he => by simp [errorhandler_eq n hn] at he
  targets_declared := targets_declared

/-- A program that sends every request to `Bill`. -/
def billing : Program :=
  guardlessProgram [dispatchBefore, sinkNode "Bill"] (by decide) (by decide) (by decide)
    (by decide) (by decide)

/-- A plugin sends large orders to an audit as well, and all orders to a log. -/
def billingWithLog : Program :=
  guardlessProgram [dispatchAfter, sinkNode "Bill", sinkNode "Audit", sinkNode "Log"]
    (by decide) (by decide) (by decide) (by decide) (by decide)

/-- A plugin sends large orders to an audit. -/
def billingWithAudit : Program :=
  guardlessProgram [dispatchWithCase, sinkNode "Bill", sinkNode "Audit"]
    (by decide) (by decide) (by decide) (by decide) (by decide)

theorem simpleDiff_self (x : Xml) : simpleDiff x x = .ok sameVal := by
  rw [simpleDiff, Xml.diff, Xml.diffPair_self]
  rfl

/-- What is emitted when only the first node changes. -/
theorem exists_emitPlugin {naft : NodeElement} (new : List NodeElement) {r : Xml}
    (hdiff : simpleDiff dispatchBefore.toXml naft.toXml = .ok r)
    (hold : (([naft, sinkNode "Bill"] ++ new).map NodeElement.toXml).filter
      (fun norg => getKey norg ∈ billing.contents.map getKey) =
        [naft.toXml, (sinkNode "Bill").toXml]) :
    ∃ plugin, emitPlugin billing.contents (([naft, sinkNode "Bill"] ++ new).map NodeElement.toXml) =
      .ok plugin := by
  unfold emitPlugin
  simp only [hold]
  have hcontents : billing.contents = [dispatchBefore.toXml, (sinkNode "Bill").toXml] := rfl
  rw [hcontents, if_neg (by simp)]
  have hmapM : ([dispatchBefore.toXml, (sinkNode "Bill").toXml].zip
      [naft.toXml, (sinkNode "Bill").toXml]).mapM (fun p => simpleDiff p.1 p.2) =
        .ok [r, sameVal] := by
    rw [List.zip_cons_cons, List.zip_cons_cons, List.zip_nil_left, List.mapM_cons, hdiff,
      List.mapM_cons, simpleDiff_self, List.mapM_nil]
    rfl
  rw [hmapM]
  exact ⟨_, rfl⟩

/-- The first plugin of the example is emitted. -/
theorem exists_emitPlugin_billingWithLog :
    ∃ plugin, emitPlugin billing.contents billingWithLog.contents = .ok plugin :=
  exists_emitPlugin [sinkNode "Audit", sinkNode "Log"]
    (simpleDiff_of_comparePair rfl rfl rfl comparePair_dispatchAfter) rfl

/-- The second plugin of the example is emitted. -/
theorem exists_emitPlugin_billingWithAudit :
    ∃ plugin, emitPlugin billing.contents billingWithAudit.contents = .ok plugin :=
  exists_emitPlugin [sinkNode "Audit"]
    (simpleDiff_of_comparePair rfl rfl rfl comparePair_dispatchWithCase) rfl

/-- Large orders are not audited when the log is added as well. -/
theorem not_pluginApplies_billingWithLog :
    ¬ ∀ (programname ofluxversion : String) (before after : Program) (plugin : List Xml),
      emitPlugin before.contents after.contents = .ok plugin →
        PluginApplies programname ofluxversion before after plugin := by
  intro h
  obtain ⟨plugin, hplugin⟩ := exists_emitPlugin_billingWithLog
  have hagree := changesAgree_of_pluginApplies hplugin (h "billing" "v1.00" _ _ plugin hplugin)
  have hdispatch := (hagree dispatchAfter List.mem_cons_self).2 dispatchBefore
    List.mem_cons_self rfl
  have htakes := (hdispatch.2 (fun _ => true) "Bill").mp (by unfold TakesChanged; decide)
  exact absurd htakes (by unfold Takes; decide)

/-- A single new case agrees with the node. -/
theorem changeAgrees_dispatchWithCase : ChangeAgrees dispatchBefore dispatchWithCase := by
  have hlength : dispatchBefore.successors.length = dispatchWithCase.successors.length := rfl
  constructor
  · rw [NothingLost, if_pos hlength]
    unfold CasesKept
    decide
  · intro v t
    rw [TakesChanged, if_pos hlength, Takes]
    -- the new case holds, or the old one does
    cases hv : v { name := "isLarge", argno := "1", unionhash := "out" } <;>
      simp [dispatchBefore, dispatchWithCase, newCases, OrderedMatching.fresh,
        OrderedMatching.before, OrderedMatching.behind, lastTarget, firstTarget, caseObject,
        conditionObject, isLarge, Case.satisfied, Condition.satisfied, boolVal, hv]

/-- A node without successors agrees with itself. -/
theorem changeAgrees_sinkNode (name : String) :
    ChangeAgrees (sinkNode name) (sinkNode name) := by
  constructor
  · simp [NothingLost, sinkNode]
  · intro v t
    simp [TakesChanged, Takes, sinkNode]

/-- The second plugin of the example agrees in every node. -/
theorem changesAgree_billingWithAudit : ChangesAgree billing billingWithAudit := by
  intro na hna
  have hna' : na = dispatchWithCase ∨ na = sinkNode "Bill" ∨ na = sinkNode "Audit" := by
    simpa [billingWithAudit, guardlessProgram] using hna
  have hbilling : ∀ nb ∈ billing.nodes, nb = dispatchBefore ∨ nb = sinkNode "Bill" := by
    intro nb hnb
    simpa [billing, guardlessProgram] using hnb
  rcases hna' with rfl | rfl | rfl
  · refine ⟨fun hnew => absurd (by decide) hnew, fun nb hnb hname => ?_⟩
    rcases hbilling nb hnb with rfl | rfl
    · exact changeAgrees_dispatchWithCase
    · exact absurd hname (by decide)
  · refine ⟨fun hnew => absurd (by decide) hnew, fun nb hnb hname => ?_⟩
    rcases hbilling nb hnb with rfl | rfl
    · exact absurd hname (by decide)
    · exact changeAgrees_sinkNode "Bill"
  · refine ⟨fun _ v t => by simp [Takes, sinkNode], fun nb hnb hname => ?_⟩
    rcases hbilling nb hnb with rfl | rfl
    · exact absurd hname (by decide)
    · exact absurd hname (by decide)

theorem pluginApplies_iff_billingWithAudit :
    ∃ plugin, emitPlugin billing.contents billingWithAudit.contents = .ok plugin ∧
      PluginApplies "billing" "v1.00" billing billingWithAudit plugin := by
  obtain ⟨plugin, hplugin⟩ := exists_emitPlugin_billingWithAudit
  exact ⟨plugin, hplugin,
    (pluginApplies_iff hplugin "billing" "v1.00").mpr changesAgree_billingWithAudit⟩

end Reader
end OFlux
