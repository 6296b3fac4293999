import OFlux.Compiler.PluginDiff

/-!
# The plugin of two programs

The contents that the compiler writes for a program, and {lit}`emit_plugin_xml` for a whole
program: the elements that are new, and behind them the differences of those that were there
before.

Main results:

- Theorem {lit}`references_of_ok`: nodes whose difference is emitted have the same guard
  references and the same error handler.
- Theorem {lit}`emitPlugin_eq_ok`: what is emitted for two programs, node by node.
-/

namespace OFlux
namespace Compiler

/-! ## Programs -/

/-- A {lit}`guard` element; {lit}`gc` says whether its atomics are collected. -/
structure GuardElement where
  name : String
  gc : String

/-- As {lit}`guard` writes it. -/
def GuardElement.toXml (g : GuardElement) : Xml :=
  .element "guard" [("name", g.name), ("gc", g.gc)] []

/-- A {lit}`guardprecedence` element. -/
structure GuardPrecedenceElement where
  before : String
  after : String

/-- As {lit}`guardprecedence` writes it. -/
def GuardPrecedenceElement.toXml (p : GuardPrecedenceElement) : Xml :=
  .element "guardprecedence" [("before", p.before), ("after", p.after)] []

/-- The flow of a program.  The compiler has resolved every name in it, and external
declarations are replaced by the nodes they stand for. -/
structure Program where
  guards : List GuardElement
  precedences : List GuardPrecedenceElement
  nodes : List NodeElement
  names_nodup : (nodes.map NodeElement.name).Nodup
  external_eq : ∀ n ∈ nodes, n.external = "false"
  guards_declared : ∀ n ∈ nodes, ∀ g ∈ n.guardrefs, g.name ∈ guards.map GuardElement.name
  handlers_declared : ∀ n ∈ nodes, ∀ e, n.errorhandler = some e →
    ∃ m ∈ nodes, m.name = e ∧ m.iserrhandler = "true"
  targets_declared : ∀ n ∈ nodes, ∀ s ∈ n.successors, ∀ c ∈ s.cases,
    c.nodetarget ∈ nodes.map NodeElement.name

namespace Program

/-- The elements below the root, in the order in which they are written. -/
def contents (p : Program) : List Xml :=
  p.guards.map GuardElement.toXml ++ p.precedences.map GuardPrecedenceElement.toXml ++
    p.nodes.map NodeElement.toXml

/-- The document of a whole program. -/
def toXml (programname ofluxversion : String) (p : Program) : Xml :=
  .element "flow" [("name", programname), ("ofluxversion", ofluxversion)] p.contents

end Program

/-! ## The plugin -/

/-- The elements behind the library of the plugin.  The message leaves out the listing of the
elements in which the programs differ. -/
def emitPlugin (before after : List Xml) : Except XMLConversion (List Xml) := do
  let oldKeys := before.map getKey
  let aftOld := after.filter fun norg => getKey norg ∈ oldKeys
  let aftNew := after.filter fun norg => getKey norg ∉ oldKeys
  if aftOld.length ≠ before.length then
    throw "something <internal> is wrong - please report this - number of nodes changed:\n"
  let changes ← (before.zip aftOld).mapM fun p => simpleDiff p.1 p.2
  return aftNew ++ (changes.filterMap (Xml.filter notSameVal)).map makeExternal

/-- The document of a plugin, around what is emitted. -/
def pluginXml (ofluxversion : String) (contents : List Xml) : Xml :=
  .element "plugin" [("ofluxversion", ofluxversion)] contents

/-- What is new in a program, compared to an earlier one. -/
def newElements (before after : List Xml) : List Xml :=
  after.filter fun norg => getKey norg ∉ before.map getKey

/-- The difference of an element is emitted as external. -/
theorem emitExisting_of_simpleDiff {x y d : Xml} (h : simpleDiff x y = .ok d) :
    emitExisting x y = .ok ((Xml.filter notSameVal d).map makeExternal) := by
  rw [emitExisting, h]
  rfl

/-- Elements that can be compared have one key. -/
theorem matchKey_eq_of_emitExisting {x y : Xml} {out : Option Xml}
    (h : emitExisting x y = .ok out) : matchKey x = matchKey y := by
  unfold emitExisting simpleDiff Xml.diff at h
  cases hpair : Xml.diffPair orderedTags diffHandler (fun _ => sameVal) x y with
  | error e => rw [hpair] at h; cases h
  | ok r => exact (comparePair_eq_ok hpair).1

/-- The elements that were there before are compared one by one. -/
theorem emitPlugin_eq_ok_of_contents {before after contents : List Xml}
    (h : emitPlugin before after = .ok contents) :
    ∃ aftOld outs, aftOld = after.filter (fun norg => getKey norg ∈ before.map getKey) ∧
      List.Forall₂ (fun (p : Xml × Xml) out => emitExisting p.1 p.2 = .ok out)
        (before.zip aftOld) outs ∧
      aftOld.length = before.length ∧
      contents = newElements before after ++ outs.filterMap id := by
  unfold emitPlugin at h
  simp only at h
  split at h
  · cases h
  next hlength =>
    cases hchanges : (before.zip (after.filter fun norg => getKey norg ∈ before.map getKey)).mapM
        (fun p => simpleDiff p.1 p.2) with
    | error e => rw [hchanges] at h; cases h
    | ok changes =>
        rw [hchanges] at h
        cases h
        refine ⟨_, changes.map fun d => (Xml.filter notSameVal d).map makeExternal, rfl, ?_,
          not_not.mp hlength, ?_⟩
        · rw [List.forall₂_map_right_iff]
          exact (Library.Fallible.mapM_eq_ok_iff.mp hchanges).imp fun p d hp =>
            emitExisting_of_simpleDiff hp
        · congr 1
          rw [List.filterMap_map, List.map_filterMap]
          rfl

/-- An element that cannot change is not emitted. -/
theorem Fixed.emitExisting_eq_none {x y : Xml} (hx : Fixed x) {out : Option Xml}
    (h : emitExisting x y = .ok out) : out = none := by
  unfold emitExisting simpleDiff Xml.diff at h
  cases hpair : Xml.diffPair orderedTags diffHandler (fun _ => sameVal) x y with
  | error e => rw [hpair] at h; cases h
  | ok r =>
      rw [hpair] at h
      cases h
      rw [hx y r hpair, sameVal, if_neg (by simp), Xml.filter_element]
      rfl

/-- Sorting leaves a guard alone. -/
theorem GuardElement.fixed (g : GuardElement) : Fixed g.toXml :=
  fixed_of_contents (by simp [toXml]) (by simp [toXml]) (by simp [toXml])

/-- Sorting leaves a precedence alone. -/
theorem GuardPrecedenceElement.fixed (p : GuardPrecedenceElement) : Fixed p.toXml :=
  fixed_of_contents (by simp [toXml]) (by simp [toXml]) (by simp [toXml])

/-! ## References of a node -/

/-- Nodes whose comparison succeeds have the same references, up to their order. -/
theorem references_perm {nbef naft : NodeElement} {r : Bool × Xml}
    (h : comparePair nbef.toXml naft.toXml = .ok r) :
    (nbef.toXml.contents.map matchKey).Perm (naft.toXml.contents.map matchKey) := by
  rcases (comparePair_eq_ok h).2 with ⟨hlength, resl, hresl, _⟩ | ⟨_, ⟨htag, _⟩ | ⟨htag, _⟩⟩
  · have hbef := Xml.sortOpt_perm orderedTags nbef.toXml.tag nbef.toXml.contents
    have haft := Xml.sortOpt_perm orderedTags nbef.toXml.tag naft.toXml.contents
    have hsorted := map_matchKey_eq (by rw [hbef.length_eq, haft.length_eq, hlength]) hresl
    have hperm := (hbef.map matchKey).symm
    rw [hsorted] at hperm
    exact hperm.trans (haft.map matchKey)
  · simp [NodeElement.toXml] at htag
  · simp [NodeElement.toXml] at htag

/-- The keys of the contents of a node with a given tag. -/
theorem NodeElement.filter_map_matchKey (n : NodeElement) :
    (n.toXml.contents.map matchKey).filter (fun k => k.1 = "guardref") =
        n.guardrefs.map (fun g => matchKey g.toXml) ∧
      (n.toXml.contents.map matchKey).filter (fun k => k.1 = "errorhandler") =
        n.errorhandler.toList.map fun e => matchKey (errorHandlerXml e) := by
  have hguards : ∀ l : List GuardRefElement,
      (l.map fun g => matchKey g.toXml).filter (fun k => k.1 = "guardref") =
          l.map (fun g => matchKey g.toXml) ∧
        (l.map fun g => matchKey g.toXml).filter (fun k => k.1 = "errorhandler") = [] := by
    intro l
    simp [List.filter_map, Function.comp_def, matchKey, GuardRefElement.toXml]
  have hhandler : ∀ e : Option String,
      (e.toList.map fun e => matchKey (errorHandlerXml e)).filter (fun k => k.1 = "guardref") =
          [] ∧
        (e.toList.map fun e => matchKey (errorHandlerXml e)).filter
          (fun k => k.1 = "errorhandler") = e.toList.map fun e => matchKey (errorHandlerXml e) := by
    intro e
    cases e <;> simp [matchKey, errorHandlerXml]
  have hcontents : n.toXml.contents.map matchKey =
      n.guardrefs.map (fun g => matchKey g.toXml) ++
        n.errorhandler.toList.map (fun e => matchKey (errorHandlerXml e)) ++
          [("successorlist", [])] := by
    cases he : n.errorhandler <;>
      simp [toXml, references, successorListXml, matchKey, Function.comp_def, he]
  rw [hcontents, List.filter_append, List.filter_append, List.filter_append, List.filter_append,
    (hguards _).1, (hguards _).2, (hhandler _).1, (hhandler _).2]
  simp

/-- Nodes whose comparison succeeds have the same guard references and error handler. -/
theorem references_of_ok {nbef naft : NodeElement} {r : Bool × Xml}
    (h : comparePair nbef.toXml naft.toXml = .ok r) :
    nbef.guardrefs.Perm naft.guardrefs ∧ nbef.errorhandler = naft.errorhandler := by
  have hperm := references_perm h
  constructor
  · have hguards := hperm.filter fun k => k.1 = "guardref"
    rw [nbef.filter_map_matchKey.1, naft.filter_map_matchKey.1] at hguards
    refine (List.map_perm_map_iff fun g g' heq => ?_).mp hguards
    simpa [matchKey, GuardRefElement.toXml, GuardRefElement.ext_iff] using heq
  · have hhandlers := hperm.filter fun k => k.1 = "errorhandler"
    rw [nbef.filter_map_matchKey.2, naft.filter_map_matchKey.2] at hhandlers
    have hinjective : Function.Injective fun e => matchKey (errorHandlerXml e) := by
      intro e e' heq
      simpa [matchKey, errorHandlerXml] using heq
    have hlists := (List.map_perm_map_iff hinjective).mp hhandlers
    cases hb : nbef.errorhandler <;> cases ha : naft.errorhandler <;> simp_all

/-- Nodes that can be compared have the same guards and error handler. -/
theorem references_of_emitExisting {nbef naft : NodeElement} {out : Option Xml}
    (h : emitExisting nbef.toXml naft.toXml = .ok out) :
    nbef.guardrefs.Perm naft.guardrefs ∧ nbef.errorhandler = naft.errorhandler := by
  unfold emitExisting simpleDiff Xml.diff at h
  cases hpair : Xml.diffPair orderedTags diffHandler (fun _ => sameVal) nbef.toXml naft.toXml with
  | error e => rw [hpair] at h; cases h
  | ok r => exact references_of_ok hpair

/-! ## The plugin of two programs -/

section

variable (before after : Program)

/-- The guards that are not in the program before. -/
def newGuards : List GuardElement :=
  after.guards.filter fun g => getKey g.toXml ∉ before.contents.map getKey

/-- The precedences that are not in the program before. -/
def newPrecedences : List GuardPrecedenceElement :=
  after.precedences.filter fun p => getKey p.toXml ∉ before.contents.map getKey

/-- The nodes that are not in the program before. -/
def newNodes : List NodeElement :=
  after.nodes.filter fun n => n.name ∉ before.nodes.map NodeElement.name

end

variable {before after : Program}

/-- The contents of a program are its guards, precedences and nodes. -/
theorem Program.mem_contents {p : Program} {x : Xml} (h : x ∈ p.contents) :
    (∃ g ∈ p.guards, g.toXml = x) ∨ (∃ q ∈ p.precedences, q.toXml = x) ∨
      ∃ n ∈ p.nodes, n.toXml = x := by
  simpa [contents, or_assoc] using h

/-- A node element is that of a node. -/
theorem Program.exists_node_of_tag {p : Program} {x : Xml} (h : x ∈ p.contents)
    (htag : x.tag = "node") : ∃ n ∈ p.nodes, n.toXml = x := by
  rcases Program.mem_contents h with ⟨g, _, rfl⟩ | ⟨q, _, rfl⟩ | hnode
  · simp [GuardElement.toXml] at htag
  · simp [GuardPrecedenceElement.toXml] at htag
  · exact hnode

/-- A guard element is that of a guard. -/
theorem Program.exists_guard_of_tag {p : Program} {x : Xml} (h : x ∈ p.contents)
    (htag : x.tag = "guard") : ∃ g ∈ p.guards, g.toXml = x := by
  rcases Program.mem_contents h with hguard | ⟨q, _, rfl⟩ | ⟨n, _, rfl⟩
  · exact hguard
  · simp [GuardPrecedenceElement.toXml] at htag
  · simp [NodeElement.toXml] at htag

/-- What the compiler emits for two programs. -/
structure Emission (before after : Program) (outs : List (Option Xml)) : Prop where
  nodes : List.Forall₂ (fun (nb : NodeElement) out => ∃ na ∈ after.nodes,
    na.attributes = nb.attributes ∧ emitExisting nb.toXml na.toXml = .ok out) before.nodes outs
  guard_names : ∀ g ∈ after.guards, g ∉ newGuards before after →
    g.name ∈ before.guards.map GuardElement.name

/-- A relation on the pairs of two lists is one on the first list. -/
theorem forall₂_of_zip {α β : Type} {R : α → α → β → Prop} {xs ys : List α} {l : List β}
    (hlength : ys.length = xs.length)
    (h : List.Forall₂ (fun (p : α × α) r => R p.1 p.2 r) (xs.zip ys) l) :
    List.Forall₂ (fun x r => ∃ y ∈ ys, R x y r) xs l ∧ ∀ y ∈ ys, ∃ x ∈ xs, ∃ r, R x y r := by
  induction xs generalizing ys l with
  | nil =>
      rw [List.eq_nil_of_length_eq_zero hlength] at h ⊢
      cases h
      exact ⟨.nil, by simp⟩
  | cons x xs ih =>
      cases ys with
      | nil => cases hlength
      | cons y ys =>
          rw [List.zip_cons_cons] at h
          cases h with
          | cons hxy hrest =>
              obtain ⟨hleft, hright⟩ := ih (Nat.succ.inj hlength) hrest
              constructor
              · refine .cons ⟨y, List.mem_cons_self, hxy⟩ (hleft.imp fun x r hr => ?_)
                obtain ⟨y', hy', hr⟩ := hr
                exact ⟨y', List.mem_cons_of_mem _ hy', hr⟩
              · intro y' hy'
                rcases List.mem_cons.mp hy' with rfl | hy'
                · exact ⟨x, List.mem_cons_self, _, hxy⟩
                · obtain ⟨x', hx', hr⟩ := hright y' hy'
                  exact ⟨x', List.mem_cons_of_mem _ hx', hr⟩

/-- The attributes of a node give its name. -/
theorem NodeElement.name_eq_of_attributes {n m : NodeElement} (h : n.attributes = m.attributes) :
    n.name = m.name := by
  simp only [attributes, List.cons.injEq, Prod.mk.injEq] at h
  exact h.1.2

/-- The attributes of a node say whether it handles errors. -/
theorem NodeElement.iserrhandler_eq_of_attributes {n m : NodeElement}
    (h : n.attributes = m.attributes) : n.iserrhandler = m.iserrhandler := by
  simp only [attributes, List.cons.injEq, Prod.mk.injEq] at h
  exact h.2.2.2.2.1.2

theorem filterMap_id_eq_nil {outs : List (Option Xml)} (h : ∀ out ∈ outs, out = none) :
    outs.filterMap id = [] := by
  rw [List.filterMap_eq_nil_iff]
  exact h

/-- New elements by kind: a node is new when its name is. -/
theorem newElements_contents
    (hold : ∀ n ∈ after.nodes, getKey n.toXml ∈ before.contents.map getKey →
      n.name ∈ before.nodes.map NodeElement.name) :
    newElements before.contents after.contents =
      (newGuards before after).map GuardElement.toXml ++
        (newPrecedences before after).map GuardPrecedenceElement.toXml ++
          (newNodes before after).map NodeElement.toXml := by
  have hnodes : (after.nodes.filter fun n => getKey n.toXml ∉ before.contents.map getKey) =
      newNodes before after := by
    refine List.filter_congr fun n hn => ?_
    simp only [decide_eq_decide, not_iff_not]
    refine ⟨hold n hn, fun hname => ?_⟩
    obtain ⟨nb, hnb, hname⟩ := List.mem_map.mp hname
    have hmem : nb.toXml ∈ before.contents :=
      List.mem_append_right _ (List.mem_map_of_mem hnb)
    have hkey : getKey nb.toXml = getKey n.toXml := by
      have hkeys : ∀ m : NodeElement, getKey m.toXml = "node" ++ m.name := fun m => rfl
      rw [hkeys, hkeys, hname]
    exact hkey ▸ List.mem_map_of_mem hmem
  unfold newElements
  rw [Program.contents.eq_def after, List.filter_append, List.filter_append, List.filter_map,
    List.filter_map, List.filter_map, ← hnodes]
  rfl

/-- What is emitted: what is new, and the differences of the nodes that were there before. -/
theorem emitPlugin_eq_ok {contents : List Xml}
    (h : emitPlugin before.contents after.contents = .ok contents) :
    ∃ outs, Emission before after outs ∧
      contents = (newGuards before after).map GuardElement.toXml ++
        (newPrecedences before after).map GuardPrecedenceElement.toXml ++
          (newNodes before after).map NodeElement.toXml ++ outs.filterMap id := by
  obtain ⟨aftOld, outs, hdef, hpairs, hlength, rfl⟩ := emitPlugin_eq_ok_of_contents h
  obtain ⟨hleft, hright⟩ := forall₂_of_zip (R := fun x y out => emitExisting x y = .ok out)
    hlength hpairs
  have hmem : ∀ y ∈ aftOld, y ∈ after.contents := by
    intro y hy
    rw [hdef] at hy
    exact (List.mem_filter.mp hy).1
  have hold : ∀ y ∈ after.contents, getKey y ∈ before.contents.map getKey →
      ∃ x ∈ before.contents, matchKey x = matchKey y := by
    intro y hy hkey
    have hy' : y ∈ aftOld := by
      rw [hdef]
      exact List.mem_filter.mpr ⟨hy, by simpa using hkey⟩
    obtain ⟨x, hx, _, hok⟩ := hright y hy'
    exact ⟨x, hx, matchKey_eq_of_emitExisting hok⟩
  obtain ⟨outsOther, outsNodes, rfl, hother, hnodes⟩ := exists_append_of_forall₂ hleft
  -- guards and precedences cannot change
  have hnone : outsOther.filterMap id = [] := by
    refine filterMap_id_eq_nil fun out hout => ?_
    obtain ⟨x, hx, y, _, hok⟩ := exists_of_mem_right hother hout
    rcases List.mem_append.mp hx with hx | hx
    · obtain ⟨g, _, rfl⟩ := List.mem_map.mp hx
      exact g.fixed.emitExisting_eq_none hok
    · obtain ⟨p, _, rfl⟩ := List.mem_map.mp hx
      exact p.fixed.emitExisting_eq_none hok
  refine ⟨outsNodes, ⟨?_, ?_⟩, ?_⟩
  · rw [List.forall₂_map_left_iff] at hnodes
    refine hnodes.imp fun nb out ⟨y, hy, hok⟩ => ?_
    have hkey := matchKey_eq_of_emitExisting hok
    obtain ⟨na, hna, rfl⟩ := Program.exists_node_of_tag (hmem y hy) (congrArg Prod.fst hkey).symm
    exact ⟨na, hna, (congrArg Prod.snd hkey).symm, hok⟩
  · intro g hg hnot
    have hgmem : g.toXml ∈ after.contents :=
      List.mem_append_left _ (List.mem_append_left _ (List.mem_map_of_mem hg))
    have hkey : getKey g.toXml ∈ before.contents.map getKey := by
      by_contra hfresh
      exact hnot (List.mem_filter.mpr ⟨hg, by simpa using hfresh⟩)
    obtain ⟨x, hx, hmatch⟩ := hold _ hgmem hkey
    obtain ⟨gb, hgb, rfl⟩ := Program.exists_guard_of_tag hx (congrArg Prod.fst hmatch)
    have hname : gb.name = g.name := by
      have hattributes := congrArg Prod.snd hmatch
      simp only [matchKey, GuardElement.toXml, Xml.attributes_element, List.cons.injEq,
        Prod.mk.injEq] at hattributes
      exact hattributes.1.2
    exact hname ▸ List.mem_map_of_mem hgb
  · rw [List.filterMap_append, hnone, List.nil_append, newElements_contents]
    intro n hn hkey
    have hnmem : n.toXml ∈ after.contents := List.mem_append_right _ (List.mem_map_of_mem hn)
    obtain ⟨x, hx, hmatch⟩ := hold _ hnmem hkey
    obtain ⟨nb, hnb, rfl⟩ := Program.exists_node_of_tag hx (congrArg Prod.fst hmatch)
    rw [← NodeElement.name_eq_of_attributes (congrArg Prod.snd hmatch)]
    exact List.mem_map_of_mem hnb

end Compiler
end OFlux
