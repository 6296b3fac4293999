import OFlux.Compiler.PluginXml

/-!
# What the difference of a plugin marks as new

The element that {lit}`emit_plugin_xml` emits for a node that was there before marks what the
plugin adds, successors and cases of old successors alike.

Main results:

- Theorem {lit}`emitExisting_eq_ok`: what is emitted, when nothing raises an exception.
- Theorem {lit}`marksNew_iff`: exactly what is new is marked, precisely when the numbers of
  successors agree or no old successor has a new case, and when nothing stands behind a
  lost item.
-/

namespace OFlux
namespace Compiler

open Library

/-- The comparison of two elements of the plugin difference. -/
def comparePair (x y : Xml) : Except XMLConversion (Bool × Xml) :=
  Xml.diffPair orderedTags diffHandler (fun _ => sameVal) x y

/-! ## Elements that cannot change -/

/-- Where the comparison succeeds, the elements agree; then the children were compared or
merged. -/
theorem comparePair_eq_ok {x y : Xml} {r : Bool × Xml} (h : comparePair x y = .ok r) :
    matchKey x = matchKey y ∧
      ((x.contents.length = y.contents.length ∧
          ∃ resl, List.Forall₂ (fun p r => comparePair p.1 p.2 = .ok r)
            ((Xml.sortOpt orderedTags x.tag x.contents).zip
              (Xml.sortOpt orderedTags x.tag y.contents)) resl ∧
            r = Xml.combine (fun _ => sameVal) x resl) ∨
        (x.contents.length ≠ y.contents.length ∧
          (x.tag = "successorlist" ∧ r = (true, .element x.tag x.attributes
              (addMerge [] (xmlSort x.contents) (xmlSort y.contents))) ∨
            x.tag = "successor" ∧ r = (true, .element x.tag x.attributes
              (addMerge [] x.contents y.contents))))) := by
  rcases Xml.diffPair_eq_ok h with ⟨htag, hattributes, hlength, hresl⟩ | ⟨hdiffer, res, hres, rfl⟩
  · exact ⟨Prod.ext htag hattributes, Or.inl ⟨hlength, hresl⟩⟩
  · obtain ⟨htag, hattributes, hmerged⟩ := diffHandler_eq_ok hres
    have hlength : x.contents.length ≠ y.contents.length :=
      fun hlength => hdiffer ⟨htag, hattributes, hlength⟩
    refine ⟨Prod.ext htag hattributes, Or.inr ⟨hlength, ?_⟩⟩
    rcases hmerged with ⟨hlist, rfl⟩ | ⟨hsuccessor, rfl⟩
    · exact Or.inl ⟨hlist, rfl⟩
    · exact Or.inr ⟨hsuccessor, rfl⟩

/-- An element that is the same or raises an exception. -/
def Fixed (x : Xml) : Prop :=
  ∀ y r, comparePair x y = .ok r → r.1 = false

/-- Each element of the right list has a partner on the left. -/
theorem exists_of_mem_right {α β : Type} {R : α → β → Prop} {l : List α} {l' : List β}
    (h : List.Forall₂ R l l') {b : β} (hb : b ∈ l') : ∃ a ∈ l, R a b := by
  induction h with
  | nil => cases hb
  | cons hab _ ih =>
      rcases List.mem_cons.mp hb with rfl | hb
      · exact ⟨_, List.mem_cons_self, hab⟩
      · obtain ⟨a, ha, hr⟩ := ih hb
        exact ⟨a, List.mem_cons_of_mem _ ha, hr⟩

/-- Sorting leaves an element alone when it leaves its contents alone. -/
theorem fixed_of_contents {x : Xml} (hlist : x.tag ≠ "successorlist")
    (hsuccessor : x.tag ≠ "successor") (h : ∀ c ∈ x.contents, Fixed c) : Fixed x := by
  intro y r hr
  rcases (comparePair_eq_ok hr).2 with ⟨_, resl, hresl, rfl⟩ | ⟨_, hmerged⟩
  · have hany : resl.any Prod.fst = false := by
      rw [List.any_eq_false]
      intro r hmem
      obtain ⟨p, hp, hpair⟩ := exists_of_mem_right hresl hmem
      have hc := (Xml.sortOpt_perm _ _ _).mem_iff.mp (List.of_mem_zip hp).1
      simp [h _ hc _ _ hpair]
    simp [Xml.combine, hany]
  · rcases hmerged with ⟨htag, _⟩ | ⟨htag, _⟩
    · exact absurd htag hlist
    · exact absurd htag hsuccessor

/-- Sorting leaves a condition alone. -/
theorem ConditionElement.fixed (c : ConditionElement) : Fixed c.toXml :=
  fixed_of_contents (by simp [toXml]) (by simp [toXml]) (by simp [toXml])

/-- Sorting leaves a case alone. -/
theorem CaseElement.fixed (c : CaseElement) : Fixed c.toXml := by
  refine fixed_of_contents (by simp [toXml]) (by simp [toXml]) fun x hx => ?_
  obtain ⟨condition, _, rfl⟩ := List.mem_map.mp hx
  exact condition.fixed

/-- Sorting leaves the guard references and the error handler alone. -/
theorem NodeElement.fixed_references (n : NodeElement) : ∀ x ∈ n.references, Fixed x := by
  intro x hx
  rcases List.mem_append.mp hx with hguard | herror
  · obtain ⟨g, _, rfl⟩ := List.mem_map.mp hguard
    exact fixed_of_contents (by simp [GuardRefElement.toXml]) (by simp [GuardRefElement.toXml])
      (by simp [GuardRefElement.toXml])
  · obtain ⟨name, _, rfl⟩ : ∃ name, n.errorhandler = some name ∧ errorHandlerXml name = x := by
      simpa using herror
    exact fixed_of_contents (by simp [errorHandlerXml]) (by simp [errorHandlerXml])
      (by simp [errorHandlerXml])

/-! ## Successors -/

/-- Children that were compared pairwise agree in tags and attributes. -/
theorem map_matchKey_eq {xs ys : List Xml} {resl : List (Bool × Xml)}
    (hlength : xs.length = ys.length)
    (h : List.Forall₂ (fun p r => comparePair p.1 p.2 = .ok r) (xs.zip ys) resl) :
    xs.map matchKey = ys.map matchKey := by
  induction xs generalizing ys resl with
  | nil =>
      rw [List.length_nil] at hlength
      rw [List.eq_nil_of_length_eq_zero hlength.symm]
  | cons x xs ih =>
      cases ys with
      | nil => cases hlength
      | cons y ys =>
          rw [List.zip_cons_cons] at h
          cases h with
          | cons hxy hrest =>
              rw [List.map_cons, List.map_cons, (comparePair_eq_ok hxy).1,
                ih (Nat.succ.inj hlength) hrest]

/-- Cases are matched by their target. -/
theorem CaseElement.matchKey_toXml (c : CaseElement) :
    matchKey c.toXml = ("case", [("nodetarget", c.nodetarget)]) :=
  rfl

/-- Successors are matched by their name. -/
theorem SuccessorElement.matchKey_toXml (s : SuccessorElement) :
    matchKey s.toXml = ("successor", [("name", s.name)]) :=
  rfl

/-- Children of one kind that are equal as soon as their comparison succeeds. -/
theorem eq_of_forall₂_zip {α : Type} {f : α → Xml}
    (hf : ∀ {a b : α} {r : Bool × Xml}, comparePair (f a) (f b) = .ok r → a = b)
    {l m : List α} {resl : List (Bool × Xml)} (hlength : l.length = m.length)
    (h : List.Forall₂ (fun p r => comparePair p.1 p.2 = .ok r) ((l.map f).zip (m.map f)) resl) :
    l = m := by
  induction l generalizing m resl with
  | nil => exact (List.eq_nil_of_length_eq_zero hlength.symm).symm
  | cons a l ih =>
      cases m with
      | nil => cases hlength
      | cons b m =>
          rw [List.map_cons, List.map_cons, List.zip_cons_cons] at h
          cases h with
          | cons hab hrest => rw [hf hab, ih (Nat.succ.inj hlength) hrest]

/-- Conditions can be compared only when they are the same. -/
theorem ConditionElement.eq_of_comparePair {c d : ConditionElement} {r : Bool × Xml}
    (h : comparePair c.toXml d.toXml = .ok r) : c = d := by
  have hkey := congrArg Prod.snd (comparePair_eq_ok h).1
  simpa [matchKey, toXml, ConditionElement.ext_iff] using hkey

/-- Cases whose comparison succeeds agree in their conditions as well. -/
theorem CaseElement.eq_of_comparePair {c d : CaseElement} {r : Bool × Xml}
    (h : comparePair c.toXml d.toXml = .ok r) : c = d := by
  obtain ⟨hkey, hcontents⟩ := comparePair_eq_ok h
  have htarget : c.nodetarget = d.nodetarget := by
    simpa [CaseElement.matchKey_toXml] using hkey
  rcases hcontents with ⟨hlength, resl, hresl, _⟩ | ⟨_, ⟨htag, _⟩ | ⟨htag, _⟩⟩
  · have hordered : ∀ l, Xml.sortOpt orderedTags c.toXml.tag l = l := fun l => rfl
    rw [hordered, hordered] at hresl
    have hconditions : c.conditions = d.conditions :=
      eq_of_forall₂_zip ConditionElement.eq_of_comparePair (by simpa [toXml] using hlength) hresl
    exact CaseElement.ext htarget hconditions
  · simp [toXml] at htag
  · simp [toXml] at htag

/-- What the comparison of two successors gives. -/
inductive SuccessorDiff (sb sa : SuccessorElement) : Bool × Xml → Prop where
  | same : sb.name = sa.name → sb.cases = sa.cases → SuccessorDiff sb sa (false, sb.toXml)
  | merged : sb.name = sa.name → sb.cases.length ≠ sa.cases.length →
      SuccessorDiff sb sa (true, .element "successor" [("name", sb.name)]
        (addMerge [] (sb.cases.map CaseElement.toXml) (sa.cases.map CaseElement.toXml)))

/-- Two successors that can be compared differ in their cases only. -/
theorem successorDiff_of_ok {sb sa : SuccessorElement} {r : Bool × Xml}
    (h : comparePair sb.toXml sa.toXml = .ok r) : SuccessorDiff sb sa r := by
  obtain ⟨hkey, hcontents⟩ := comparePair_eq_ok h
  have hname : sb.name = sa.name := by
    simpa [SuccessorElement.matchKey_toXml] using hkey
  rcases hcontents with ⟨hlength, resl, hresl, rfl⟩ | ⟨hlength, ⟨htag, _⟩ | ⟨_, rfl⟩⟩
  · have hordered : ∀ l, Xml.sortOpt orderedTags sb.toXml.tag l = l := fun l => rfl
    rw [hordered, hordered] at hresl
    have hcases : sb.cases = sa.cases :=
      eq_of_forall₂_zip CaseElement.eq_of_comparePair
        (by simpa [SuccessorElement.toXml] using hlength) hresl
    have hany : resl.any Prod.fst = false := by
      rw [List.any_eq_false]
      intro r hmem
      obtain ⟨p, hp, hpair⟩ := exists_of_mem_right hresl hmem
      obtain ⟨c, _, hc⟩ := List.mem_map.mp (List.of_mem_zip hp).1
      have hfalse := c.fixed p.2 r (by rw [hc]; exact hpair)
      simp [hfalse]
    have hcombine : Xml.combine (fun _ => sameVal) sb.toXml resl = (false, sb.toXml) := by
      simp [Xml.combine, hany]
    rw [hcombine]
    exact .same hname hcases
  · simp [SuccessorElement.toXml] at htag
  · have hcases : sb.cases.length ≠ sa.cases.length := by
      simpa [SuccessorElement.toXml] using hlength
    exact .merged hname hcases

/-- The comparison of two successor lists: pairwise, or by a merge. -/
inductive SuccessorListDiff (before after : List SuccessorElement) : Bool × Xml → Prop where
  | paired (pairs : List (SuccessorElement × SuccessorElement)) (resl : List (Bool × Xml)) :
      before.length = after.length →
      (pairs.map Prod.fst).Perm before → (pairs.map Prod.snd).Perm after →
      List.Forall₂ (fun p r => SuccessorDiff p.1 p.2 r) pairs resl →
      SuccessorListDiff before after
        (Xml.combine (fun _ => sameVal) (successorListXml before) resl)
  | merged : before.length ≠ after.length →
      SuccessorListDiff before after (true, .element "successorlist" []
        (addMerge [] (xmlSort (before.map SuccessorElement.toXml))
          (xmlSort (after.map SuccessorElement.toXml))))

/-- The order in which the successors of two lists are compared. -/
def sortSuccessors (l : List SuccessorElement) : List SuccessorElement :=
  l.insertionSort fun s t => s.toXml.compareKey ≤ t.toXml.compareKey

/-- Sorting the elements sorts the successors that they were written from. -/
theorem sort_map_toXml (l : List SuccessorElement) :
    Xml.sort (l.map SuccessorElement.toXml) = (sortSuccessors l).map SuccessorElement.toXml :=
  (List.map_insertionSort
    (fun s t : SuccessorElement => s.toXml.compareKey ≤ t.toXml.compareKey)
    (fun x y : Xml => x.compareKey ≤ y.compareKey) _ l fun _ _ _ _ => Iff.rfl).symm

/-- Two successor lists that can be compared differ as lists of successors. -/
theorem successorListDiff_of_ok {before after : List SuccessorElement} {r : Bool × Xml}
    (h : comparePair (successorListXml before) (successorListXml after) = .ok r) :
    SuccessorListDiff before after r := by
  rcases (comparePair_eq_ok h).2 with ⟨hlength, resl, hresl, rfl⟩ | ⟨hlength, ⟨_, rfl⟩ | ⟨htag, _⟩⟩
  · have hcount : before.length = after.length := by
      simpa [successorListXml] using hlength
    have hsort : ∀ l : List Xml,
        Xml.sortOpt orderedTags (successorListXml before).tag l = Xml.sort l := fun l => rfl
    have hbefore : (sortSuccessors before).Perm before := List.perm_insertionSort _ _
    have hafter : (sortSuccessors after).Perm after := List.perm_insertionSort _ _
    have hsorted : (sortSuccessors before).length = (sortSuccessors after).length := by
      rw [hbefore.length_eq, hafter.length_eq, hcount]
    rw [hsort, hsort] at hresl
    simp only [successorListXml, Xml.contents_element, sort_map_toXml] at hresl
    rw [List.zip_map, List.forall₂_map_left_iff] at hresl
    refine .paired ((sortSuccessors before).zip (sortSuccessors after)) resl hcount ?_ ?_
      (hresl.imp fun p r hp => successorDiff_of_ok hp)
    · rw [List.map_fst_zip hsorted.le]
      exact hbefore
    · rw [List.map_snd_zip hsorted.ge]
      exact hafter
  · refine .merged ?_
    simpa [successorListXml] using hlength
  · simp [successorListXml] at htag

/-! ## What is emitted -/

/-- Nothing in the element stands for something that did not change. -/
def Clean (x : Xml) : Prop :=
  Xml.filter notSameVal x = some x

theorem clean_of_tag_ne {x : Xml} (htag : x.tag ≠ "samehere") (h : ∀ y ∈ x.contents, Clean y) :
    Clean x :=
  Xml.filter_eq_self (by simp [notSameVal, htag]) h

/-- A written condition has no mark inside. -/
theorem ConditionElement.clean (c : ConditionElement) : Clean c.toXml :=
  clean_of_tag_ne (by simp [toXml]) (by simp [toXml])

/-- A written case has no mark inside. -/
theorem CaseElement.clean (c : CaseElement) : Clean c.toXml := by
  refine clean_of_tag_ne (by simp [toXml]) fun x hx => ?_
  obtain ⟨condition, _, rfl⟩ := List.mem_map.mp hx
  exact condition.clean

/-- A written successor has no mark inside. -/
theorem SuccessorElement.clean (s : SuccessorElement) : Clean s.toXml := by
  refine clean_of_tag_ne (by simp [toXml]) fun x hx => ?_
  obtain ⟨c, _, rfl⟩ := List.mem_map.mp hx
  exact c.clean

/-- Merging clean elements gives clean elements. -/
theorem clean_addMerge {shorter longer : List Xml} (hshorter : ∀ y ∈ shorter, Clean y)
    (hlonger : ∀ y ∈ longer, Clean y) : ∀ x ∈ addMerge [] shorter longer, Clean x := by
  intro x hx
  rcases mem_addMerge hx with hmem | ⟨l, hx, hl⟩
  · exact hlonger x hmem
  · have hcontents : ∀ y ∈ l, Clean y := by
      intro y hy
      rcases hl y hy with hnil | hy | hy
      · cases hnil
      · exact hshorter y hy
      · exact hlonger y hy
    rcases hx with rfl | rfl
    · exact clean_of_tag_ne (by simp [add]) hcontents
    · exact clean_of_tag_ne (by simp [remove]) hcontents

/-- What is left of the children when those that did not change are dropped. -/
def changed (resl : List (Bool × Xml)) : List Xml :=
  (resl.map fun r => if r.1 then r.2 else sameVal).filterMap (Xml.filter notSameVal)

theorem changed_append (l m : List (Bool × Xml)) :
    changed (l ++ m) = changed l ++ changed m := by
  simp [changed]

theorem changed_cons (r : Bool × Xml) (l : List (Bool × Xml)) :
    changed (r :: l) =
      (if r.1 then (Xml.filter notSameVal r.2).toList else []) ++ changed l := by
  have hsame : Xml.filter notSameVal sameVal = none := by
    rw [sameVal, Xml.filter_element]
    rfl
  cases hr : r.1 with
  | true =>
      cases hfilter : Xml.filter notSameVal r.2 <;> simp [changed, hr, hfilter]
  | false => simp [changed, hr, hsame]

theorem changed_eq_nil {l : List (Bool × Xml)} (h : ∀ r ∈ l, r.1 = false) : changed l = [] := by
  induction l with
  | nil => rfl
  | cons r l ih =>
      rw [List.forall_mem_cons] at h
      simp [changed_cons, h.1, ih h.2]

/-- An element counted as the same has no changed parts. -/
theorem changed_eq_nil_of_combine {x : Xml} {resl : List (Bool × Xml)}
    (h : (Xml.combine (fun _ => sameVal) x resl).1 = false) : changed resl = [] := by
  refine changed_eq_nil fun r hr => ?_
  by_contra htrue
  rw [Bool.not_eq_false] at htrue
  have hany : resl.any Prod.fst = true := List.any_eq_true.mpr ⟨r, hr, htrue⟩
  simp [Xml.combine, hany] at h

/-- A changed element keeps its changed parts only. -/
theorem filter_combine {x : Xml} {resl : List (Bool × Xml)} (htag : x.tag ≠ "samehere")
    (h : (Xml.combine (fun _ => sameVal) x resl).1 = true) :
    Xml.filter notSameVal (Xml.combine (fun _ => sameVal) x resl).2 =
      some (.element x.tag x.attributes (changed resl)) := by
  unfold Xml.combine at h ⊢
  split at h
  next hany =>
    rw [if_pos hany]
    simp only [Xml.filter_element]
    rw [if_pos (by simp [notSameVal, htag])]
    rfl
  · cases h

/-- The element for a node that was there before, with the changes of its successor list. -/
def emitted (nbef : NodeElement) (r : Bool × Xml) : Option Xml :=
  if r.1 then
    some (makeExternal (.element "node" nbef.attributes (Xml.filter notSameVal r.2).toList))
  else none

/-- A relation on two parts of a list splits the related list. -/
theorem exists_append_of_forall₂ {α β : Type} {R : α → β → Prop} {l₁ l₂ : List α} {l : List β}
    (h : List.Forall₂ R (l₁ ++ l₂) l) :
    ∃ r₁ r₂, l = r₁ ++ r₂ ∧ List.Forall₂ R l₁ r₁ ∧ List.Forall₂ R l₂ r₂ := by
  induction l₁ generalizing l with
  | nil => exact ⟨[], l, rfl, .nil, h⟩
  | cons a l₁ ih =>
      cases h with
      | cons hab hrest =>
          obtain ⟨r₁, r₂, rfl, h₁, h₂⟩ := ih hrest
          exact ⟨_ :: r₁, r₂, rfl, .cons hab h₁, h₂⟩

/-- A relation on a list splits the related list around any element. -/
theorem exists_split_of_forall₂ {α β : Type} {R : α → β → Prop} {l₁ l₂ : List α} {a : α}
    {l : List β} (h : List.Forall₂ R (l₁ ++ a :: l₂) l) :
    ∃ r₁ b r₂, l = r₁ ++ b :: r₂ ∧ List.Forall₂ R l₁ r₁ ∧ R a b ∧ List.Forall₂ R l₂ r₂ := by
  obtain ⟨r₁, r₂, rfl, h₁, h₂⟩ := exists_append_of_forall₂ h
  cases h₂ with
  | cons hab h₂ => exact ⟨r₁, _, _, rfl, h₁, hab, h₂⟩

/-- The references of a node are no successor list. -/
theorem NodeElement.tag_of_mem_references {n : NodeElement} {x : Xml} (h : x ∈ n.references) :
    x.tag ≠ "successorlist" := by
  rcases List.mem_append.mp h with hguard | herror
  · obtain ⟨g, _, rfl⟩ := List.mem_map.mp hguard
    simp [GuardRefElement.toXml]
  · obtain ⟨name, _, rfl⟩ : ∃ name, n.errorhandler = some name ∧ errorHandlerXml name = x := by
      simpa using herror
    simp [errorHandlerXml]

/-- The comparison of two nodes compares their successor lists; the rest is the same. -/
theorem exists_successorListDiff {nbef naft : NodeElement} {resl : List (Bool × Xml)}
    (hlength : nbef.toXml.contents.length = naft.toXml.contents.length)
    (h : List.Forall₂ (fun p r => comparePair p.1 p.2 = .ok r)
      ((Xml.sort nbef.toXml.contents).zip (Xml.sort naft.toXml.contents)) resl) :
    ∃ r₁ r r₂, resl = r₁ ++ r :: r₂ ∧
      SuccessorListDiff nbef.successors naft.successors r ∧
      (∀ r' ∈ r₁, r'.1 = false) ∧ ∀ r' ∈ r₂, r'.1 = false := by
  have hbef := Xml.sort_perm nbef.toXml.contents
  have haft := Xml.sort_perm naft.toXml.contents
  have hfst : ((Xml.sort nbef.toXml.contents).zip (Xml.sort naft.toXml.contents)).map Prod.fst =
      Xml.sort nbef.toXml.contents := by
    refine List.map_fst_zip (le_of_eq ?_)
    rw [hbef.length_eq, haft.length_eq, hlength]
  have hmem : successorListXml nbef.successors ∈ Xml.sort nbef.toXml.contents :=
    hbef.mem_iff.mpr (List.mem_append_right _ (List.mem_singleton_self _))
  rw [← hfst] at hmem
  obtain ⟨p, hp, hp1⟩ := List.mem_map.mp hmem
  obtain ⟨p₁, p₂, hsplit⟩ := List.append_of_mem hp
  rw [hsplit] at h
  obtain ⟨r₁, r, r₂, rfl, h₁, hr, h₂⟩ := exists_split_of_forall₂ h
  -- the other children stand in front of the successor list in the node
  have hothers : (p₁.map Prod.fst ++ p₂.map Prod.fst).Perm nbef.references := by
    have hperm : (p₁.map Prod.fst ++ successorListXml nbef.successors :: p₂.map Prod.fst).Perm
        (nbef.references ++ [successorListXml nbef.successors]) := by
      rw [hsplit, List.map_append, List.map_cons, hp1] at hfst
      rw [hfst]
      exact hbef
    exact (List.perm_middle.symm.trans (hperm.trans (List.perm_append_singleton _ _))).cons_inv
  have hfixed : ∀ q, q ∈ p₁ ∨ q ∈ p₂ → Fixed q.1 := by
    intro q hq
    refine nbef.fixed_references _ (hothers.mem_iff.mp (List.mem_append.mpr ?_))
    exact hq.imp (List.mem_map_of_mem (f := Prod.fst)) (List.mem_map_of_mem (f := Prod.fst))
  have hp2 : p.2 = successorListXml naft.successors := by
    have htag : p.2.tag = "successorlist" := by
      have hkey := congrArg Prod.fst (comparePair_eq_ok hr).1
      rw [hp1] at hkey
      exact hkey.symm
    have hp2 : p.2 ∈ naft.toXml.contents := haft.mem_iff.mp (List.of_mem_zip hp).2
    rcases List.mem_append.mp hp2 with hreference | hlist
    · exact absurd htag (NodeElement.tag_of_mem_references hreference)
    · exact List.mem_singleton.mp hlist
  refine ⟨r₁, r, r₂, rfl, successorListDiff_of_ok (by rw [← hp1, ← hp2]; exact hr), ?_, ?_⟩
  · intro r' hr'
    obtain ⟨q, hq, hok⟩ := exists_of_mem_right h₁ hr'
    exact hfixed q (Or.inl hq) _ _ hok
  · intro r' hr'
    obtain ⟨q, hq, hok⟩ := exists_of_mem_right h₂ hr'
    exact hfixed q (Or.inr hq) _ _ hok

/-- Only the successor list of a node can change. -/
theorem emitExisting_eq_ok {nbef naft : NodeElement} {out : Option Xml}
    (h : emitExisting nbef.toXml naft.toXml = .ok out) :
    ∃ r, SuccessorListDiff nbef.successors naft.successors r ∧ out = emitted nbef r := by
  unfold emitExisting simpleDiff Xml.diff at h
  cases hpair : Xml.diffPair orderedTags diffHandler (fun _ => sameVal) nbef.toXml naft.toXml with
  | error e => rw [hpair] at h; cases h
  | ok r₀ =>
      rw [hpair] at h
      cases h
      rcases (comparePair_eq_ok hpair).2 with ⟨hlength, resl, hresl, rfl⟩ | ⟨_, hmerged⟩
      · obtain ⟨r₁, r, r₂, rfl, hr, h₁, h₂⟩ := exists_successorListDiff hlength hresl
        refine ⟨r, hr, ?_⟩
        have hany : (r₁ ++ r :: r₂).any Prod.fst = r.1 := by
          have h₁' : r₁.any Prod.fst = false := by
            rw [List.any_eq_false]
            exact fun r' hr' => by simp [h₁ r' hr']
          have h₂' : r₂.any Prod.fst = false := by
            rw [List.any_eq_false]
            exact fun r' hr' => by simp [h₂ r' hr']
          simp [h₁', h₂']
        cases hchanged : r.1 with
        | false =>
            rw [hchanged] at hany
            simp only [Xml.combine, hany, Bool.false_eq_true, if_false, emitted, hchanged]
            rw [sameVal, Xml.filter_element]
            rfl
        | true =>
            rw [hchanged] at hany
            have hcombine : (Xml.combine (fun _ => sameVal) nbef.toXml (r₁ ++ r :: r₂)).1 =
                true := by
              simp [Xml.combine, hany]
            simp only [hcombine, if_true, emitted, hchanged]
            rw [filter_combine (by simp [NodeElement.toXml]) hcombine, changed_append,
              changed_cons, changed_eq_nil h₁, changed_eq_nil h₂]
            simp [hchanged, NodeElement.toXml]
      · rcases hmerged with ⟨htag, _⟩ | ⟨htag, _⟩
        · simp [NodeElement.toXml] at htag
        · simp [NodeElement.toXml] at htag

/-! ## What should be marked -/

/-- The successor lists of what is emitted for a node. -/
def successorLists (out : Option Xml) : List Xml :=
  (out.toList.flatMap Xml.contents).filter fun x => x.tag = "successorlist"

/-- The successors inside of {lit}`add` elements. -/
def addedSuccessors (out : Option Xml) : List Xml :=
  (successorLists out).flatMap fun sl => added sl.contents

/-- The successors with that name. -/
def successorsNamed (name : String) (contents : List Xml) : List Xml :=
  contents.filter fun s => matchKey s = ("successor", [("name", name)])

/-- The cases inside of {lit}`add` elements of a successor that is not inside of one. -/
def addedCases (out : Option Xml) (name : String) : List Xml :=
  (successorLists out).flatMap fun sl =>
    (successorsNamed name sl.contents).flatMap fun s => added s.contents

/-- The successors without a counterpart. -/
def newSuccessors (nbef naft : NodeElement) : List SuccessorElement :=
  naft.successors.filter fun s => s.name ∉ nbef.successors.map SuccessorElement.name

/-- The cases without a counterpart, when cases are matched in order by their targets. -/
def newCases (sb sa : SuccessorElement) : List CaseElement :=
  OrderedMatching.fresh CaseElement.nodetarget (sb.cases.map CaseElement.nodetarget) sa.cases

/-- What is inside of {lit}`add` elements is exactly what has no counterpart: the successors,
with all of their cases, and the cases of every successor that has one. -/
structure MarksNew (nbef naft : NodeElement) (out : Option Xml) : Prop where
  successors : (addedSuccessors out).Perm
    ((newSuccessors nbef naft).map SuccessorElement.toXml)
  cases : ∀ sb ∈ nbef.successors, ∀ sa ∈ naft.successors, sb.name = sa.name →
    addedCases out sa.name = (newCases sb sa).map CaseElement.toXml

/-- The key by which a merge sorts the successors. -/
def SuccessorElement.key (s : SuccessorElement) : String :=
  getKey s.toXml

/-- The successors in the order of a merge. -/
def NodeElement.mergedSuccessors (n : NodeElement) : List SuccessorElement :=
  n.successors.insertionSort fun s t => s.key ≤ t.key

/-- With equally many successors, no case behind a lost one of its successor is found again;
otherwise no successor behind a lost one is, and no successor that was there before has a
new case. -/
def ComparedInOneLevel (nbef naft : NodeElement) : Prop :=
  if nbef.successors.length = naft.successors.length then
    ∀ sb ∈ nbef.successors, ∀ sa ∈ naft.successors, sb.name = sa.name →
      OrderedMatching.NoneBehindLost CaseElement.nodetarget
        (sb.cases.map CaseElement.nodetarget) sa.cases
  else
    OrderedMatching.NoneBehindLost SuccessorElement.key
        (nbef.mergedSuccessors.map SuccessorElement.key) naft.mergedSuccessors ∧
      ∀ sb ∈ nbef.successors, ∀ sa ∈ naft.successors, sb.name = sa.name →
        newCases sb sa = []

instance (nbef naft : NodeElement) : Decidable (ComparedInOneLevel nbef naft) := by
  unfold ComparedInOneLevel
  infer_instance

/-! ## Nodes with equally many successors -/

theorem SuccessorDiff.name_eq {sb sa : SuccessorElement} {r : Bool × Xml}
    (h : SuccessorDiff sb sa r) : sb.name = sa.name := by
  cases h <;> assumption

/-- A changed successor is written with its merged cases. -/
theorem SuccessorDiff.eq_merged {sb sa : SuccessorElement} {r : Bool × Xml}
    (h : SuccessorDiff sb sa r) (hr : r.1 = true) :
    r.2 = .element "successor" [("name", sb.name)]
      (addMerge [] (sb.cases.map CaseElement.toXml) (sa.cases.map CaseElement.toXml)) := by
  cases h with
  | same => cases hr
  | merged => rfl

/-- Written cases are clean. -/
theorem clean_toXml_cases (l : List CaseElement) :
    ∀ y ∈ l.map CaseElement.toXml, Clean y := by
  intro y hy
  obtain ⟨c, _, rfl⟩ := List.mem_map.mp hy
  exact c.clean

theorem changed_eq {resl : List (Bool × Xml)} (h : ∀ r ∈ resl, r.1 = true → Clean r.2) :
    changed resl = (resl.filter Prod.fst).map Prod.snd := by
  induction resl with
  | nil => rfl
  | cons r resl ih =>
      rw [List.forall_mem_cons] at h
      rw [changed_cons, ih h.2]
      cases hr : r.1 with
      | false => simp [hr]
      | true =>
          have hclean : Xml.filter notSameVal r.2 = some r.2 := h.1 hr
          simp [hr, hclean]

section Paired

variable {nbef naft : NodeElement} {pairs : List (SuccessorElement × SuccessorElement)}
  {resl : List (Bool × Xml)}

/-- The changed successors are kept as they are. -/
theorem changed_of_forall₂
    (h : List.Forall₂ (fun p r => SuccessorDiff p.1 p.2 r) pairs resl) :
    changed resl = (resl.filter Prod.fst).map Prod.snd := by
  refine changed_eq fun r hr htrue => ?_
  obtain ⟨p, _, hp⟩ := exists_of_mem_right h hr
  rw [hp.eq_merged htrue]
  exact clean_of_tag_ne (by simp)
    (clean_addMerge (clean_toXml_cases _) (clean_toXml_cases _))

/-- The changed successors stand outside of the added part. -/
theorem added_changed (h : List.Forall₂ (fun p r => SuccessorDiff p.1 p.2 r) pairs resl) :
    added (changed resl) = [] := by
  rw [changed_of_forall₂ h]
  refine added_eq_nil fun x hx => ?_
  obtain ⟨r, hr, rfl⟩ := List.mem_map.mp hx
  obtain ⟨hr, htrue⟩ := List.mem_filter.mp hr
  obtain ⟨p, _, hp⟩ := exists_of_mem_right h hr
  rw [hp.eq_merged htrue]
  simp

/-- Successors of other names are told apart. -/
theorem successorsNamed_changed_eq_nil {name : String}
    (h : List.Forall₂ (fun p r => SuccessorDiff p.1 p.2 r) pairs resl)
    (hname : ∀ p ∈ pairs, p.2.name ≠ name) : successorsNamed name (changed resl) = [] := by
  rw [changed_of_forall₂ h]
  refine List.filter_eq_nil_iff.mpr fun x hx => ?_
  obtain ⟨r, hr, rfl⟩ := List.mem_map.mp hx
  obtain ⟨hr, htrue⟩ := List.mem_filter.mp hr
  obtain ⟨p, hmem, hp⟩ := exists_of_mem_right h hr
  have hne : p.1.name ≠ name := fun heq => hname p hmem (hp.name_eq ▸ heq)
  rw [hp.eq_merged htrue]
  simp [matchKey, hne]

/-- Of the changed successors the one with the name of a pair is that of the pair. -/
theorem exists_successorsNamed
    (h : List.Forall₂ (fun p r => SuccessorDiff p.1 p.2 r) pairs resl)
    (hnames : (pairs.map fun p => p.2.name).Nodup) {p : SuccessorElement × SuccessorElement}
    (hp : p ∈ pairs) :
    ∃ r, SuccessorDiff p.1 p.2 r ∧
      successorsNamed p.2.name (changed resl) = if r.1 then [r.2] else [] := by
  obtain ⟨p₁, p₂, rfl⟩ := List.append_of_mem hp
  obtain ⟨r₁, r, r₂, rfl, h₁, hr, h₂⟩ := exists_split_of_forall₂ h
  rw [List.map_append, List.map_cons, List.nodup_middle, List.nodup_cons] at hnames
  have hothers : ∀ q, q ∈ p₁ ∨ q ∈ p₂ → q.2.name ≠ p.2.name := by
    intro q hq heq
    apply hnames.1
    rw [← heq]
    refine List.mem_append.mpr ?_
    exact hq.imp (fun hq => List.mem_map.mpr ⟨q, hq, rfl⟩) fun hq => List.mem_map.mpr ⟨q, hq, rfl⟩
  have hfront := successorsNamed_changed_eq_nil h₁ fun q hq => hothers q (Or.inl hq)
  have hback := successorsNamed_changed_eq_nil h₂ fun q hq => hothers q (Or.inr hq)
  refine ⟨r, hr, ?_⟩
  have hsingle := changed_of_forall₂ (.cons hr .nil)
  rw [show r₁ ++ r :: r₂ = r₁ ++ [r] ++ r₂ by simp, changed_append, changed_append, hsingle]
  unfold successorsNamed at hfront hback ⊢
  rw [List.filter_append, List.filter_append, hfront, hback]
  cases htrue : r.1 with
  | false => simp [htrue]
  | true =>
      rw [hr.eq_merged htrue]
      simp [htrue, matchKey, hr.name_eq, hr.eq_merged htrue]

end Paired

/-! ## The cases of one successor -/

/-- Different targets give different keys. -/
theorem CaseElement.key_injective : Function.Injective
    fun t : String => (("case", [("nodetarget", t)]) : String × List (String × String)) := by
  intro t t' heq
  simpa using heq

/-- The keys of written cases are their targets. -/
theorem map_matchKey_cases (l : List CaseElement) :
    (l.map CaseElement.toXml).map matchKey =
      (l.map CaseElement.nodetarget).map fun t => ("case", [("nodetarget", t)]) := by
  simp [List.map_map, Function.comp_def, CaseElement.matchKey_toXml]

/-- Cases are matched by their targets. -/
theorem unmatched_cases (before after : List CaseElement) :
    OrderedMatching.unmatched matchKey ((before.map CaseElement.toXml).map matchKey)
        (after.map CaseElement.toXml) =
      (OrderedMatching.unmatched CaseElement.nodetarget (before.map CaseElement.nodetarget)
        after).map CaseElement.toXml := by
  rw [OrderedMatching.unmatched_map, map_matchKey_cases,
    ← OrderedMatching.unmatched_map_key CaseElement.nodetarget CaseElement.key_injective]
  rfl

/-- The added cases are those without a partner before. -/
theorem added_addMerge_cases (before after : List CaseElement) :
    added (addMerge [] (before.map CaseElement.toXml) (after.map CaseElement.toXml)) =
      (OrderedMatching.unmatched CaseElement.nodetarget (before.map CaseElement.nodetarget)
        after).map CaseElement.toXml := by
  have htags : ∀ x ∈ after.map CaseElement.toXml, x.tag ≠ "add" := by
    intro x hx
    obtain ⟨c, _, rfl⟩ := List.mem_map.mp hx
    simp [CaseElement.toXml]
  rw [added_addMerge htags, unmatched_cases]
  rfl

/-- A changed successor adds exactly its new cases when nothing stands behind a lost one. -/
theorem SuccessorDiff.added_iff {sb sa : SuccessorElement} {r : Bool × Xml}
    (h : SuccessorDiff sb sa r) :
    ((if r.1 then [r.2] else []).flatMap fun s => added s.contents) =
        (newCases sb sa).map CaseElement.toXml ↔
      OrderedMatching.NoneBehindLost CaseElement.nodetarget
        (sb.cases.map CaseElement.nodetarget) sa.cases := by
  cases h with
  | same hname hcases =>
      have hnew : newCases sb sa = [] := by
        rw [newCases, hcases, OrderedMatching.fresh_map_self]
      have hnone : OrderedMatching.NoneBehindLost CaseElement.nodetarget
          (sb.cases.map CaseElement.nodetarget) sa.cases := by
        rw [hcases]
        exact OrderedMatching.noneBehindLost_map_self _
      simp [hnew, hnone]
  | merged hname hlength =>
      simp only [if_true, List.flatMap_singleton, Xml.contents_element, added_addMerge_cases]
      constructor
      · intro heq
        exact (OrderedMatching.unmatched_perm_fresh_iff CaseElement.toXml).mp
          (List.Perm.of_eq heq)
      · intro hnone
        rw [OrderedMatching.unmatched_eq_fresh_iff.mpr hnone]
        rfl

/-! ## The successors of one node -/

/-- Successors of one key have one name. -/
theorem SuccessorElement.key_injective {s t : SuccessorElement} (h : s.key = t.key) :
    s.name = t.name := by
  have hkey : ∀ s : SuccessorElement, s.key = "successor" ++ s.name := fun s => rfl
  rw [hkey, hkey] at h
  exact (String.append_right_inj _).mp h

/-- The merged successors are the successors. -/
theorem mergedSuccessors_perm (n : NodeElement) : n.mergedSuccessors.Perm n.successors :=
  List.perm_insertionSort _ _

/-- The merged successors are in the order of their keys. -/
theorem mergedSuccessors_sorted (n : NodeElement) :
    n.mergedSuccessors.Pairwise fun s t => s.key < t.key := by
  have : Std.Total fun s t : SuccessorElement => s.key ≤ t.key := ⟨fun s t => le_total s.key t.key⟩
  have : IsTrans SuccessorElement fun s t => s.key ≤ t.key := ⟨fun _ _ _ h h' => h.trans h'⟩
  have hsorted : n.mergedSuccessors.Pairwise fun s t => s.key ≤ t.key :=
    List.pairwise_insertionSort _ _
  have hnodup : (n.mergedSuccessors.map SuccessorElement.name).Nodup :=
    ((mergedSuccessors_perm n).map _).nodup_iff.mpr n.names_nodup
  have hne : n.mergedSuccessors.Pairwise fun s t => s.name ≠ t.name := List.pairwise_map.mp hnodup
  refine (hsorted.and hne).imp fun {s t} h => lt_of_le_of_ne h.1 fun heq => h.2 ?_
  exact SuccessorElement.key_injective heq

/-- The successors that a merge leaves unmatched when it passes over lost ones are new. -/
theorem fresh_perm_newSuccessors (nbef naft : NodeElement) :
    (OrderedMatching.fresh SuccessorElement.key
        (nbef.mergedSuccessors.map SuccessorElement.key) naft.mergedSuccessors).Perm
      (newSuccessors nbef naft) := by
  have hbef : (nbef.mergedSuccessors.map SuccessorElement.key).Pairwise (· < ·) :=
    List.pairwise_map.mpr (mergedSuccessors_sorted nbef)
  rw [OrderedMatching.fresh_eq_filter hbef (mergedSuccessors_sorted naft)]
  have hfilter : ∀ s ∈ naft.mergedSuccessors,
      decide (s.key ∉ nbef.mergedSuccessors.map SuccessorElement.key) =
        decide (s.name ∉ nbef.successors.map SuccessorElement.name) := by
    intro s _
    rw [decide_eq_decide, not_iff_not]
    constructor
    · intro hmem
      obtain ⟨t, ht, heq⟩ := List.mem_map.mp hmem
      exact List.mem_map.mpr ⟨t, (mergedSuccessors_perm nbef).mem_iff.mp ht,
        SuccessorElement.key_injective heq⟩
    · intro hmem
      obtain ⟨t, ht, heq⟩ := List.mem_map.mp hmem
      refine List.mem_map.mpr ⟨t, (mergedSuccessors_perm nbef).mem_iff.mpr ht, ?_⟩
      have hkey : ∀ s : SuccessorElement, s.key = "successor" ++ s.name := fun s => rfl
      rw [hkey, hkey, heq]
  rw [List.filter_congr hfilter]
  exact (mergedSuccessors_perm naft).filter _

/-- The written successors are sorted as the merged ones. -/
theorem xmlSort_map_toXml (n : NodeElement) :
    xmlSort (n.successors.map SuccessorElement.toXml) =
      n.mergedSuccessors.map SuccessorElement.toXml :=
  (List.map_insertionSort (fun s t : SuccessorElement => s.key ≤ t.key)
    (fun x y : Xml => getKey x ≤ getKey y) _ _ fun _ _ _ _ => Iff.rfl).symm

/-! ## Exactly what is new -/

/-- What a merge of the successors of two nodes writes. -/
def mergeSuccessors (nbef naft : NodeElement) : List Xml :=
  addMerge [] (nbef.mergedSuccessors.map SuccessorElement.toXml)
    (naft.mergedSuccessors.map SuccessorElement.toXml)

/-- Different names give different keys. -/
theorem SuccessorElement.matchKey_injective : Function.Injective
    fun t : String => (("successor", [("name", t)]) : String × List (String × String)) := by
  intro t t' heq
  simpa using heq

/-- The tag in front keeps names apart. -/
theorem SuccessorElement.append_injective :
    Function.Injective fun t : String => "successor" ++ t := by
  intro t t' heq
  exact (String.append_right_inj _).mp heq

/-- The match keys of written successors are their names. -/
theorem map_matchKey_successors (l : List SuccessorElement) :
    (l.map SuccessorElement.toXml).map matchKey =
      (l.map SuccessorElement.name).map fun t => ("successor", [("name", t)]) := by
  simp [List.map_map, Function.comp_def, SuccessorElement.matchKey_toXml]

/-- The sort keys of successors are their names behind the tag. -/
theorem map_key_successors (l : List SuccessorElement) :
    l.map SuccessorElement.key =
      (l.map SuccessorElement.name).map fun t => "successor" ++ t := by
  rw [List.map_map]
  rfl

/-- Successors are matched by their names, which is as good as by the keys of the sorting. -/
theorem unmatched_successors (before after : List SuccessorElement) :
    OrderedMatching.unmatched matchKey ((before.map SuccessorElement.toXml).map matchKey)
        (after.map SuccessorElement.toXml) =
      (OrderedMatching.unmatched SuccessorElement.key (before.map SuccessorElement.key)
        after).map SuccessorElement.toXml := by
  have hmatched := OrderedMatching.unmatched_map_key SuccessorElement.name
    SuccessorElement.matchKey_injective (before.map SuccessorElement.name) after
  have hsorted := OrderedMatching.unmatched_map_key SuccessorElement.name
    SuccessorElement.append_injective (before.map SuccessorElement.name) after
  rw [OrderedMatching.unmatched_map, map_matchKey_successors, map_key_successors]
  exact congrArg (List.map SuccessorElement.toXml) (hmatched.trans hsorted.symm)

/-- The added successors are those without a partner before. -/
theorem added_mergeSuccessors (nbef naft : NodeElement) :
    added (mergeSuccessors nbef naft) = (OrderedMatching.unmatched SuccessorElement.key
      (nbef.mergedSuccessors.map SuccessorElement.key) naft.mergedSuccessors).map
        SuccessorElement.toXml := by
  have htags : ∀ x ∈ naft.mergedSuccessors.map SuccessorElement.toXml, x.tag ≠ "add" := by
    intro x hx
    obtain ⟨s, _, rfl⟩ := List.mem_map.mp hx
    simp [SuccessorElement.toXml]
  rw [mergeSuccessors, added_addMerge htags, unmatched_successors]
  rfl

/-- A successor that a merge writes outside of an {lit}`add` element marks no case. -/
theorem flatMap_added_mergeSuccessors (nbef naft : NodeElement) (name : String) :
    ((successorsNamed name (mergeSuccessors nbef naft)).flatMap fun s => added s.contents) =
      [] := by
  refine List.flatMap_eq_nil_iff.mpr fun x hx => ?_
  obtain ⟨hmem, hkey⟩ := List.mem_filter.mp hx
  have htag : x.tag = "successor" := congrArg Prod.fst (of_decide_eq_true hkey)
  rcases mem_addMerge hmem with hlonger | ⟨l, hl, _⟩
  · obtain ⟨s, _, rfl⟩ := List.mem_map.mp hlonger
    refine added_eq_nil fun y hy => ?_
    obtain ⟨c, _, rfl⟩ := List.mem_map.mp hy
    simp [CaseElement.toXml]
  · rcases hl with rfl | rfl
    · simp [add] at htag
    · simp [remove] at htag

/-- What an emitted node holds: the changes of its successor list. -/
theorem successorLists_emitted (nbef : NodeElement) {r : Bool × Xml} {contents : List Xml}
    (h : r.1 = true → Xml.filter notSameVal r.2 = some (.element "successorlist" [] contents)) :
    successorLists (emitted nbef r) =
      if r.1 then [.element "successorlist" [] contents] else [] := by
  unfold successorLists emitted
  cases hr : r.1 with
  | false => rfl
  | true =>
      rw [if_pos rfl, h hr]
      rfl

/-- Written successors are clean. -/
theorem clean_toXml_successors (l : List SuccessorElement) :
    ∀ y ∈ l.map SuccessorElement.toXml, Clean y := by
  intro y hy
  obtain ⟨s, _, rfl⟩ := List.mem_map.mp hy
  exact s.clean

/-- What the successor lists of compared children hold is what changed. -/
theorem flatMap_successorLists_combine {β : Type} (nbef : NodeElement) (resl : List (Bool × Xml))
    {f : List Xml → List β} (hf : f [] = []) :
    ((successorLists (emitted nbef
        (Xml.combine (fun _ => sameVal) (successorListXml nbef.successors) resl))).flatMap
          fun sl => f sl.contents) = f (changed resl) := by
  have htag : (successorListXml nbef.successors).tag ≠ "samehere" := by simp [successorListXml]
  rw [successorLists_emitted nbef fun htrue => filter_combine htag htrue]
  split
  next => rw [List.flatMap_singleton, Xml.contents_element]
  next hfalse =>
    rw [changed_eq_nil_of_combine (Bool.eq_false_of_not_eq_true hfalse), hf]
    rfl

section

variable {nbef naft : NodeElement}

section Paired

variable {pairs : List (SuccessorElement × SuccessorElement)} {resl : List (Bool × Xml)}

/-- Paired successors have one name. -/
theorem name_eq_of_mem_pairs (hdiffs : List.Forall₂ (fun p r => SuccessorDiff p.1 p.2 r) pairs resl)
    {p : SuccessorElement × SuccessorElement} (hp : p ∈ pairs) : p.1.name = p.2.name := by
  obtain ⟨p₁, p₂, rfl⟩ := List.append_of_mem hp
  obtain ⟨_, _, _, _, _, hr, _⟩ := exists_split_of_forall₂ hdiffs
  exact hr.name_eq

/-- When all successors are paired none is new. -/
theorem newSuccessors_of_paired (hbefore : (pairs.map Prod.fst).Perm nbef.successors)
    (hafter : (pairs.map Prod.snd).Perm naft.successors)
    (hdiffs : List.Forall₂ (fun p r => SuccessorDiff p.1 p.2 r) pairs resl) :
    newSuccessors nbef naft = [] := by
  refine List.filter_eq_nil_iff.mpr fun sa hsa => ?_
  obtain ⟨p, hp, rfl⟩ := List.mem_map.mp (hafter.mem_iff.mpr hsa)
  have hold : p.1 ∈ nbef.successors := hbefore.mem_iff.mp (List.mem_map_of_mem hp)
  have hname : p.2.name ∈ nbef.successors.map SuccessorElement.name :=
    name_eq_of_mem_pairs hdiffs hp ▸ List.mem_map_of_mem hold
  simp only [decide_eq_true_eq, not_not]
  exact hname

/-- The cases of paired successors are marked pair by pair. -/
theorem addedCases_iff_of_paired (hbefore : (pairs.map Prod.fst).Perm nbef.successors)
    (hafter : (pairs.map Prod.snd).Perm naft.successors)
    (hdiffs : List.Forall₂ (fun p r => SuccessorDiff p.1 p.2 r) pairs resl)
    {sb sa : SuccessorElement} (hsb : sb ∈ nbef.successors) (hsa : sa ∈ naft.successors)
    (hname : sb.name = sa.name) :
    addedCases (emitted nbef
        (Xml.combine (fun _ => sameVal) (successorListXml nbef.successors) resl)) sa.name =
      (newCases sb sa).map CaseElement.toXml ↔
    OrderedMatching.NoneBehindLost CaseElement.nodetarget
      (sb.cases.map CaseElement.nodetarget) sa.cases := by
  obtain ⟨p, hp, rfl⟩ := List.mem_map.mp (hafter.mem_iff.mpr hsa)
  have hold : p.1 ∈ nbef.successors := hbefore.mem_iff.mp (List.mem_map_of_mem hp)
  have hsame : p.1 = sb :=
    List.inj_on_of_nodup_map nbef.names_nodup hold hsb
      ((name_eq_of_mem_pairs hdiffs hp).trans hname.symm)
  have hnames : (pairs.map fun p => p.2.name).Nodup := by
    have hperm := (hafter.map SuccessorElement.name).nodup_iff.mpr naft.names_nodup
    rwa [List.map_map] at hperm
  obtain ⟨r, hr, hnamed⟩ := exists_successorsNamed hdiffs hnames hp
  unfold addedCases
  rw [flatMap_successorLists_combine nbef resl
    (f := fun l => (successorsNamed p.2.name l).flatMap fun s => added s.contents) rfl,
    hnamed, ← hsame]
  exact hr.added_iff

/-- With paired successors no successor is new, and the cases are marked pair by pair. -/
theorem marksNew_of_paired (hbefore : (pairs.map Prod.fst).Perm nbef.successors)
    (hafter : (pairs.map Prod.snd).Perm naft.successors)
    (hdiffs : List.Forall₂ (fun p r => SuccessorDiff p.1 p.2 r) pairs resl) :
    MarksNew nbef naft
        (emitted nbef (Xml.combine (fun _ => sameVal) (successorListXml nbef.successors) resl)) ↔
      ∀ sb ∈ nbef.successors, ∀ sa ∈ naft.successors, sb.name = sa.name →
        OrderedMatching.NoneBehindLost CaseElement.nodetarget
          (sb.cases.map CaseElement.nodetarget) sa.cases := by
  constructor
  · intro hmarks sb hsb sa hsa hname
    exact (addedCases_iff_of_paired hbefore hafter hdiffs hsb hsa hname).mp
      (hmarks.cases sb hsb sa hsa hname)
  · intro hnone
    refine ⟨?_, fun sb hsb sa hsa hname => ?_⟩
    · rw [addedSuccessors, flatMap_successorLists_combine nbef resl added_nil,
        added_changed hdiffs, newSuccessors_of_paired hbefore hafter hdiffs]
      exact List.Perm.nil
    · exact (addedCases_iff_of_paired hbefore hafter hdiffs hsb hsa hname).mpr
        (hnone sb hsb sa hsa hname)

end Paired

/-- With merged successors new cases of old successors are not marked. -/
theorem marksNew_of_merged :
    MarksNew nbef naft
        (emitted nbef (true, .element "successorlist" [] (mergeSuccessors nbef naft))) ↔
      OrderedMatching.NoneBehindLost SuccessorElement.key
          (nbef.mergedSuccessors.map SuccessorElement.key) naft.mergedSuccessors ∧
        ∀ sb ∈ nbef.successors, ∀ sa ∈ naft.successors, sb.name = sa.name →
          newCases sb sa = [] := by
  have hclean : Clean (.element "successorlist" [] (mergeSuccessors nbef naft)) :=
    clean_of_tag_ne (by simp)
      (clean_addMerge (clean_toXml_successors _) (clean_toXml_successors _))
  have hlists := successorLists_emitted nbef (r := (true, _)) fun _ => hclean
  have hadded : addedSuccessors
      (emitted nbef (true, .element "successorlist" [] (mergeSuccessors nbef naft))) =
        added (mergeSuccessors nbef naft) := by
    simp [addedSuccessors, hlists]
  have hcases : ∀ name, addedCases
      (emitted nbef (true, .element "successorlist" [] (mergeSuccessors nbef naft))) name = [] := by
    intro name
    simp only [addedCases, hlists, if_true, List.flatMap_singleton, Xml.contents_element]
    exact flatMap_added_mergeSuccessors nbef naft name
  have hperm : ((newSuccessors nbef naft).map SuccessorElement.toXml).Perm
      ((OrderedMatching.fresh SuccessorElement.key
        (nbef.mergedSuccessors.map SuccessorElement.key) naft.mergedSuccessors).map
          SuccessorElement.toXml) :=
    ((fresh_perm_newSuccessors nbef naft).map _).symm
  constructor
  · intro hmarks
    constructor
    · have hsuccessors := hmarks.successors
      rw [hadded, added_mergeSuccessors] at hsuccessors
      exact (OrderedMatching.unmatched_perm_fresh_iff _).mp (hsuccessors.trans hperm)
    · intro sb hsb sa hsa hname
      have hnew := hmarks.cases sb hsb sa hsa hname
      rw [hcases] at hnew
      exact List.map_eq_nil_iff.mp hnew.symm
  · rintro ⟨hnone, hnew⟩
    constructor
    · rw [hadded, added_mergeSuccessors]
      exact ((OrderedMatching.unmatched_perm_fresh_iff _).mpr hnone).trans hperm.symm
    · intro sb hsb sa hsa hname
      rw [hcases, hnew sb hsb sa hsa hname]
      rfl

end

/-- Where the difference of a node is emitted, it marks exactly what is new when nothing but
one level changed. -/
theorem marksNew_iff {nbef naft : NodeElement} {out : Option Xml}
    (h : emitExisting nbef.toXml naft.toXml = .ok out) :
    MarksNew nbef naft out ↔ ComparedInOneLevel nbef naft := by
  obtain ⟨r, hr, rfl⟩ := emitExisting_eq_ok h
  unfold ComparedInOneLevel
  cases hr with
  | paired pairs resl hlength hbefore hafter hdiffs =>
      rw [if_pos hlength]
      exact marksNew_of_paired hbefore hafter hdiffs
  | merged hlength =>
      rw [if_neg hlength, xmlSort_map_toXml, xmlSort_map_toXml]
      exact marksNew_of_merged

/-! ## A change in two levels -/

/-- A node that sends everything to one target. -/
def dispatchBefore : NodeElement where
  name := "Dispatch"
  function := "Dispatch"
  source := "false"
  door := "false"
  iserrhandler := "false"
  detached := "false"
  external := "false"
  inputunionhash := "in"
  outputunionhash := "out"
  guardrefs := []
  errorhandler := none
  successors := [{ name := "0", cases := [{ nodetarget := "Bill", conditions := [] }] }]
  names_nodup := by decide

/-- A test of the first output, negated or not. -/
def isLarge (isnegated : String) : ConditionElement where
  name := "isLarge"
  argno := "1"
  isnegated := isnegated
  unionhash := "out"

/-- A plugin adds a case to the successor and a second successor. -/
def dispatchAfter : NodeElement :=
  { dispatchBefore with
    successors := [
      { name := "0"
        cases := [{ nodetarget := "Audit", conditions := [isLarge "false"] },
          { nodetarget := "Bill", conditions := [isLarge "true"] }] },
      { name := "1", cases := [{ nodetarget := "Log", conditions := [] }] }]
    names_nodup := by decide }

/-- A plugin adds the case only. -/
def dispatchWithCase : NodeElement :=
  { dispatchBefore with
    successors := [
      { name := "0"
        cases := [{ nodetarget := "Audit", conditions := [isLarge "false"] },
          { nodetarget := "Bill", conditions := [isLarge "true"] }] }]
    names_nodup := by decide }

/-- The difference of nodes without guards and error handler. -/
theorem simpleDiff_of_comparePair {nbef naft : NodeElement} {r : Xml}
    (hkey : nbef.attributes = naft.attributes) (hbef : nbef.references = [])
    (haft : naft.references = [])
    (h : comparePair (successorListXml nbef.successors) (successorListXml naft.successors) =
      .ok (true, r)) :
    simpleDiff nbef.toXml naft.toXml = .ok (.element "node" nbef.attributes [r]) := by
  have hnode : comparePair nbef.toXml naft.toXml =
      .ok (true, .element "node" nbef.attributes [r]) := by
    rw [comparePair, NodeElement.toXml, NodeElement.toXml, hbef, haft, Xml.diffPair_element,
      if_pos ⟨rfl, hkey, rfl⟩]
    have hsort : ∀ x : Xml, Xml.sortOpt orderedTags "node" ([] ++ [x]) = [x] := fun _ => rfl
    have hpair : Xml.diffPair orderedTags diffHandler (fun _ => sameVal)
        (successorListXml nbef.successors) (successorListXml naft.successors) = .ok (true, r) := h
    rw [hsort, hsort, List.zip_cons_cons, List.zip_nil_left, List.mapM_cons, List.mapM_nil, hpair]
    rfl
  have hpair : Xml.diffPair orderedTags diffHandler (fun _ => sameVal) nbef.toXml naft.toXml =
      .ok (true, .element "node" nbef.attributes [r]) := hnode
  rw [simpleDiff, Xml.diff, hpair]
  rfl

/-- What is emitted for a node without guards and error handler. -/
theorem emitExisting_of_comparePair {nbef naft : NodeElement} {r : Xml}
    (hkey : nbef.attributes = naft.attributes) (hbef : nbef.references = [])
    (haft : naft.references = [])
    (h : comparePair (successorListXml nbef.successors) (successorListXml naft.successors) =
      .ok (true, r)) :
    emitExisting nbef.toXml naft.toXml = .ok (emitted nbef (true, r)) := by
  have hdiff := simpleDiff_of_comparePair hkey hbef haft h
  have hfilter : Xml.filter notSameVal (.element "node" nbef.attributes [r]) =
      some (.element "node" nbef.attributes (Xml.filter notSameVal r).toList) := by
    rw [Xml.filter_element, if_pos (by simp [notSameVal])]
    cases hr : Xml.filter notSameVal r <;> simp [hr]
  rw [emitExisting, hdiff]
  simp only [bind, Except.bind, hfilter, pure, Except.pure, Option.map_some, emitted, if_true]

/-- With a new successor the lists are merged. -/
theorem comparePair_dispatchAfter :
    comparePair (successorListXml dispatchBefore.successors)
        (successorListXml dispatchAfter.successors) =
      .ok (true, .element "successorlist" [] (mergeSuccessors dispatchBefore dispatchAfter)) := by
  rw [comparePair, successorListXml, successorListXml, Xml.diffPair_element, if_neg (by decide)]
  rfl

/-- The new case of the old successor is not marked. -/
theorem not_marksNew_dispatchAfter :
    ¬ ∀ (nbef naft : NodeElement) (out : Option Xml),
      emitExisting nbef.toXml naft.toXml = .ok out → MarksNew nbef naft out := by
  intro h
  have hmarks := h dispatchBefore dispatchAfter _
    (emitExisting_of_comparePair rfl rfl rfl comparePair_dispatchAfter)
  have hnew := (marksNew_of_merged.mp hmarks).2 _ List.mem_cons_self _ List.mem_cons_self rfl
  exact absurd hnew (by decide)

/-- The successor list that is emitted for the new case alone. -/
def markedCase : Xml :=
  .element "successorlist" [] [.element "successor" [("name", "0")] [
    add [.element "case" [("nodetarget", "Audit")] [(isLarge "false").toXml]],
    .element "case" [("nodetarget", "Bill")] [(isLarge "true").toXml]]]

/-- With a new case the successors are compared one by one. -/
theorem comparePair_dispatchWithCase :
    comparePair (successorListXml dispatchBefore.successors)
      (successorListXml dispatchWithCase.successors) = .ok (true, markedCase) := by
  have hcases : ∀ s t : SuccessorElement, s.cases.length ≠ t.cases.length →
      Xml.diffPair orderedTags diffHandler (fun _ => sameVal) s.toXml t.toXml =
        (diffHandler s.toXml t.toXml).map fun res => (true, res) := by
    intro s t hlength
    have hne : (s.cases.map CaseElement.toXml).length ≠ (t.cases.map CaseElement.toXml).length := by
      simpa using hlength
    rw [SuccessorElement.toXml, SuccessorElement.toXml, Xml.diffPair_element,
      if_neg fun heq => hne heq.2.2]
    rfl
  have hsort : ∀ x : Xml, Xml.sortOpt orderedTags "successorlist" [x] = [x] := fun _ => rfl
  rw [comparePair, successorListXml, successorListXml, Xml.diffPair_element,
    if_pos ⟨rfl, rfl, rfl⟩]
  simp only [dispatchBefore, dispatchWithCase, List.map_cons, List.map_nil, hsort,
    List.zip_cons_cons, List.zip_nil_left, List.mapM_cons, List.mapM_nil]
  rw [hcases { name := "0", cases := [{ nodetarget := "Bill", conditions := [] }] } _ (by decide)]
  rfl

theorem marksNew_iff_dispatchWithCase :
    ComparedInOneLevel dispatchBefore dispatchWithCase ∧
      (MarksNew dispatchBefore dispatchWithCase (emitted dispatchBefore (true, markedCase)) ↔
        ComparedInOneLevel dispatchBefore dispatchWithCase) :=
  ⟨by decide,
    marksNew_iff (emitExisting_of_comparePair rfl rfl rfl comparePair_dispatchWithCase)⟩

end Compiler
end OFlux
