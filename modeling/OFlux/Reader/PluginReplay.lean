import OFlux.Reader.Programs

/-!
# Replaying the difference of a node

What the reader does to a node of a flow when it reads the element that the compiler emitted
for the difference of the node.

Main results:

- Theorem {lit}`readPaired`: with equally many successors the new cases are put in
  front of the old ones, in reverse order.
- Theorem {lit}`readMerged`: with more successors the new ones are added, and the old
  ones stay as they are.
- Theorems {lit}`exists_error_of_lost_case` and {lit}`exists_error_of_lost_successor`: where
  something is lost, the element cannot be read.
-/

namespace OFlux
namespace Reader

open Library Compiler

/-! ## The cases of a successor -/

/-- Every case of a successor has a counterpart, in order. -/
def CasesKept (sb sa : SuccessorElement) : Prop :=
  (sb.cases.map CaseElement.nodetarget).Sublist (sa.cases.map CaseElement.nodetarget)

/-- A successor with its new cases in front, the last one first. -/
def replayedSuccessor (sb sa : SuccessorElement) : Successor where
  name := sb.name
  cases := casesObject true (newCases sb sa) ++ casesObject false sb.cases

/-- No old case is lost when the old keys are a sublist of the new ones. -/
theorem casesKept_iff {sb sa : SuccessorElement} :
    ((sb.cases.map CaseElement.toXml).map matchKey).Sublist
      ((sa.cases.map CaseElement.toXml).map matchKey) ↔ CasesKept sb sa := by
  rw [map_matchKey_cases, map_matchKey_cases]
  exact OrderedMatching.map_sublist_map_iff CaseElement.key_injective

/-- The merged cases are read when none is lost. -/
theorem readMergedCases {sb sa : SuccessorElement} (h : CasesKept sb sa) (s : Successor) :
    (addMerge [] (sb.cases.map CaseElement.toXml) (sa.cases.map CaseElement.toXml)).foldlM
        (readChild readSuccessorElement false true) s =
      .ok { s with cases := casesObject true (newCases sb sa) ++ s.cases } := by
  have hskip : ∀ y ∈ sa.cases.map CaseElement.toXml, ∀ s,
      readChild readSuccessorElement false true s y = .ok s := by
    intro y hy s
    obtain ⟨c, _, rfl⟩ := List.mem_map.mp hy
    exact skipCase true s c
  have hnew : OrderedMatching.unmatched CaseElement.nodetarget
      (sb.cases.map CaseElement.nodetarget) sa.cases = newCases sb sa :=
    OrderedMatching.unmatched_eq_fresh_iff.mpr (OrderedMatching.noneBehindLost_of_sublist h)
  rw [foldlM_addMerge hskip (casesKept_iff.mpr h), unmatched_cases, hnew, List.reverse_nil,
    List.nil_append, readCases]
  rfl

/-- A lost case cannot be read. -/
theorem exists_error_of_lost_case {sb sa : SuccessorElement} (h : ¬CasesKept sb sa)
    (s : Successor) :
    ∃ e, (addMerge [] (sb.cases.map CaseElement.toXml) (sa.cases.map CaseElement.toXml)).foldlM
      (readChild readSuccessorElement false true) s = .error e := by
  obtain ⟨l, hl⟩ := exists_remove_mem_addMerge []
    fun hfound => h (casesKept_iff.mp hfound)
  exact exists_error_of_remove_mem hl false true s

/-! ## Equally many successors -/

/-- An old successor is changed in place. -/
theorem readChild_oldSuccessor (sl : SuccessorList) (name : String) (contents : List Xml) :
    readChild readSuccessorListElement false true sl
        (.element "successor" [("name", name)] contents) =
      match sl.getSuccessor name with
      | some s => (contents.foldlM (readChild readSuccessorElement false true) s).bind fun s =>
          .ok (KeyedList.replace Successor.name sl s)
      | none => (contents.foldlM (readChild readSuccessorElement false true) ⟨name, []⟩).bind
          fun s => if s.cases = [] then .ok sl else .error "null successor" :=
  rfl

section Paired

variable {pairs : List (SuccessorElement × SuccessorElement)} {resl : List (Bool × Xml)}

/-- The cases of all changed successors are kept. -/
def PairsKept (pairs : List (SuccessorElement × SuccessorElement)) : Prop :=
  ∀ p ∈ pairs, p.1.cases.length ≠ p.2.cases.length → CasesKept p.1 p.2

/-- The changed successors are read into those of their names. -/
theorem readPaired (hdiffs : List.Forall₂ (fun p r => SuccessorDiff p.1 p.2 r) pairs resl)
    (hkept : PairsKept pairs) (hnames : (pairs.map fun p => p.1.name).Nodup) {sl : SuccessorList}
    (hfind : ∀ p ∈ pairs, sl.getSuccessor p.1.name = some (successorObject false p.1)) :
    (changed resl).foldlM (readChild readSuccessorListElement false true) sl =
      .ok ((pairs.map fun p => replayedSuccessor p.1 p.2).foldl
        (KeyedList.replace Successor.name) sl) := by
  induction hdiffs generalizing sl with
  | nil => rfl
  | @cons p r pairs resl hp hrest ih =>
      rw [List.map_cons, List.nodup_cons] at hnames
      unfold PairsKept at hkept
      rw [List.forall_mem_cons] at hkept hfind
      have hrestfind : ∀ q ∈ pairs,
          SuccessorList.getSuccessor
            (KeyedList.replace Successor.name sl (replayedSuccessor p.1 p.2)) q.1.name =
              some (successorObject false q.1) := by
        intro q hq
        have hne : q.1.name ≠ (replayedSuccessor p.1 p.2).name := fun heq =>
          hnames.1 (List.mem_map.mpr ⟨q, hq, heq⟩)
        exact (KeyedList.find_replace_of_ne hne).trans (hfind.2 q hq)
      have hstep : (changed [r]).foldlM (readChild readSuccessorListElement false true) sl =
          .ok (KeyedList.replace Successor.name sl (replayedSuccessor p.1 p.2)) := by
        rw [changed_of_forall₂ (.cons hp .nil)]
        cases hp with
        | same hname hcases =>
            have hsame : replayedSuccessor p.1 p.2 = successorObject false p.1 := by
              simp [replayedSuccessor, newCases, ← hcases, OrderedMatching.fresh_map_self,
                successorObject, casesObject]
            have hstored : KeyedList.find Successor.name (successorObject false p.1).name sl =
                some (successorObject false p.1) := hfind.1
            rw [hsame, KeyedList.replace_of_find hstored]
            rfl
        | merged hname hlength =>
            have hread := readChild_oldSuccessor sl p.1.name
              (addMerge [] (p.1.cases.map CaseElement.toXml) (p.2.cases.map CaseElement.toXml))
            rw [hfind.1] at hread
            simp only [readMergedCases (hkept.1 hlength)] at hread
            rw [List.filter_cons_of_pos rfl, List.filter_nil, List.map_cons, List.map_nil,
              List.foldlM_cons, hread]
            rfl
      have hsplit : changed (r :: resl) = changed [r] ++ changed resl := changed_append [r] resl
      rw [hsplit, Fallible.foldlM_append_of_ok hstep, List.map_cons, List.foldl_cons]
      exact ih hkept.2 hnames.2 hrestfind

/-- A lost case keeps the whole difference from being read. -/
theorem exists_error_of_not_pairsKept
    (hdiffs : List.Forall₂ (fun p r => SuccessorDiff p.1 p.2 r) pairs resl)
    (hlost : ¬PairsKept pairs) (sl : SuccessorList) :
    ∃ e, (changed resl).foldlM (readChild readSuccessorListElement false true) sl = .error e := by
  obtain ⟨p, hp, hlength, hnot⟩ : ∃ p ∈ pairs, p.1.cases.length ≠ p.2.cases.length ∧
      ¬CasesKept p.1 p.2 := by
    simpa [PairsKept] using hlost
  obtain ⟨p₁, p₂, rfl⟩ := List.append_of_mem hp
  obtain ⟨r₁, r, r₂, rfl, h₁, hr, h₂⟩ := exists_split_of_forall₂ hdiffs
  have hmem : Xml.element "successor" [("name", p.1.name)]
      (addMerge [] (p.1.cases.map CaseElement.toXml) (p.2.cases.map CaseElement.toXml)) ∈
        changed (r₁ ++ r :: r₂) := by
    rw [changed_of_forall₂ hdiffs]
    cases hr with
    | same hname hcases => exact absurd (congrArg List.length hcases) hlength
    | merged => simp
  refine Fallible.exists_foldlM_eq_error_of_mem hmem (fun sl => ?_) sl
  rw [readChild_oldSuccessor]
  split
  · obtain ⟨e, he⟩ := exists_error_of_lost_case hnot ‹Successor›
    exact ⟨e, by rw [he]; rfl⟩
  · obtain ⟨e, he⟩ := exists_error_of_lost_case hnot ⟨p.1.name, []⟩
    exact ⟨e, by rw [he]; rfl⟩

end Paired

/-! ## More or fewer successors -/

section Merged

variable {nb na : NodeElement}

/-- Every successor of a node has a counterpart. -/
def SuccessorsKept (nb na : NodeElement) : Prop :=
  ∀ s ∈ nb.successors, s.name ∈ na.successors.map SuccessorElement.name

/-- No old successor is lost when the old keys are a sublist of the new ones. -/
theorem successorsKept_iff :
    ((nb.mergedSuccessors.map SuccessorElement.toXml).map matchKey).Sublist
      ((na.mergedSuccessors.map SuccessorElement.toXml).map matchKey) ↔ SuccessorsKept nb na := by
  have hsorted : ∀ n : NodeElement,
      (n.mergedSuccessors.map SuccessorElement.key).Pairwise (· < ·) := fun n =>
    List.pairwise_map.mpr (mergedSuccessors_sorted n)
  rw [map_matchKey_successors, map_matchKey_successors,
    OrderedMatching.map_sublist_map_iff SuccessorElement.matchKey_injective,
    ← OrderedMatching.map_sublist_map_iff SuccessorElement.append_injective,
    ← map_key_successors, ← map_key_successors,
    OrderedMatching.sublist_iff_subset (hsorted nb) (hsorted na)]
  have hmem : ∀ (n : NodeElement) (s : SuccessorElement),
      s.key ∈ n.mergedSuccessors.map SuccessorElement.key ↔
        s.name ∈ n.successors.map SuccessorElement.name := by
    intro n s
    rw [map_key_successors, ((mergedSuccessors_perm n).map _ |>.map _).mem_iff]
    exact List.mem_map_of_injective SuccessorElement.append_injective
  constructor
  · intro hsub s hs
    exact (hmem na s).mp (hsub ((hmem nb s).mpr (List.mem_map_of_mem hs)))
  · intro hkept k hk
    obtain ⟨s, hs, rfl⟩ := List.mem_map.mp hk
    exact (hmem na s).mpr (hkept s ((mergedSuccessors_perm nb).mem_iff.mp hs))

/-- The successors that a merge adds. -/
def mergedNew (nb na : NodeElement) : List SuccessorElement :=
  OrderedMatching.fresh SuccessorElement.key (nb.mergedSuccessors.map SuccessorElement.key)
    na.mergedSuccessors

/-- The merged new successors are the new ones. -/
theorem mem_mergedNew {s : SuccessorElement} : s ∈ mergedNew nb na ↔ s ∈ newSuccessors nb na :=
  (fresh_perm_newSuccessors nb na).mem_iff

/-- The merged successors are read when none is lost. -/
theorem readMerged (h : SuccessorsKept nb na) {sl : SuccessorList}
    (hnames : sl.map Successor.name = nb.successors.map SuccessorElement.name) :
    (mergeSuccessors nb na).foldlM (readChild readSuccessorListElement false true) sl =
      .ok (sl ++ (mergedNew nb na).map (successorObject true)) := by
  have hskip : ∀ y ∈ na.mergedSuccessors.map SuccessorElement.toXml, ∀ sl,
      readChild readSuccessorListElement false true sl y = .ok sl := by
    intro y hy sl
    obtain ⟨s, _, rfl⟩ := List.mem_map.mp hy
    exact skipSuccessor true sl s
  have hkept := successorsKept_iff.mpr h
  have hnone : OrderedMatching.NoneBehindLost SuccessorElement.key
      (nb.mergedSuccessors.map SuccessorElement.key) na.mergedSuccessors := by
    refine OrderedMatching.noneBehindLost_of_sublist ?_
    rw [map_matchKey_successors, map_matchKey_successors,
      OrderedMatching.map_sublist_map_iff SuccessorElement.matchKey_injective] at hkept
    rw [map_key_successors, map_key_successors]
    exact hkept.map _
  have hnew : OrderedMatching.unmatched SuccessorElement.key
      (nb.mergedSuccessors.map SuccessorElement.key) na.mergedSuccessors = mergedNew nb na :=
    OrderedMatching.unmatched_eq_fresh_iff.mpr hnone
  have hnodup : (sl.map Successor.name ++
      (mergedNew nb na).map SuccessorElement.name).Nodup := by
    have hperm := (fresh_perm_newSuccessors nb na).map SuccessorElement.name
    rw [hnames, List.nodup_append]
    refine ⟨nb.names_nodup, hperm.nodup_iff.mpr (na.names_nodup.sublist
      (List.filter_sublist.map _)), ?_⟩
    intro t ht t' ht' heq
    obtain ⟨s, hs, rfl⟩ := List.mem_map.mp ht'
    have hfresh := (List.mem_filter.mp (mem_mergedNew.mp hs)).2
    simp only [decide_eq_true_eq] at hfresh
    exact hfresh (heq ▸ ht)
  rw [mergeSuccessors, foldlM_addMerge hskip hkept, unmatched_successors, hnew,
    List.reverse_nil, List.nil_append, readSuccessors true hnodup]

/-- A lost successor cannot be read. -/
theorem exists_error_of_lost_successor (h : ¬SuccessorsKept nb na) (sl : SuccessorList) :
    ∃ e, (mergeSuccessors nb na).foldlM (readChild readSuccessorListElement false true) sl =
      .error e := by
  obtain ⟨l, hl⟩ := exists_remove_mem_addMerge []
    fun hfound => h (successorsKept_iff.mp hfound)
  exact exists_error_of_remove_mem hl false true sl

end Merged

/-! ## Nodes -/

/-- What the element that was emitted for a node, if any, does to the node. -/
def replayNode (guards : List String) (n : Node) : Option Xml → Except ReaderException Node
  | none => .ok n
  | some x => x.contents.foldlM (readChild (readNodeElement guards) false true) n

section

variable {guards : List String} {n : Node} {sl : SuccessorList} {nb : NodeElement}

/-- A successor list is read into that of the node. -/
theorem readChild_successorlist (contents : List Xml) :
    readChild (readNodeElement guards) false true n (.element "successorlist" [] contents) =
      match n.successorList with
      | some sl => (contents.foldlM (readChild readSuccessorListElement false true) sl).bind
          fun sl => .ok { n with successorList := some sl }
      | none => .error "null successor list" :=
  rfl

/-- A changed successor list is read into that of the node. -/
theorem replayNode_successorlist (hn : n.successorList = some sl) (contents : List Xml) :
    replayNode guards n (some (makeExternal (.element "node" nb.attributes
        [.element "successorlist" [] contents]))) =
      (contents.foldlM (readChild readSuccessorListElement false true) sl).bind fun sl =>
        .ok { n with successorList := some sl } := by
  have hcontents : replayNode guards n (some (makeExternal (.element "node" nb.attributes
      [.element "successorlist" [] contents]))) =
        (readChild (readNodeElement guards) false true n
          (.element "successorlist" [] contents)).bind .ok :=
    rfl
  rw [hcontents, readChild_successorlist, hn]
  dsimp only
  cases contents.foldlM (readChild readSuccessorListElement false true) sl <;> rfl

/-- With equally many successors the changed ones are read one by one. -/
theorem replayNode_combine (hn : n.successorList = some sl) (resl : List (Bool × Xml)) :
    replayNode guards n (emitted nb
        (Xml.combine (fun _ => sameVal) (successorListXml nb.successors) resl)) =
      ((changed resl).foldlM (readChild readSuccessorListElement false true) sl).bind fun sl =>
        .ok { n with successorList := some sl } := by
  have htag : (successorListXml nb.successors).tag ≠ "samehere" := by simp [successorListXml]
  unfold emitted
  split
  next htrue =>
    rw [filter_combine htag htrue]
    exact replayNode_successorlist hn _
  next hfalse =>
    rw [changed_eq_nil_of_combine (Bool.eq_false_of_not_eq_true hfalse)]
    change Except.ok n = Except.ok { n with successorList := some sl }
    rw [← hn]

/-- Merged successors are read into those of the node. -/
theorem replayNode_mergeSuccessors (guards : List String) (hn : n.successorList = some sl)
    (nb na : NodeElement) :
    replayNode guards n (emitted nb
        (true, .element "successorlist" [] (mergeSuccessors nb na))) =
      ((mergeSuccessors nb na).foldlM (readChild readSuccessorListElement false true) sl).bind
        fun sl => .ok { n with successorList := some sl } := by
  have hclean : Clean (.element "successorlist" [] (mergeSuccessors nb na)) :=
    clean_of_tag_ne (by simp)
      (clean_addMerge (clean_toXml_successors _) (clean_toXml_successors _))
  have hfilter : Xml.filter notSameVal (.element "successorlist" [] (mergeSuccessors nb na)) =
      some (.element "successorlist" [] (mergeSuccessors nb na)) := hclean
  rw [emitted, if_pos rfl, hfilter]
  exact replayNode_successorlist hn _

end

end Reader
end OFlux
