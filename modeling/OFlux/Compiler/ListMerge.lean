import OFlux.Compiler.PluginXml

/-!
# The list merge as a difference

What a list merge writes is a sequence of parts: a child of the longer list that was matched, an
{lit}`add` element, or a {lit}`remove` element.  The parts tell an element that the merge made
from a child that has its tag.

Main results:

- Theorem {lit}`mergeParts_of_subsequence`: taking the first match of each child finds a
  subsequence where there is one.
- Theorem {lit}`addMerge_faithful`: what the parts of a merge say about the two lists.
-/

namespace OFlux
namespace Compiler

/-- A part of a merge. -/
inductive Part where
  | kept (x : Xml)
  | added (l : List Xml)
  | removed (l : List Xml)

namespace Part

/-- An added run stands inside of an element of its own, and so does a removed one. -/
def toXml : Part → Xml
  | kept x => x
  | added l => add l
  | removed l => remove l

/-- The contents of an {lit}`add` element, and any other part itself. -/
def unwrapped : Part → List Xml
  | kept x => [x]
  | added l => l
  | removed l => [remove l]

/-- Nothing for an {lit}`add` element, and any other part itself. -/
def withoutAdd : Part → List Xml
  | kept x => [x]
  | added _ => []
  | removed l => [remove l]

end Part

/-- An empty run of new elements is not written. -/
def condAddPart (accumulated : List Xml) (parts : List Part) : List Part :=
  match accumulated with
  | [] => parts
  | _ => .added accumulated.reverse :: parts

/-- The parts of {lit}`addMerge`. -/
def mergeParts (accumulated : List Xml) : List Xml → List Xml → List Part
  | sh :: st, lh :: lt =>
      if matchKey lh = matchKey sh then condAddPart accumulated (.kept lh :: mergeParts [] st lt)
      else mergeParts (lh :: accumulated) (sh :: st) lt
  | [], longer => condAddPart (longer.reverse ++ accumulated) []
  | shorter, [] => .removed shorter :: condAddPart accumulated []

/-- The shorter list is a subsequence of the longer one, compared by tags and attributes. -/
def Subsequence (shorter longer : List Xml) : Prop :=
  (shorter.map matchKey).Sublist (longer.map matchKey)

/-- The same tag and attributes. -/
def Matches (x y : Xml) : Prop :=
  matchKey x = matchKey y

/-! ## The parts -/

/-- The parts of an addition as elements. -/
theorem map_condAddPart (accumulated : List Xml) (parts : List Part) :
    (condAddPart accumulated parts).map Part.toXml =
      condAdd accumulated (parts.map Part.toXml) := by
  cases accumulated <;> rfl

/-- The merge as elements of its parts. -/
theorem addMerge_eq_map (accumulated shorter longer : List Xml) :
    addMerge accumulated shorter longer =
      (mergeParts accumulated shorter longer).map Part.toXml := by
  induction accumulated, shorter, longer using addMerge.induct with
  | case1 accumulated sh st lh lt heq ih =>
      rw [addMerge, mergeParts, if_pos heq, if_pos heq, map_condAddPart, ih]
      rfl
  | case2 accumulated sh st lh lt hne ih =>
      rw [addMerge, mergeParts, if_neg hne, if_neg hne, ih]
  | case3 accumulated longer =>
      rw [addMerge, mergeParts, map_condAddPart]
      rfl
  | case4 accumulated shorter hshorter =>
      cases shorter with
      | nil => exact absurd rfl hshorter
      | cons sh st =>
          have hxml : addMerge accumulated (sh :: st) [] =
              remove (sh :: st) :: condAdd accumulated [] := by
            rw [addMerge]
            exact hshorter
          have hparts : mergeParts accumulated (sh :: st) [] =
              .removed (sh :: st) :: condAddPart accumulated [] := by
            rw [mergeParts]
            exact hshorter
          rw [hxml, hparts, List.map_cons, map_condAddPart]
          rfl

@[simp]
theorem unwrapped_condAddPart (accumulated : List Xml) (parts : List Part) :
    (condAddPart accumulated parts).flatMap Part.unwrapped =
      accumulated.reverse ++ parts.flatMap Part.unwrapped := by
  unfold condAddPart
  split <;> rfl

@[simp]
theorem withoutAdd_condAddPart (accumulated : List Xml) (parts : List Part) :
    (condAddPart accumulated parts).flatMap Part.withoutAdd = parts.flatMap Part.withoutAdd := by
  unfold condAddPart
  split <;> rfl

/-- An addition removes nothing. -/
theorem removed_mem_condAddPart_iff {accumulated l : List Xml} {parts : List Part} :
    .removed l ∈ condAddPart accumulated parts ↔ .removed l ∈ parts := by
  unfold condAddPart
  split <;> simp

/-- An addition keeps nothing. -/
theorem kept_mem_condAddPart_iff {accumulated : List Xml} {x : Xml} {parts : List Part} :
    .kept x ∈ condAddPart accumulated parts ↔ .kept x ∈ parts := by
  unfold condAddPart
  split <;> simp

/-! ## Subsequences -/

/-- A first match is as good as a later one. -/
theorem subsequence_cons_of_matches {sh lh : Xml} (st lt : List Xml)
    (h : matchKey lh = matchKey sh) : Subsequence (sh :: st) (lh :: lt) ↔ Subsequence st lt := by
  unfold Subsequence
  rw [List.map_cons, List.map_cons, h, List.cons_sublist_cons]

/-- An element that does not match is skipped. -/
theorem subsequence_cons_of_not_matches {sh lh : Xml} (st lt : List Xml)
    (h : matchKey lh ≠ matchKey sh) :
    Subsequence (sh :: st) (lh :: lt) ↔ Subsequence (sh :: st) lt := by
  unfold Subsequence
  rw [List.map_cons, List.map_cons, List.cons_sublist_cons', or_iff_left fun heq => h heq.1.symm]

/-- Taking the first match of each child finds a subsequence where there is one. -/
theorem mergeParts_of_subsequence {accumulated shorter longer : List Xml}
    (h : Subsequence shorter longer) :
    (∀ l, .removed l ∉ mergeParts accumulated shorter longer) ∧
      (mergeParts accumulated shorter longer).flatMap Part.unwrapped =
        accumulated.reverse ++ longer ∧
      ((mergeParts accumulated shorter longer).flatMap Part.withoutAdd).Sublist longer ∧
      List.Forall₂ Matches shorter
        ((mergeParts accumulated shorter longer).flatMap Part.withoutAdd) := by
  induction accumulated, shorter, longer using mergeParts.induct with
  | case1 accumulated sh st lh lt heq ih =>
      obtain ⟨hremoved, hunwrapped, hsub, hmatch⟩ :=
        ih ((subsequence_cons_of_matches st lt heq).mp h)
      rw [mergeParts, if_pos heq]
      refine ⟨fun l => ?_, ?_, ?_, ?_⟩
      · rw [removed_mem_condAddPart_iff]
        simpa using hremoved l
      · rw [unwrapped_condAddPart, List.flatMap_cons, hunwrapped]
        rfl
      · rw [withoutAdd_condAddPart]
        exact hsub.cons_cons lh
      · rw [withoutAdd_condAddPart]
        exact List.Forall₂.cons heq.symm hmatch
  | case2 accumulated sh st lh lt hne ih =>
      obtain ⟨hremoved, hunwrapped, hsub, hmatch⟩ :=
        ih ((subsequence_cons_of_not_matches st lt hne).mp h)
      rw [mergeParts, if_neg hne]
      refine ⟨hremoved, ?_, hsub.cons lh, hmatch⟩
      rw [hunwrapped, List.reverse_cons, List.append_assoc]
      rfl
  | case3 accumulated longer =>
      rw [mergeParts]
      refine ⟨fun l => ?_, ?_, ?_, ?_⟩
      · rw [removed_mem_condAddPart_iff]
        exact List.not_mem_nil
      · simp
      · simp
      · simp
  | case4 accumulated shorter hshorter =>
      exact absurd (List.map_eq_nil_iff.mp (List.sublist_nil.mp h)) hshorter

/-- Without a subsequence the merge runs out of the longer list. -/
theorem exists_removed_of_not_subsequence {accumulated shorter longer : List Xml}
    (h : ¬ Subsequence shorter longer) :
    ∃ l, .removed l ∈ mergeParts accumulated shorter longer := by
  induction accumulated, shorter, longer using mergeParts.induct with
  | case1 accumulated sh st lh lt heq ih =>
      obtain ⟨l, hl⟩ := ih fun hsub => h ((subsequence_cons_of_matches st lt heq).mpr hsub)
      rw [mergeParts, if_pos heq]
      exact ⟨l, removed_mem_condAddPart_iff.mpr (List.mem_cons_of_mem _ hl)⟩
  | case2 accumulated sh st lh lt hne ih =>
      rw [mergeParts, if_neg hne]
      exact ih fun hsub => h ((subsequence_cons_of_not_matches st lt hne).mpr hsub)
  | case3 accumulated longer => exact absurd (List.nil_sublist _) h
  | case4 accumulated shorter hshorter =>
      rw [mergeParts]
      · exact ⟨shorter, List.mem_cons_self⟩
      · exact hshorter

/-- What is kept is a child of the longer list. -/
theorem mem_of_kept_mem {accumulated shorter longer : List Xml} {x : Xml}
    (h : .kept x ∈ mergeParts accumulated shorter longer) : x ∈ longer := by
  induction accumulated, shorter, longer using mergeParts.induct with
  | case1 accumulated sh st lh lt heq ih =>
      rw [mergeParts, if_pos heq, kept_mem_condAddPart_iff, List.mem_cons] at h
      rcases h with h | h
      · cases h
        exact List.mem_cons_self
      · exact List.mem_cons_of_mem _ (ih h)
  | case2 accumulated sh st lh lt hne ih =>
      rw [mergeParts, if_neg hne] at h
      exact List.mem_cons_of_mem _ (ih h)
  | case3 accumulated longer =>
      rw [mergeParts, kept_mem_condAddPart_iff] at h
      cases h
  | case4 accumulated shorter hshorter =>
      rw [mergeParts] at h
      · rw [List.mem_cons, kept_mem_condAddPart_iff] at h
        rcases h with h | h <;> cases h
      · exact hshorter

/-! ## Reading the tags -/

/-- The contents of the elements with the tag {lit}`add`, and the others themselves. -/
def unwrapAdds (contents : List Xml) : List Xml :=
  contents.flatMap fun x => if x.tag = "add" then x.contents else [x]

/-- The elements that were there before. -/
def dropAdds (contents : List Xml) : List Xml :=
  contents.filter fun x => x.tag ≠ "add"

/-- Unwrapping the additions gives the longer list. -/
theorem unwrapAdds_map {parts : List Part} (h : ∀ x, .kept x ∈ parts → x.tag ≠ "add") :
    unwrapAdds (parts.map Part.toXml) = parts.flatMap Part.unwrapped := by
  unfold unwrapAdds
  rw [List.flatMap_map]
  refine List.flatMap_congr fun part hpart => ?_
  cases part with
  | kept x => exact if_neg (h x hpart)
  | added l => rfl
  | removed l => rfl

/-- Dropping the additions gives the shorter list. -/
theorem dropAdds_map {parts : List Part} (h : ∀ x, .kept x ∈ parts → x.tag ≠ "add") :
    dropAdds (parts.map Part.toXml) = parts.flatMap Part.withoutAdd := by
  induction parts with
  | nil => rfl
  | cons part parts ih =>
      have hrest := ih fun x hx => h x (List.mem_cons_of_mem _ hx)
      unfold dropAdds at hrest ⊢
      rw [List.map_cons, List.filter_cons, List.flatMap_cons, hrest]
      cases part with
      | kept x => exact if_pos (decide_eq_true (h x List.mem_cons_self))
      | added l => rfl
      | removed l => rfl

/-- The parts of a merge: if the shorter list is a subsequence of the longer one, nothing is
removed, unwrapping what is added gives the longer list, and dropping it leaves a sublist of the
longer list that matches the shorter one; and something is removed only if it is none.  Where no
child has a tag of the merge, the parts are told by their tags. -/
theorem addMerge_faithful (shorter longer : List Xml) :
    ∃ parts : List Part, addMerge [] shorter longer = parts.map Part.toXml ∧
      (Subsequence shorter longer →
        (∀ l, .removed l ∉ parts) ∧ parts.flatMap Part.unwrapped = longer ∧
        (parts.flatMap Part.withoutAdd).Sublist longer ∧
        List.Forall₂ Matches shorter (parts.flatMap Part.withoutAdd)) ∧
      ((∃ l, .removed l ∈ parts) ↔ ¬ Subsequence shorter longer) ∧
      ((∀ x ∈ longer, x.tag ≠ "add" ∧ x.tag ≠ "remove") →
        unwrapAdds (addMerge [] shorter longer) = parts.flatMap Part.unwrapped ∧
        dropAdds (addMerge [] shorter longer) = parts.flatMap Part.withoutAdd ∧
        ((∃ x ∈ addMerge [] shorter longer, x.tag = "remove") ↔ ∃ l, .removed l ∈ parts)) := by
  have heq := addMerge_eq_map [] shorter longer
  refine ⟨mergeParts [] shorter longer, heq, fun h => ?_, ⟨?_, ?_⟩, fun htag => ?_⟩
  · exact mergeParts_of_subsequence h
  · rintro ⟨l, hl⟩ h
    exact (mergeParts_of_subsequence h).1 l hl
  · exact exists_removed_of_not_subsequence
  · have hkept : ∀ x, .kept x ∈ mergeParts [] shorter longer →
        x.tag ≠ "add" ∧ x.tag ≠ "remove" := fun x hx => htag x (mem_of_kept_mem hx)
    rw [heq]
    refine ⟨unwrapAdds_map fun x hx => (hkept x hx).1, dropAdds_map fun x hx => (hkept x hx).1,
      ?_, ?_⟩
    · rintro ⟨x, hx, hremove⟩
      obtain ⟨part, hpart, rfl⟩ := List.mem_map.mp hx
      cases part with
      | kept x => exact absurd hremove (hkept x hpart).2
      | added l =>
          have hadd : "add" = "remove" := hremove
          exact absurd hadd (by decide)
      | removed l => exact ⟨l, hpart⟩
    · rintro ⟨l, hl⟩
      exact ⟨_, List.mem_map_of_mem hl, rfl⟩

end Compiler
end OFlux
