import OFlux.Frontend.Compatible
import OFlux.Library.Grouping

/-!
# Collapsed types

A union class of ends is collapsed when its ends have the same parameters: the code generator
gives it one structure.  In the other classes the ends are grouped by their parameters; the head
of each group gets a structure of its own and the other ends are aliases of the head.

Main results:

- Theorem {lit}`collapseClass_spec`: what is known after one more class.
- Theorem {lit}`getCollapsedTypes_faithful`: the ends that share a structure have the same
  parameters.
-/

namespace OFlux
namespace Frontend
namespace TypeCheck

open Library Fallible
open Grouping (Grouped Leads Follows)

/-- The modifiers, types and names of the parameters at an end. -/
def declarationList (stable : SymbolTable) (e : End) : List StrippedDf :=
  match stable.getDecls e with
  | .ok decls => decls.map stripDf
  | .error _ => []

/-- All ends of a class have the same parameters. -/
def AllSame (stable : SymbolTable) (ul : List End) : Prop :=
  ∀ e ∈ ul, ∀ e' ∈ ul, declarationList stable e = declarationList stable e'

/-- The groups of a class. -/
def groups (stable : SymbolTable) (ul : List End) : List (List End) :=
  ul.foldl (Grouping.insert (declarationList stable)) []

/-! ## The groups of one class -/

/-- Stripped fields are the same by modifier, type and name. -/
theorem stripDf_eq_iff (df1 df2 : DeclFormal) :
    stripDf df1 = stripDf df2 ↔
      df1.ctypemod = df2.ctypemod ∧ df1.ctype = df2.ctype ∧ df1.name = df2.name := by
  unfold stripDf
  rw [toLex_inj, Prod.mk.injEq, toLex_inj, Prod.mk.injEq]

theorem zip_all_eq (l1 l2 : List DeclFormal) :
    (decide (l1.length = l2.length) && (l1.zip l2).all fun p =>
      decide (p.1.ctypemod = p.2.ctypemod) && decide (p.1.ctype = p.2.ctype) &&
        decide (p.1.name = p.2.name)) =
      decide (l1.map stripDf = l2.map stripDf) := by
  induction l1 generalizing l2 with
  | nil => cases l2 <;> rfl
  | cons df1 l1 ih =>
      cases l2 with
      | nil => rfl
      | cons df2 l2 =>
          rw [List.map_cons, List.map_cons, List.zip_cons_cons, List.all_cons, List.length_cons,
            List.length_cons]
          simp only [List.cons.injEq, stripDf_eq_iff, Bool.decide_and, Nat.add_right_cancel_iff,
            ← ih l2]
          simp only [Bool.and_left_comm, Bool.and_assoc]

theorem isEqual_eq {stable : SymbolTable} {x1 x2 : End} (h1 : Declared stable x1)
    (h2 : Declared stable x2) :
    isEqual stable x1 x2 =
      .ok (decide (declarationList stable x1 = declarationList stable x2)) := by
  obtain ⟨l1, h1⟩ := h1
  obtain ⟨l2, h2⟩ := h2
  unfold isEqual declarationList
  rw [h1, h2]
  exact congrArg Except.ok (zip_all_eq l1 l2)

theorem groupEnd_eq {stable : SymbolTable} {ll : List (List End)} {u : End}
    (hll : ∀ g ∈ ll, ∀ e ∈ g, Declared stable e) (hu : Declared stable u) :
    groupEnd stable ll u = .ok (Grouping.insert (declarationList stable) ll u) := by
  induction ll with
  | nil => rfl
  | cons g t ih =>
      rw [List.forall_mem_cons] at hll
      cases g with
      | nil => rfl
      | cons hh h =>
          rw [groupEnd, isEqual_eq (hll.1 hh List.mem_cons_self) hu, Grouping.insert]
          by_cases heq : declarationList stable hh = declarationList stable u
          · simp [heq, bind, Except.bind, pure, Except.pure]
          · simp [heq, ih hll.2, bind, Except.bind, pure, Except.pure]

/-- Inserting one after another groups the elements. -/
theorem grouped_foldl {α κ : Type} [DecidableEq κ] {key : α → κ} {l : List α} {ll : List (List α)}
    (h : Grouped key l ll) (ul : List α) :
    Grouped key (ul.reverse ++ l) (ul.foldl (Grouping.insert key) ll) := by
  induction ul generalizing l ll with
  | nil => exact h
  | cons u ul ih =>
      rw [List.foldl_cons, List.reverse_cons, List.append_assoc]
      exact ih (h.insert u)

/-- The ends of a class are grouped by their fields. -/
theorem grouped_groups (stable : SymbolTable) (ul : List End) :
    Grouped (declarationList stable) ul (groups stable ul) := by
  have hnil : Grouped (declarationList stable) [] [] := Grouped.nil
  have h := grouped_foldl hnil ul
  rw [List.append_nil] at h
  exact { h with perm := h.perm.trans (List.reverse_perm ul) }

theorem foldlM_groupEnd_eq {stable : SymbolTable} {ul l : List End} {ll : List (List End)}
    (hll : Grouped (declarationList stable) l ll) (hl : ∀ e ∈ l, Declared stable e)
    (hul : ∀ e ∈ ul, Declared stable e) :
    ul.foldlM (groupEnd stable) ll =
      .ok (ul.foldl (Grouping.insert (declarationList stable)) ll) := by
  induction ul generalizing l ll with
  | nil => rfl
  | cons u ul ih =>
      rw [List.forall_mem_cons] at hul
      have hgroups : ∀ g ∈ ll, ∀ e ∈ g, Declared stable e :=
        fun g hg e he => hl e (hll.mem_iff.mpr ⟨g, hg, he⟩)
      rw [List.foldlM_cons, groupEnd_eq hgroups hul.1, List.foldl_cons]
      exact ih (hll.insert u) (List.forall_mem_cons.mpr ⟨hul.1, hl⟩) hul.2

/-! ## All classes -/

/-- What is known after some of the classes. -/
structure Collapsed (stable : SymbolTable) (done : List (List End))
    (res : List (Nat × List End) × List End × List (End × End)) : Prop where
  full : ∀ ul, (∃ i, (i, ul) ∈ res.1) ↔ ul ∈ done ∧ ul ≠ [] ∧ AllSame stable ul
  names : ∀ e, e ∈ res.2.1 ↔ ∃ ul ∈ done, AllSame stable ul ∧ e ∈ ul
  aliases : ∀ e h, (e, h) ∈ res.2.2 ↔
    ∃ ul ∈ done, ¬ AllSame stable ul ∧ Follows (groups stable ul) e h

/-- The aliases of a group follow its first end. -/
theorem mem_getAliases_iff {e h : End} {g : List End} :
    (e, h) ∈ getAliases g ↔ ∃ t, g = h :: t ∧ e ∈ t := by
  cases g with
  | nil => simp [getAliases]
  | cons h' t =>
      simp only [getAliases, List.mem_map, Prod.mk.injEq, List.cons.injEq]
      constructor
      · rintro ⟨e', he', rfl, rfl⟩
        exact ⟨t, ⟨rfl, rfl⟩, he'⟩
      · rintro ⟨t', ⟨rfl, rfl⟩, he⟩
        exact ⟨e, he, rfl, rfl⟩

/-- The aliases are the ends that follow. -/
theorem mem_flatMap_getAliases_iff {e h : End} {ll : List (List End)} :
    (e, h) ∈ ll.flatMap getAliases ↔ Follows ll e h := by
  rw [List.mem_flatMap, Follows]
  simp only [mem_getAliases_iff]
  constructor
  · rintro ⟨g, hg, t, rfl, he⟩
    exact ⟨t, hg, he⟩
  · rintro ⟨t, ht, he⟩
    exact ⟨_, ht, t, rfl, he⟩

/-- What one class adds. -/
theorem collapseClass_eq {stable : SymbolTable} {umap : List (End × Nat)}
    (res : List (Nat × List End) × List End × List (End × End)) {ul : List End} (hne : ul ≠ [])
    (hul : ∀ e ∈ ul, Declared stable e) (hnumber : ∀ e ∈ ul, ∃ i, assoc e umap = .ok i) :
    ∃ i, (AllSame stable ul → collapseClass stable umap res ul =
        .ok ((i, ul) :: res.1, ul ++ res.2.1, res.2.2)) ∧
      (¬ AllSame stable ul → collapseClass stable umap res ul =
        .ok (res.1, res.2.1, (groups stable ul).flatMap getAliases ++ res.2.2)) := by
  have hfold : ul.foldlM (groupEnd stable) [] = .ok (groups stable ul) :=
    foldlM_groupEnd_eq Grouped.nil (by simp) hul
  have hsame : (∃ g, groups stable ul = [g]) ↔ AllSame stable ul :=
    (grouped_groups stable ul).singleton_iff hne
  cases ul with
  | nil => exact absurd rfl hne
  | cons x xs =>
      obtain ⟨i, hi⟩ := hnumber x List.mem_cons_self
      refine ⟨i, ?_⟩
      rw [collapseClass, if_neg hne, ← hsame]
      simp only [hd, bind, Except.bind, hi, hfold]
      split
      next g hg => exact ⟨fun _ => rfl, fun hnot => absurd ⟨g, hg⟩ hnot⟩
      next hg =>
        refine ⟨fun hsingle => ?_, fun _ => rfl⟩
        obtain ⟨g, h⟩ := hsingle
        exact absurd h (hg g)

/-- One more class is collapsed. -/
theorem collapseClass_spec {stable : SymbolTable} {umap : List (End × Nat)}
    {done : List (List End)} {res : List (Nat × List End) × List End × List (End × End)}
    (h : Collapsed stable done res) {ul : List End} (hul : ∀ e ∈ ul, Declared stable e)
    (hnumber : ∀ e ∈ ul, ∃ i, assoc e umap = .ok i) :
    ∃ res', collapseClass stable umap res ul = .ok res' ∧ Collapsed stable (ul :: done) res' := by
  by_cases hne : ul = []
  · subst hne
    have hall : AllSame stable [] := by simp [AllSame]
    refine ⟨res, rfl, fun ul => ?_, fun e => ?_, fun e h' => ?_⟩
    · rw [h.full, List.mem_cons]
      exact ⟨fun ⟨hmem, hrest⟩ => ⟨Or.inr hmem, hrest⟩,
        fun ⟨hmem, hne, hsame⟩ => ⟨hmem.resolve_left hne, hne, hsame⟩⟩
    · simp [h.names]
    · simp [h.aliases, hall]
  · obtain ⟨i, heq, heq'⟩ := collapseClass_eq res hne hul hnumber
    by_cases hsame : AllSame stable ul
    · refine ⟨_, heq hsame, fun ul' => ?_, fun e => ?_, fun e h' => ?_⟩
      · simp only [List.mem_cons, Prod.mk.injEq, exists_or, h.full]
        constructor
        · rintro (⟨j, rfl, rfl⟩ | ⟨hmem, hrest⟩)
          · exact ⟨Or.inl rfl, hne, hsame⟩
          · exact ⟨Or.inr hmem, hrest⟩
        · rintro ⟨rfl | hmem, hrest⟩
          · exact Or.inl ⟨i, rfl, rfl⟩
          · exact Or.inr ⟨hmem, hrest⟩
      · simp [h.names, hsame]
      · simp [h.aliases, hsame]
    · refine ⟨_, heq' hsame, fun ul' => ?_, fun e => ?_, fun e h' => ?_⟩
      · rw [h.full, List.mem_cons]
        refine ⟨fun ⟨hmem, hrest⟩ => ⟨Or.inr hmem, hrest⟩, fun ⟨hmem, hrest⟩ => ⟨?_, hrest⟩⟩
        refine hmem.resolve_left ?_
        rintro rfl
        exact hsame hrest.2
      · simp [h.names, hsame]
      · rw [List.mem_append, mem_flatMap_getAliases_iff, h.aliases, List.exists_mem_cons_iff,
          and_iff_right hsame]

/-- All classes are collapsed. -/
theorem getCollapsedTypes_spec {stable : SymbolTable} {umap : List (End × Nat)}
    {ufs : List (List End)} (hufs : ∀ ul ∈ ufs, ∀ e ∈ ul, Declared stable e)
    (hnumber : ∀ ul ∈ ufs, ∀ e ∈ ul, ∃ i, assoc e umap = .ok i) :
    ∃ res, getCollapsedTypes stable ufs umap = .ok res ∧ Collapsed stable ufs res := by
  have hall : ∀ (ufs done : List (List End)) res, Collapsed stable done res →
      (∀ ul ∈ ufs, ∀ e ∈ ul, Declared stable e) →
      (∀ ul ∈ ufs, ∀ e ∈ ul, ∃ i, assoc e umap = .ok i) →
      ∃ res', ufs.foldlM (collapseClass stable umap) res = .ok res' ∧
        Collapsed stable (ufs.reverse ++ done) res' := by
    intro ufs
    induction ufs with
    | nil => exact fun done res h _ _ => ⟨res, rfl, h⟩
    | cons ul ufs ih =>
        intro done res h hdecl hnumber
        rw [List.forall_mem_cons] at hdecl hnumber
        obtain ⟨res', hok, hres'⟩ := collapseClass_spec h hdecl.1 hnumber.1
        obtain ⟨last, hlast, hcollapsed⟩ := ih _ res' hres' hdecl.2 hnumber.2
        refine ⟨last, by rw [List.foldlM_cons, hok]; exact hlast, ?_⟩
        rw [List.reverse_cons, List.append_assoc]
        exact hcollapsed
  have hstart : Collapsed stable [] ([], [], []) := ⟨by simp, by simp, by simp⟩
  obtain ⟨res, hres, hfull, hnames, haliases⟩ := hall ufs [] _ hstart hufs hnumber
  exact ⟨res, hres, by simpa using hfull, by simpa using hnames, by simpa using haliases⟩

/-- An end that is no alias represents its class. -/
def Represents (aliases : List (End × End)) (e : End) : Prop :=
  ∀ h, (e, h) ∉ aliases

/-- A class is collapsed if and only if it has ends and all of them have the same parameters.  In
the other classes each end represents its class, or is an alias of an end of the class that does
and has the same parameters; two that represent a class have different parameters; and no alias
is in a collapsed class. -/
theorem getCollapsedTypes_faithful (stable : SymbolTable) (ufs : List (List End))
    (hdisjoint : ufs.Pairwise List.Disjoint) (hnodup : ∀ ul ∈ ufs, ul.Nodup)
    (hdeclared : ∀ ul ∈ ufs, ∀ e ∈ ul, Declared stable e) :
    ∃ fullCollapsed fullCollapsedNames aliases,
      getCollapsedTypes stable ufs (getUmap ufs) =
        .ok (fullCollapsed, fullCollapsedNames, aliases) ∧
      (∀ ul, (∃ i, (i, ul) ∈ fullCollapsed) ↔ ul ∈ ufs ∧ ul ≠ [] ∧ AllSame stable ul) ∧
      (∀ e, e ∈ fullCollapsedNames ↔ ∃ i ul, (i, ul) ∈ fullCollapsed ∧ e ∈ ul) ∧
      (∀ ul ∈ ufs, ¬ AllSame stable ul →
        (∀ e ∈ ul, Represents aliases e ∨
          ∃ h ∈ ul, (e, h) ∈ aliases ∧ Represents aliases h ∧
            declarationList stable e = declarationList stable h) ∧
        ∀ e ∈ ul, ∀ e' ∈ ul, Represents aliases e → Represents aliases e' →
          declarationList stable e = declarationList stable e' → e = e') ∧
      ∀ e h, (e, h) ∈ aliases → e ∉ fullCollapsedNames := by
  obtain ⟨⟨full, names, aliases⟩, hok, hfull, hnames, haliases⟩ :=
    getCollapsedTypes_spec hdeclared fun ul hul e he => assoc_getUmap_isOk hdisjoint hul he
  refine ⟨full, names, aliases, hok, hfull, ?_, ?_, ?_⟩
  · intro e
    rw [hnames]
    constructor
    · rintro ⟨ul, hul, hsame, he⟩
      obtain ⟨i, hi⟩ := (hfull ul).mpr ⟨hul, List.ne_nil_of_mem he, hsame⟩
      exact ⟨i, ul, hi, he⟩
    · rintro ⟨i, ul, hi, he⟩
      obtain ⟨hul, -, hsame⟩ := (hfull ul).mp ⟨i, hi⟩
      exact ⟨ul, hul, hsame, he⟩
  · intro ul hul hsame
    have hgroups := grouped_groups stable ul
    -- the ends of this class are aliases by its own groups only
    have halias : ∀ e ∈ ul, ∀ h, (e, h) ∈ aliases ↔ Follows (groups stable ul) e h := by
      intro e he h
      rw [haliases]
      constructor
      · rintro ⟨ul', hul', -, hfollows⟩
        have he' := (grouped_groups stable ul').mem_of_follows hfollows
        obtain rfl := Classes.eq_of_mem_of_mem hdisjoint hul hul' he he'
        exact hfollows
      · exact fun hfollows => ⟨ul, hul, hsame, hfollows⟩
    have hrepresents : ∀ e ∈ ul, Represents aliases e ↔ Leads (groups stable ul) e := by
      intro e he
      constructor
      · intro hrep
        refine (hgroups.leads_or_follows he).resolve_right fun ⟨h, hfollows⟩ => ?_
        exact hrep h ((halias e he h).mpr hfollows)
      · intro hleads h hmem
        exact hgroups.not_follows_of_leads (hnodup ul hul) hleads ((halias e he h).mp hmem)
    constructor
    · intro e he
      rcases hgroups.leads_or_follows he with hleads | ⟨h, hfollows⟩
      · exact Or.inl ((hrepresents e he).mpr hleads)
      · have hleads := Grouped.leads_of_follows hfollows
        have hh := hgroups.mem_of_leads hleads
        exact Or.inr ⟨h, hh, (halias e he h).mpr hfollows, (hrepresents h hh).mpr hleads,
          hgroups.key_eq_of_follows hfollows⟩
    · intro e he e' he' hrep hrep' hkey
      exact hgroups.eq_of_leads ((hrepresents e he).mp hrep) ((hrepresents e' he').mp hrep') hkey
  · intro e h heh hmem
    obtain ⟨ul, hul, hsame, hfollows⟩ := (haliases e h).mp heh
    obtain ⟨ul', hul', hsame', he'⟩ := (hnames e).mp hmem
    have he := (grouped_groups stable ul).mem_of_follows hfollows
    obtain rfl := Classes.eq_of_mem_of_mem hdisjoint hul hul' he he'
    exact hsame hsame'

/-- Three functions, two of them with the same parameters, and two more that agree. -/
def mixedTable : SymbolTable :=
  [{ nodename := "Show", nodefunction := "Show", inputs := [⟨"", "int", "x", noposition⟩] },
    { nodename := "Store", nodefunction := "Store", inputs := [⟨"", "int", "y", noposition⟩] },
    { nodename := "Log", nodefunction := "Log", inputs := [⟨"", "int", "x", noposition⟩] },
    { nodename := "Read", nodefunction := "Read", inputs := [⟨"", "bool", "b", noposition⟩] },
    { nodename := "Parse", nodefunction := "Parse",
      inputs := [⟨"", "bool", "b", noposition⟩] }].foldl SymbolTable.addNodeSymbol SortedMap.empty

/-- The class of the first three, and that of the other two. -/
def mixedClasses : List (List End) :=
  [[("Show", true), ("Store", true), ("Log", true)], [("Read", true), ("Parse", true)]]

/-- The second class is collapsed, with the names of its ends.  The first one is not: one of the
two functions with the same parameters is an alias there. -/
theorem getCollapsedTypes_faithful_mixedTable :
    ∃ full names aliases,
      getCollapsedTypes mixedTable mixedClasses (getUmap mixedClasses) =
        .ok (full, names, aliases) ∧
      (∀ i, (i, [("Show", true), ("Store", true), ("Log", true)]) ∉ full) ∧
      (∃ i, (i, [("Read", true), ("Parse", true)]) ∈ full) ∧ ("Read", true) ∈ names ∧
      ∃ e h, (e, h) ∈ aliases ∧ (e = ("Show", true) ∨ e = ("Log", true)) ∧ e ∉ names := by
  have hdeclared : ∀ ul ∈ mixedClasses, ∀ e ∈ ul, Declared mixedTable e := by
    intro ul hul e he
    rcases List.mem_pair.mp hul with rfl | rfl
    · simp only [List.mem_cons, List.not_mem_nil, or_false] at he
      rcases he with rfl | rfl | rfl
      · exact ⟨_, rfl⟩
      · exact ⟨_, rfl⟩
      · exact ⟨_, rfl⟩
    · rcases List.mem_pair.mp he with rfl | rfl
      · exact ⟨_, rfl⟩
      · exact ⟨_, rfl⟩
  obtain ⟨full, names, aliases, hok, hfull, hnames, hclasses, halias⟩ :=
    getCollapsedTypes_faithful mixedTable mixedClasses (by simp [mixedClasses]) (by decide)
      hdeclared
  have hmixed : ¬ AllSame mixedTable [("Show", true), ("Store", true), ("Log", true)] := by
    intro hsame
    exact absurd (hsame ("Show", true) (by simp) ("Store", true) (by simp)) (by decide)
  have hsame : AllSame mixedTable [("Read", true), ("Parse", true)] := by
    intro e he e' he'
    rcases List.mem_pair.mp he with rfl | rfl <;> rcases List.mem_pair.mp he' with rfl | rfl <;>
      decide
  obtain ⟨i, hi⟩ := (hfull [("Read", true), ("Parse", true)]).mpr ⟨by decide, by simp, hsame⟩
  refine ⟨full, names, aliases, hok, fun i hi => hmixed ((hfull _).mp ⟨i, hi⟩).2.2, ⟨i, hi⟩,
    (hnames _).mpr ⟨i, _, hi, by simp⟩, ?_⟩
  -- both of them cannot represent the class
  obtain ⟨hends, hdistinct⟩ := hclasses _ (by decide) hmixed
  rcases hends ("Show", true) (by simp) with hshow | ⟨h, -, hmem, -⟩
  · rcases hends ("Log", true) (by simp) with hlog | ⟨h, -, hmem, -⟩
    · have heq := hdistinct ("Show", true) (by simp) ("Log", true) (by simp) hshow hlog (by decide)
      exact absurd heq (by decide)
    · exact ⟨_, h, hmem, Or.inr rfl, halias _ _ hmem⟩
  · exact ⟨_, h, hmem, Or.inl rfl, halias _ _ hmem⟩

end TypeCheck
end Frontend
end OFlux
