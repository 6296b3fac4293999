import OFlux.Frontend.TypeCheck

/-!
# The classes of a unification list

The ends of all functions are sorted by their parameters, so that equal parameter lists
become neighbours, and the pairs of neighbours join those of the unification list.

Main results:

- Theorem {lit}`lookup_getUmap_eq_iff`: two ends have the same number if and only if they
  share a class.
- Theorem {lit}`linked_findPairs`: ends with the same parameters are linked by neighbours.
- Theorem {lit}`consequences_classes`: the classes are those of the generated equivalence.
-/

namespace OFlux
namespace Frontend
namespace TypeCheck

open Library

/-! ## Numbers -/

/-- The number of an end of one class. -/
theorem lookup_map_number (ul : List End) (i : Nat) (e : End) :
    (ul.map fun y => (y, i)).lookup e = if e ∈ ul then some i else none := by
  induction ul with
  | nil => rfl
  | cons y ul ih =>
      rw [List.map_cons, SortedMap.lookup_cons, ih]
      by_cases he : e = y
      · rw [if_pos he, if_pos (he ▸ List.mem_cons_self)]
      · rw [if_neg he]
        simp [he]

/-- One turn of the loop of {lit}`get_umap`. -/
def numberClass (res : List (End × Nat) × Nat) (ul : List End) : List (End × Nat) × Nat :=
  (ul.map (fun y => (y, res.2)) ++ res.1, res.2 + 1)

/-- Numbering other classes keeps the number of an end. -/
theorem lookup_numberClass_of_not_mem {res : List (End × Nat) × Nat} {ufs : List (List End)}
    {e : End} (h : ∀ c ∈ ufs, e ∉ c) :
    (ufs.foldl numberClass res).1.lookup e = res.1.lookup e := by
  induction ufs generalizing res with
  | nil => rfl
  | cons c ufs ih =>
      rw [List.forall_mem_cons] at h
      rw [List.foldl_cons, ih h.2, numberClass, List.lookup_append, lookup_map_number, if_neg h.1,
        Option.none_or]

/-- Disjoint classes are numbered in their order. -/
theorem lookup_numberClass {res : List (End × Nat) × Nat} {ufs : List (List End)}
    (hdisjoint : ufs.Pairwise List.Disjoint) {k : Nat} {c : List End} (hk : ufs[k]? = some c)
    {e : End} (he : e ∈ c) :
    (ufs.foldl numberClass res).1.lookup e = some (res.2 + k) := by
  induction ufs generalizing res k with
  | nil => simp at hk
  | cons d ufs ih =>
      obtain ⟨hd, hufs⟩ := List.pairwise_cons.mp hdisjoint
      rw [List.foldl_cons]
      cases k with
      | zero =>
          obtain rfl : d = c := by simpa using hk
          have hnot : ∀ c ∈ ufs, e ∉ c := fun c hc hec => hd c hc he hec
          rw [lookup_numberClass_of_not_mem hnot, numberClass, List.lookup_append,
            lookup_map_number, if_pos he, Option.some_or, Nat.add_zero]
      | succ k =>
          rw [List.getElem?_cons_succ] at hk
          rw [ih hufs hk, numberClass]
          congr 1
          omega

/-- The number of a class is its position in the list. -/
theorem lookup_getUmap {ufs : List (List End)} (hdisjoint : ufs.Pairwise List.Disjoint) {k : Nat}
    {c : List End} (hk : ufs[k]? = some c) {e : End} (he : e ∈ c) :
    (getUmap ufs).lookup e = some (1 + k) :=
  lookup_numberClass hdisjoint hk he

/-- Two ends have the same number if and only if they share a class. -/
theorem lookup_getUmap_eq_iff {ufs : List (List End)} (hdisjoint : ufs.Pairwise List.Disjoint)
    {e₁ e₂ : End} (h₁ : ∃ c ∈ ufs, e₁ ∈ c) (h₂ : ∃ c ∈ ufs, e₂ ∈ c) :
    (getUmap ufs).lookup e₁ = (getUmap ufs).lookup e₂ ↔ Classes.SameClass ufs e₁ e₂ := by
  obtain ⟨c₁, hc₁, he₁⟩ := h₁
  obtain ⟨c₂, hc₂, he₂⟩ := h₂
  obtain ⟨i, hi⟩ := List.mem_iff_getElem?.mp hc₁
  obtain ⟨j, hj⟩ := List.mem_iff_getElem?.mp hc₂
  rw [lookup_getUmap hdisjoint hi he₁, lookup_getUmap hdisjoint hj he₂]
  constructor
  · intro heq
    obtain rfl : i = j := by simpa using heq
    rw [hi, Option.some.injEq] at hj
    exact ⟨c₁, hc₁, he₁, hj ▸ he₂⟩
  · rintro ⟨c, hc, hce₁, hce₂⟩
    obtain rfl := Classes.eq_of_mem_of_mem hdisjoint hc hc₁ hce₁ he₁
    obtain rfl := Classes.eq_of_mem_of_mem hdisjoint hc hc₂ hce₂ he₂
    rw [← lookup_getUmap hdisjoint hi he₁, lookup_getUmap hdisjoint hj he₁]

/-! ## The order by structure -/

/-- The comparison is that of a linear order: by length, then element by element. -/
def structureKey (dfs : List StrippedDf) : ℕ ×ₗ List StrippedDf :=
  toLex (dfs.length, dfs)

/-- The key of a structure keeps its fields. -/
theorem structureKey_injective {dfs1 dfs2 : List StrippedDf}
    (h : structureKey dfs1 = structureKey dfs2) : dfs1 = dfs2 :=
  congrArg (fun key => (ofLex key).2) h

/-- Structures of one length are compared field by field. -/
theorem compareZipped_ne_gt_iff {dfs1 dfs2 : List StrippedDf}
    (h : dfs1.length = dfs2.length) :
    compareZipped (dfs1.zip dfs2) ≠ .gt ↔ dfs1 ≤ dfs2 := by
  induction dfs1 generalizing dfs2 with
  | nil =>
      obtain rfl := List.eq_nil_of_length_eq_zero h.symm
      exact iff_of_true (by simp [compareZipped]) le_rfl
  | cons a dfs1 ih =>
      cases dfs2 with
      | nil => cases h
      | cons b dfs2 =>
          have hcons : a :: dfs1 ≤ b :: dfs2 ↔ a < b ∨ a = b ∧ dfs1 ≤ dfs2 := by
            rw [le_iff_lt_or_eq, List.cons_lt_cons_iff, le_iff_lt_or_eq, List.cons.injEq, or_assoc,
              and_or_left]
          rw [List.zip_cons_cons, compareZipped, hcons]
          split
          next heq =>
            obtain rfl := compare_eq_iff_eq.mp heq
            rw [ih (Nat.succ.inj h)]
            simp
          next hne =>
            rw [← compare_lt_iff_lt]
            have hnot : a ≠ b := fun hab => hne (compare_eq_iff_eq.mpr hab)
            cases hr : compare a b with
            | lt => simp
            | eq => exact absurd hr hne
            | gt => simp [hnot]

/-- The comparison is the order of the keys. -/
theorem compareStrippedDfs_ne_gt_iff {dfs1 dfs2 : List StrippedDf} :
    compareStrippedDfs dfs1 dfs2 ≠ .gt ↔ structureKey dfs1 ≤ structureKey dfs2 := by
  unfold compareStrippedDfs structureKey
  rw [Prod.Lex.toLex_le_toLex]
  split
  next heq => simp [compareZipped_ne_gt_iff heq, heq]
  next hne =>
    split
    next hlt => simp [hlt]
    next hge => simp [hge, hne]

/-- Structures of one length compare equal when they are the same. -/
theorem compareZipped_eq_iff {dfs1 dfs2 : List StrippedDf} (h : dfs1.length = dfs2.length) :
    compareZipped (dfs1.zip dfs2) = .eq ↔ dfs1 = dfs2 := by
  induction dfs1 generalizing dfs2 with
  | nil =>
      obtain rfl := List.eq_nil_of_length_eq_zero h.symm
      exact iff_of_true rfl rfl
  | cons a dfs1 ih =>
      cases dfs2 with
      | nil => cases h
      | cons b dfs2 =>
          rw [List.zip_cons_cons, compareZipped, List.cons.injEq]
          split
          next heq => rw [ih (Nat.succ.inj h), compare_eq_iff_eq.mp heq, eq_self, true_and]
          next hne =>
            have hnot : a ≠ b := fun hab => hne (compare_eq_iff_eq.mpr hab)
            exact iff_of_false hne fun hab => hnot hab.1

/-- Structures compare equal when they are the same. -/
theorem compareStrippedDfs_eq_iff {dfs1 dfs2 : List StrippedDf} :
    compareStrippedDfs dfs1 dfs2 = .eq ↔ dfs1 = dfs2 := by
  unfold compareStrippedDfs
  split
  next heq => exact compareZipped_eq_iff heq
  next hne =>
    have hnot : dfs1 ≠ dfs2 := fun heq => hne (congrArg List.length heq)
    split <;> simp [hnot]

/-- The ends are in the order of their structures. -/
theorem sortByStructure_sorted (l : List (End × List StrippedDf)) :
    (sortByStructure l).Pairwise fun a b => structureKey a.2 ≤ structureKey b.2 := by
  have htotal : Std.Total fun a b : End × List StrippedDf => compareStrippedDfs a.2 b.2 ≠ .gt :=
    ⟨fun a b => by
      rw [compareStrippedDfs_ne_gt_iff, compareStrippedDfs_ne_gt_iff]
      exact le_total _ _⟩
  have htrans : IsTrans (End × List StrippedDf) fun a b => compareStrippedDfs a.2 b.2 ≠ .gt :=
    ⟨fun a b c hab hbc => by
      rw [compareStrippedDfs_ne_gt_iff] at *
      exact hab.trans hbc⟩
  exact (List.pairwise_insertionSort _ l).imp compareStrippedDfs_ne_gt_iff.mp

/-! ## Pairs of neighbours -/

/-- Paired ends have one structure. -/
theorem mem_findPairs {l : List (End × List StrippedDf)} {p : End × End} (h : p ∈ findPairs l) :
    ∃ a ∈ l, ∃ b ∈ l, a.1 = p.1 ∧ b.1 = p.2 ∧ a.2 = b.2 := by
  induction l with
  | nil => cases h
  | cons a l ih =>
      cases l with
      | nil => cases h
      | cons b t =>
          have hrest : p ∈ findPairs (b :: t) →
              ∃ c ∈ a :: b :: t, ∃ d ∈ a :: b :: t, c.1 = p.1 ∧ d.1 = p.2 ∧ c.2 = d.2 := by
            intro hp
            obtain ⟨c, hc, d, hd, heq⟩ := ih hp
            exact ⟨c, List.mem_cons_of_mem _ hc, d, List.mem_cons_of_mem _ hd, heq⟩
          rw [findPairs] at h
          split at h
          next heq =>
            rcases List.mem_cons.mp h with rfl | h
            · exact ⟨a, List.mem_cons_self, b, by simp, rfl, rfl, compareStrippedDfs_eq_iff.mp heq⟩
            · exact hrest h
          next => exact hrest h

theorem findPairs_subset_cons (a : End × List StrippedDf) (l : List (End × List StrippedDf)) :
    ∀ p ∈ findPairs l, p ∈ findPairs (a :: l) := by
  intro p hp
  cases l with
  | nil => cases hp
  | cons b t =>
      rw [findPairs]
      split
      · exact List.mem_cons_of_mem _ hp
      · exact hp

/-- Ends with the same parameters are linked by neighbours. -/
theorem linked_findPairs {l : List (End × List StrippedDf)}
    (hsorted : l.Pairwise fun a b => structureKey a.2 ≤ structureKey b.2)
    {a b : End × List StrippedDf} (ha : a ∈ l) (hb : b ∈ l) (heq : a.2 = b.2) :
    Classes.Linked (findPairs l) a.1 b.1 := by
  induction l generalizing a b with
  | nil => cases ha
  | cons x l ih =>
      obtain ⟨hx, hl⟩ := List.pairwise_cons.mp hsorted
      have hmono : ∀ {e₁ e₂}, Classes.Linked (findPairs l) e₁ e₂ →
          Classes.Linked (findPairs (x :: l)) e₁ e₂ :=
        Classes.Linked.mono (findPairs_subset_cons x l)
      -- the first end is linked to its neighbour, which lies between it and the other end
      have hfirst : ∀ c ∈ l, x.2 = c.2 → Classes.Linked (findPairs (x :: l)) x.1 c.1 := by
        intro c hc hxc
        cases l with
        | nil => cases hc
        | cons y t =>
            have hyc : structureKey y.2 ≤ structureKey c.2 := by
              rcases List.mem_cons.mp hc with rfl | hc
              · exact le_rfl
              · exact List.rel_of_pairwise_cons hl hc
            have hxy : x.2 = y.2 :=
              structureKey_injective (le_antisymm (hx y List.mem_cons_self) (hxc ▸ hyc))
            have hpair : (x.1, y.1) ∈ findPairs (x :: y :: t) := by
              rw [findPairs, if_pos (compareStrippedDfs_eq_iff.mpr hxy)]
              exact List.mem_cons_self
            exact Relation.EqvGen.trans _ _ _ (Relation.EqvGen.rel _ _ hpair)
              (hmono (ih hl List.mem_cons_self hc (hxy.symm.trans hxc)))
      rcases List.mem_cons.mp ha with rfl | ha'
      · rcases List.mem_cons.mp hb with rfl | hb'
        · exact Relation.EqvGen.refl _
        · exact hfirst b hb' heq
      · rcases List.mem_cons.mp hb with rfl | hb'
        · exact Relation.EqvGen.symm _ _ (hfirst a ha' heq.symm)
        · exact hmono (ih hl ha' hb' heq)

/-! ## Ends of functions -/

/-- A function that some node of the table has, with the parameters at one end of it. -/
def HasParameters (stable : SymbolTable) (e : End) (dfs : List StrippedDf) : Prop :=
  ∃ n nd decls, stable.find n = some (.node nd) ∧ nd.functionname = e.1 ∧
    (if e.2 then some nd.nodeinputs else nd.nodeoutputs) = some decls ∧ decls.map stripDf = dfs

/-- The end is one of a function that the table knows. -/
def FunctionEnd (stable : SymbolTable) (e : End) : Prop :=
  ∃ dfs, HasParameters stable e dfs

/-- The ends that one node adds. -/
theorem mem_extractNodeFold {n : String} {nd : NodeData} {ll : List (End × List StrippedDf)}
    {x : End × List StrippedDf} :
    x ∈ extractNodeFold n nd ll ↔ x ∈ ll ∨ ∃ decls, nd.functionname = x.1.1 ∧
      (if x.1.2 then some nd.nodeinputs else nd.nodeoutputs) = some decls ∧
        decls.map stripDf = x.2 := by
  obtain ⟨⟨f, isin⟩, dfs⟩ := x
  unfold extractNodeFold
  cases isin <;> cases hout : nd.nodeoutputs <;> simp [Prod.ext_iff] <;> grind

/-- The ends extracted are those with parameters. -/
theorem mem_foldNodes_extract {stable : SymbolTable} {x : End × List StrippedDf} :
    x ∈ stable.foldNodes extractNodeFold [] ↔ HasParameters stable x.1 x.2 := by
  rw [SymbolTable.mem_foldNodes (f := extractNodeFold) fun _ _ _ _ => mem_extractNodeFold]
  simp only [HasParameters, List.not_mem_nil, false_or, exists_and_left]

/-! ## The generated equivalence -/

/-- What unites two ends: a pair of the unification list, read as functions, or the same
parameters. -/
def Associated (ulist : UnificationResult) (stable : SymbolTable) (e₁ e₂ : End) : Prop :=
  (∃ p ∈ ulist, toFunc stable p.1 = e₁ ∧ toFunc stable p.2 = e₂) ∨
    ∃ dfs, HasParameters stable e₁ dfs ∧ HasParameters stable e₂ dfs

/-- The pairs that the classes are made from. -/
def allPairs (ulist : UnificationResult) (stable : SymbolTable) : UnificationResult :=
  translateNodeToFunction stable ulist ++
    findPairs (sortByStructure (stable.foldNodes extractNodeFold []))

/-- Unified nodes become unified functions. -/
theorem mem_translateNodeToFunction {ulist : UnificationResult} {stable : SymbolTable}
    {e₁ e₂ : End} : (e₁, e₂) ∈ translateNodeToFunction stable ulist ↔
      ∃ p ∈ ulist, toFunc stable p.1 = e₁ ∧ toFunc stable p.2 = e₂ := by
  simp [translateNodeToFunction]

/-- The pairs link exactly the associated ends. -/
theorem linked_allPairs_iff {ulist : UnificationResult} {stable : SymbolTable} {e₁ e₂ : End} :
    Classes.Linked (allPairs ulist stable) e₁ e₂ ↔
      Relation.EqvGen (Associated ulist stable) e₁ e₂ := by
  have hmem : ∀ {x}, x ∈ sortByStructure (stable.foldNodes extractNodeFold []) ↔
      HasParameters stable x.1 x.2 := by
    intro x
    rw [sortByStructure, List.mem_insertionSort, ← mem_foldNodes_extract]
  constructor
  · refine Relation.EqvGen.mono (fun e₁ e₂ h => ?_) e₁ e₂
    rcases List.mem_append.mp h with h | h
    · exact Or.inl (mem_translateNodeToFunction.mp h)
    · obtain ⟨a, ha, b, hb, rfl, rfl, heq⟩ := mem_findPairs h
      exact Or.inr ⟨a.2, hmem.mp ha, heq ▸ hmem.mp hb⟩
  · intro h
    induction h with
    | rel e₁ e₂ h =>
        rcases h with h | ⟨dfs, h₁, h₂⟩
        · exact Relation.EqvGen.rel _ _
            (List.mem_append_left _ (mem_translateNodeToFunction.mpr h))
        · refine Classes.Linked.mono (fun p hp => List.mem_append_right _ hp) ?_
          exact linked_findPairs (a := (e₁, dfs)) (b := (e₂, dfs)) (sortByStructure_sorted _)
            (hmem.mpr h₁) (hmem.mpr h₂) rfl
    | refl e => exact Relation.EqvGen.refl e
    | symm _ _ _ ih => exact ih.symm
    | trans _ _ _ _ _ ih₁ ih₂ => exact ih₁.trans _ _ _ ih₂

/-- Dropping repetitions loses no end. -/
theorem mem_uniq {ll ul : List End} {e : End} : e ∈ uniq ll ul ↔ e ∈ ll ∨ e ∈ ul := by
  induction ul generalizing ll with
  | nil => simp [uniq]
  | cons h ul ih =>
      rw [uniq]
      split
      next hmem =>
        rw [ih, List.mem_cons]
        exact or_congr_right' fun hnot =>
          ⟨Or.inr, fun he => he.resolve_left fun heq => hnot (heq ▸ hmem)⟩
      next => rw [ih, List.mem_cons, List.mem_cons, or_assoc, or_left_comm]

/-- Nothing is repeated. -/
theorem nodup_uniq {ll ul : List End} (h : ll.Nodup) : (uniq ll ul).Nodup := by
  induction ul generalizing ll with
  | nil => exact h
  | cons x ul ih =>
      rw [uniq]
      split
      next => exact ih h
      next hnot => exact ih (List.nodup_cons.mpr ⟨hnot, h⟩)

/-- The classes are those that the pairs generate. -/
theorem equivalenceClasses_spec (ulist : UnificationResult) (stable : SymbolTable) :
    ∃ classes, equivalenceClasses ulist stable = .ok classes ∧
      Classes.Generated (allPairs ulist stable) classes ∧ ∀ c ∈ classes, c.Nodup := by
  obtain ⟨ufs, hufs, hgen⟩ := UnionFind.unionFind_spec (allPairs ulist stable)
  refine ⟨unionFindUniq ufs, ?_, hgen.map fun c x => ?_, fun c hc => ?_⟩
  · simp only [equivalenceClasses]
    rw [← allPairs, hufs]
    rfl
  · rw [mem_uniq, or_iff_right List.not_mem_nil]
  · obtain ⟨d, -, rfl⟩ := List.mem_map.mp hc
    exact nodup_uniq List.nodup_nil

/-- The classes and their numbers in the result. -/
theorem finishConsequences_eq_ok {stable : SymbolTable} {ufs : List (List End)}
    {r : ConsequenceResult} (h : finishConsequences stable ufs = .ok r) :
    r.equivClasses = ufs ∧ r.unionMap = getUmap ufs := by
  unfold finishConsequences at h
  cases hcollapsed : getCollapsedTypes stable ufs (getUmap ufs) with
  | error err => simp [hcollapsed, bind, Except.bind] at h
  | ok res =>
      cases hsubset : getSubsetOrder stable res.1 with
      | error err => simp [hcollapsed, hsubset, bind, Except.bind] at h
      | ok order =>
          simp only [hcollapsed, hsubset, bind, Except.bind, pure, Except.pure,
            Except.ok.injEq] at h
          exact h ▸ ⟨rfl, rfl⟩

/-- A unification list with a reflexive pair for each end of each node. -/
def Reflexive (stable : SymbolTable) (ulist : UnificationResult) : Prop :=
  ∀ n nd, stable.find n = some (.node nd) → ((n, true), (n, true)) ∈ ulist ∧
    (nd.nodeoutputs ≠ none → ((n, false), (n, false)) ∈ ulist)

/-- The end of a function is unified with itself. -/
theorem FunctionEnd.mem_translate {stable : SymbolTable} {ulist : UnificationResult}
    (hrefl : Reflexive stable ulist) {e : End} (he : FunctionEnd stable e) :
    (e, e) ∈ translateNodeToFunction stable ulist := by
  obtain ⟨dfs, n, nd, decls, hfind, hfunction, hdecls, -⟩ := he
  obtain ⟨f, isin⟩ := e
  have hfunc : ∀ isin, toFunc stable (n, isin) = (f, isin) := by
    intro isin
    simp only [toFunc, SymbolTable.lookupNodeSymbol, hfind]
    exact Prod.ext hfunction rfl
  obtain ⟨hin, hout⟩ := hrefl n nd hfind
  cases isin with
  | true => exact mem_translateNodeToFunction.mpr ⟨_, hin, hfunc true, hfunc true⟩
  | false =>
      have hnode : nd.nodeoutputs ≠ none := by
        intro hnone
        simp [hnone] at hdecls
      exact mem_translateNodeToFunction.mpr ⟨_, hout hnode, hfunc false, hfunc false⟩

/-- The pairs that {lit}`from_basic_nodes` adds for the ends of the nodes. -/
theorem reflexive_append_fromBasicNodes (stable : SymbolTable) (unified : UnificationResult)
    (sinks sources : List String) :
    Reflexive stable (unified ++ fromBasicNodes stable sinks sources) := by
  have hmem : ∀ {p l}, p ∈ stable.foldNodes (fun n nd ul =>
      if nd.nodeoutputs = none then ((n, true), (n, true)) :: ul
      else ((n, true), (n, true)) :: ((n, false), (n, false)) :: ul) l ↔ p ∈ l ∨
      ∃ n nd, stable.find n = some (.node nd) ∧ (p = ((n, true), (n, true)) ∨
        nd.nodeoutputs ≠ none ∧ p = ((n, false), (n, false))) := by
    intro p l
    refine SymbolTable.mem_foldNodes (P := fun n nd p => p = ((n, true), (n, true)) ∨
      nd.nodeoutputs ≠ none ∧ p = ((n, false), (n, false))) fun n nd ul x => ?_
    by_cases h : nd.nodeoutputs = none
    · simp [h, or_comm]
    · simp only [h, if_false, List.mem_cons, ne_eq, not_false_eq_true, true_and]
      rw [← or_assoc, or_comm]
  intro n nd hfind
  constructor
  · exact List.mem_append_right _ (hmem.mpr (Or.inr ⟨n, nd, hfind, Or.inl rfl⟩))
  · exact fun hout => List.mem_append_right _
      (hmem.mpr (Or.inr ⟨n, nd, hfind, Or.inr ⟨hout, rfl⟩⟩))

/-- The classes are those of the generated equivalence, and their numbers tell them apart. -/
theorem consequences_classes (stable : SymbolTable) (ulist : UnificationResult)
    (hrefl : Reflexive stable ulist) :
    ∃ classes, equivalenceClasses ulist stable = .ok classes ∧
      classes.Pairwise List.Disjoint ∧ (∀ c ∈ classes, c.Nodup) ∧
      (∀ e, FunctionEnd stable e → ∃ c ∈ classes, e ∈ c) ∧
      (∀ e₁ e₂, FunctionEnd stable e₁ → FunctionEnd stable e₂ →
        ((∃ c ∈ classes, e₁ ∈ c ∧ e₂ ∈ c) ↔
          Relation.EqvGen (Associated ulist stable) e₁ e₂)) ∧
      (∀ e₁ e₂, FunctionEnd stable e₁ → FunctionEnd stable e₂ →
        ((getUmap classes).lookup e₁ = (getUmap classes).lookup e₂ ↔
          ∃ c ∈ classes, e₁ ∈ c ∧ e₂ ∈ c)) ∧
      consequences ulist stable = finishConsequences stable classes ∧
      ∀ r, consequences ulist stable = .ok r →
        r.equivClasses = classes ∧ r.unionMap = getUmap classes := by
  obtain ⟨classes, hclasses, hgen, hnodup⟩ := equivalenceClasses_spec ulist stable
  have hcover : ∀ e, FunctionEnd stable e → Classes.SameClass classes e e := fun e he =>
    hgen.covers e e (List.mem_append_left _ (he.mem_translate hrefl))
  have hin : ∀ e, FunctionEnd stable e → ∃ c ∈ classes, e ∈ c := fun e he =>
    (hcover e he).imp fun c hc => ⟨hc.1, hc.2.1⟩
  have hfinish : consequences ulist stable = finishConsequences stable classes := by
    rw [consequences, hclasses]
    rfl
  refine ⟨classes, hclasses, hgen.separated.disjoint, hnodup, hin, fun e₁ e₂ h₁ _ => ?_,
    fun e₁ e₂ h₁ h₂ => ?_, hfinish, fun r hr => ?_⟩
  · rw [← linked_allPairs_iff]
    exact hgen.sameClass_iff (hcover e₁ h₁)
  · exact lookup_getUmap_eq_iff hgen.separated.disjoint (hin e₁ h₁) (hin e₂ h₂)
  · exact finishConsequences_eq_ok (hfinish ▸ hr)

/-- Two nodes with the same parameter. -/
def twinTable : SymbolTable :=
  [{ nodename := "Show", nodefunction := "Show", inputs := [⟨"", "int", "x", noposition⟩] },
    { nodename := "Store", nodefunction := "Store",
      inputs := [⟨"", "int", "x", noposition⟩] }].foldl SymbolTable.addNodeSymbol SortedMap.empty

/-- Their inputs get one structure, although no pair unifies them. -/
theorem consequences_classes_twinTable :
    ∃ classes, equivalenceClasses (fromBasicNodes twinTable [] []) twinTable = .ok classes ∧
      ∃ c ∈ classes, ("Show", true) ∈ c ∧ ("Store", true) ∈ c := by
  have hshow : HasParameters twinTable ("Show", true) [stripDf ⟨"", "int", "x", noposition⟩] :=
    ⟨"Show", _, _, rfl, rfl, rfl, rfl⟩
  have hstore : HasParameters twinTable ("Store", true) [stripDf ⟨"", "int", "x", noposition⟩] :=
    ⟨"Store", _, _, rfl, rfl, rfl, rfl⟩
  obtain ⟨classes, hclasses, -, -, -, hiff, -⟩ :=
    consequences_classes twinTable (fromBasicNodes twinTable [] [])
      (reflexive_append_fromBasicNodes twinTable [] [] [])
  exact ⟨classes, hclasses, (hiff _ _ ⟨_, hshow⟩ ⟨_, hstore⟩).mpr
    (Relation.EqvGen.rel _ _ (Or.inr ⟨_, hshow, hstore⟩))⟩

end TypeCheck
end Frontend
end OFlux
