import OFlux.Compiler.PluginDiff
import OFlux.Library.Fallible
import Mathlib.Data.List.Perm.Basic

/-!
# The difference decides equality

Two trees are compared up to the order of the children below the tags that are not ordered.  The
difference sorts such children by tags and attributes only, and pairs them by their positions; it
finds the children that belong together when their tags and attributes are distinct.

Main results:

- Theorem {lit}`sameUpTo_of_diffPair`: without a difference the trees agree.
- Theorem {lit}`diffPair_of_sameUpTo`: trees that agree have no difference.
- Theorem {lit}`diff_decides`: the difference is the marker if and only if the trees agree.
- Theorem {lit}`sameUpTo_of_simpleDiff`: what is left out of a plugin has not changed.
-/

namespace OFlux
namespace Compiler
namespace Xml

open Library Fallible

/-- Trees that agree up to the order of the children below the tags that are not ordered. -/
inductive SameUpTo (orderedTags : List String) : Xml → Xml → Prop where
  | element {t : String} {a : List (String × String)} {c l c' : List Xml} :
      l.Perm c → (t ∈ orderedTags → l = c) → List.Forall₂ (SameUpTo orderedTags) l c' →
      SameUpTo orderedTags (element t a c) (element t a c')

/-- No element with a tag that is not ordered has two children with the same tag and
attributes. -/
inductive DistinctChildren (orderedTags : List String) : Xml → Prop where
  | element {t : String} {a : List (String × String)} {c : List Xml} :
      (t ∉ orderedTags →
        c.Pairwise fun x y => ¬ (x.tag = y.tag ∧ x.attributes = y.attributes)) →
      (∀ x ∈ c, DistinctChildren orderedTags x) → DistinctChildren orderedTags (element t a c)

/-! ## Keys -/

/-- Attributes written one after another can be told apart. -/
theorem flatMap_pair_injective :
    Function.Injective fun a : List (String × String) =>
      a.flatMap fun (name, value) => [name, value] := by
  intro a a' h
  induction a generalizing a' with
  | nil =>
      cases a' with
      | nil => rfl
      | cons p a' => cases h
  | cons p a ih =>
      cases a' with
      | nil => cases h
      | cons p' a' =>
          simp only [List.flatMap_cons, List.cons_append, List.nil_append, List.cons.injEq] at h
          rw [Prod.ext h.1 h.2.1, ih h.2.2]

/-- The key of an element is its tag and its attributes. -/
theorem compareKey_eq_iff {x y : Xml} :
    x.compareKey = y.compareKey ↔ x.tag = y.tag ∧ x.attributes = y.attributes := by
  unfold compareKey
  rw [List.cons.injEq]
  exact and_congr_right fun _ => flatMap_pair_injective.eq_iff

theorem SameUpTo.compareKey_eq {orderedTags : List String} {x y : Xml}
    (h : SameUpTo orderedTags x y) : x.compareKey = y.compareKey := by
  cases h
  rfl

/-- Sorted elements are in the order of their keys. -/
theorem sort_pairwise (l : List Xml) :
    (sort l).Pairwise fun x y => x.compareKey ≤ y.compareKey :=
  List.pairwise_insertionSort (fun x y : Xml => x.compareKey ≤ y.compareKey) l

theorem map_compareKey_eq {R : Xml → Xml → Prop}
    (hR : ∀ x y, R x y → x.compareKey = y.compareKey) {l m : List Xml}
    (h : List.Forall₂ R l m) : m.map compareKey = l.map compareKey := by
  induction h with
  | nil => rfl
  | cons hxy _ ih => rw [List.map_cons, List.map_cons, hR _ _ hxy, ih]

/-- Sorting brings the children together that belong together, when their keys are distinct. -/
theorem forall₂_sort {R : Xml → Xml → Prop} (hR : ∀ x y, R x y → x.compareKey = y.compareKey)
    {l c c' : List Xml} (hl : l.Perm c) (h : List.Forall₂ R l c')
    (hdistinct : c.Pairwise fun x y => ¬ (x.tag = y.tag ∧ x.attributes = y.attributes)) :
    List.Forall₂ R (sort c) (sort c') := by
  obtain ⟨m, hm, hperm⟩ := List.perm_comp_forall₂ ((sort_perm c).trans hl.symm) h
  have hkeys := map_compareKey_eq hR hm
  have hnodup : (m.map compareKey).Nodup := by
    rw [hkeys, ((sort_perm c).map compareKey).nodup_iff, List.Nodup, List.pairwise_map]
    exact hdistinct.imp fun hne heq => hne (compareKey_eq_iff.mp heq)
  have hsorted : m.Pairwise fun x y => x.compareKey ≤ y.compareKey := by
    rw [← List.pairwise_map (f := compareKey) (R := (· ≤ ·)), hkeys, List.pairwise_map]
    exact sort_pairwise c
  have heq : m = sort c' := by
    refine List.Perm.eq_of_pairwise ?_ hsorted (sort_pairwise c')
      (hperm.trans (sort_perm c').symm)
    intro x y hx hy hxy hyx
    have hy' : y ∈ m := hperm.mem_iff.mpr ((sort_perm c').mem_iff.mp hy)
    exact List.inj_on_of_nodup_map hnodup hx hy' (le_antisymm hxy hyx)
  exact heq ▸ hm

/-! ## No difference -/

section

variable {orderedTags : List String} {diffHandler : Xml → Xml → Except XMLConversion Xml}
  {sameHandler : Xml → Xml}

/-- An element is the same when all its parts are. -/
theorem combine_fst_eq_false_iff {x : Xml} {resl : List (Bool × Xml)} :
    (combine sameHandler x resl).1 = false ↔ ∀ r ∈ resl, r.1 = false := by
  unfold combine
  split
  next h =>
    obtain ⟨r, hr, hdiff⟩ := List.any_eq_true.mp h
    exact ⟨fun hfalse => absurd hfalse Bool.noConfusion,
      fun hall => absurd (hdiff.symm.trans (hall r hr)) Bool.noConfusion⟩
  next h => simpa using h

/-- Children that agree in the order in which they are compared agree up to the order. -/
theorem sameUpTo_element {t : String} {a : List (String × String)} {c c' : List Xml}
    (h : List.Forall₂ (SameUpTo orderedTags) (sortOpt orderedTags t c)
      (sortOpt orderedTags t c')) :
    SameUpTo orderedTags (element t a c) (element t a c') := by
  by_cases ht : t ∈ orderedTags
  · have hsort : ∀ l, sortOpt orderedTags t l = l := fun l => if_pos ht
    rw [hsort, hsort] at h
    exact .element (List.Perm.refl c) (fun _ => rfl) h
  · have hcomp : Relation.Comp (List.Forall₂ (SameUpTo orderedTags)) List.Perm
        (sortOpt orderedTags t c) c' := ⟨_, h, sortOpt_perm orderedTags t c'⟩
    rw [List.forall₂_comp_perm_eq_perm_comp_forall₂] at hcomp
    obtain ⟨l, hl, hpairs⟩ := hcomp
    exact .element (hl.symm.trans (sortOpt_perm orderedTags t c)) (fun h => absurd h ht) hpairs

/-- What passes from the children to an element holds for all elements. -/
theorem contents_induction {P : Xml → Prop} (hstep : ∀ x, (∀ y ∈ x.contents, P y) → P x) :
    (x : Xml) → P x
  | element t a c => hstep (element t a c) fun y hy =>
      have hlt : sizeOf y < sizeOf (element t a c) :=
        Nat.lt_of_lt_of_le (List.sizeOf_lt_of_mem hy) (by simp)
      contents_induction hstep y
termination_by x => sizeOf x
decreasing_by exact hlt

/-- Without a difference the trees agree. -/
theorem sameUpTo_of_diffPair {x y r : Xml}
    (h : diffPair orderedTags diffHandler sameHandler x y = .ok (false, r)) :
    SameUpTo orderedTags x y := by
  induction x using contents_induction generalizing y r with
  | hstep x ih =>
    rcases diffPair_eq_ok h with
      ⟨htag, hattributes, hlength, resl, hresl, hcombine⟩ | ⟨-, res, -, hr⟩
    · obtain ⟨t, a, c⟩ := x
      obtain ⟨t', a', c'⟩ := y
      obtain rfl : t = t' := htag
      obtain rfl : a = a' := hattributes
      have hall : ∀ r ∈ resl, r.1 = false :=
        combine_fst_eq_false_iff.mp (congrArg Prod.fst hcombine).symm
      refine sameUpTo_element (List.forall₂_iff_zip.mpr ⟨?_, fun {x' y'} hzip => ?_⟩)
      · rw [(sortOpt_perm orderedTags t c).length_eq, (sortOpt_perm orderedTags t c').length_eq]
        exact hlength
      · obtain ⟨r', hr', hpair⟩ := exists_of_mem_right hresl.flip hzip
        have hmem := (sortOpt_perm orderedTags t c).mem_iff.mp (List.of_mem_zip hzip).1
        have hsame : diffPair orderedTags diffHandler sameHandler x' y' = .ok (false, r'.2) := by
          rw [← hall r' hr']
          exact hpair
        exact ih x' hmem hsame
    · cases hr

/-- A relation on related pairs is one on the first list. -/
theorem forall₂_zip_map {α β γ : Type} {R : α → β → Prop} {S : α × β → γ → Prop} {f : α → γ}
    {l : List α} {l' : List β} (h : List.Forall₂ R l l')
    (hS : ∀ x ∈ l, ∀ y, R x y → S (x, y) (f x)) : List.Forall₂ S (l.zip l') (l.map f) := by
  induction h with
  | nil => exact List.Forall₂.nil
  | cons hxy _ ih =>
      rw [List.forall_mem_cons] at hS
      exact List.Forall₂.cons (hS.1 _ hxy) (ih hS.2)

/-- Trees that agree have no difference. -/
theorem diffPair_of_sameUpTo {x : Xml} (hx : DistinctChildren orderedTags x) {y : Xml}
    (h : SameUpTo orderedTags x y) :
    diffPair orderedTags diffHandler sameHandler x y = .ok (false, x) := by
  induction hx generalizing y with
  | @element t a c hdistinct _ ih =>
    cases h with
    | @element _ _ _ l c' hl hordered hpairs =>
      have hlength : c.length = c'.length := hl.length_eq.symm.trans hpairs.length_eq
      have hsorted : List.Forall₂ (SameUpTo orderedTags) (sortOpt orderedTags t c)
          (sortOpt orderedTags t c') := by
        unfold sortOpt
        split
        next ht => exact hordered ht ▸ hpairs
        next ht => exact forall₂_sort (fun _ _ hxy => hxy.compareKey_eq) hl hpairs (hdistinct ht)
      have hchildren : ((sortOpt orderedTags t c).zip (sortOpt orderedTags t c')).mapM
          (fun p => diffPair orderedTags diffHandler sameHandler p.1 p.2) =
            .ok ((sortOpt orderedTags t c).map fun z => (false, z)) := by
        refine mapM_eq_ok_iff.mpr (forall₂_zip_map hsorted fun z hz z' hzz' => ?_)
        exact ih z ((sortOpt_perm orderedTags t c).mem_iff.mp hz) hzz'
      rw [diffPair_element, if_pos ⟨rfl, rfl, hlength⟩, hchildren]
      change Except.ok (combine sameHandler (element t a c) _) = _
      rw [combine, if_neg (by simp)]

/-- What is written for two trees that differ is not a marker without contents that the handler
never returns. -/
theorem ne_marker_of_diffPair {marker x y r : Xml} (hcontents : marker.contents = [])
    (hfresh : ∀ x y, diffHandler x y ≠ .ok marker)
    (h : diffPair orderedTags diffHandler sameHandler x y = .ok (true, r)) : r ≠ marker := by
  rintro rfl
  rcases diffPair_eq_ok h with ⟨-, -, -, resl, -, hcombine⟩ | ⟨-, res, hres, hr⟩
  · unfold combine at hcombine
    split at hcombine
    next hany =>
      obtain ⟨r', hr', -⟩ := List.any_eq_true.mp hany
      rw [(Prod.mk.inj hcombine).2, contents_element, List.map_eq_nil_iff] at hcontents
      exact List.ne_nil_of_mem hr' hcontents
    next => cases hcombine
  · cases hr
    exact hfresh x y hres

end

section

variable {orderedTags : List String} {diffHandler : Xml → Xml → Except XMLConversion Xml}
  {marker x y : Xml}

/-- Trees whose difference is the marker agree. -/
theorem sameUpTo_of_diff (hcontents : marker.contents = [])
    (hfresh : ∀ x y, diffHandler x y ≠ .ok marker)
    (h : diff orderedTags diffHandler (fun _ => marker) x y = .ok marker) :
    SameUpTo orderedTags x y := by
  obtain ⟨⟨notsame, r⟩, hpair, hr⟩ := bind_eq_ok.mp h
  cases notsame with
  | false => exact sameUpTo_of_diffPair hpair
  | true =>
      have heq : r = marker := Except.ok.inj hr
      exact absurd heq (ne_marker_of_diffPair hcontents hfresh hpair)

/-- Elements that are the same have no difference. -/
theorem diff_of_sameUpTo (hdistinct : DistinctChildren orderedTags x)
    (h : SameUpTo orderedTags x y) :
    diff orderedTags diffHandler (fun _ => marker) x y = .ok marker := by
  rw [diff, diffPair_of_sameUpTo hdistinct h]
  rfl

end

/-- With a marker that has no contents and that the handler never returns: if the difference is
the marker, the trees agree up to the order of the children below the tags that are not ordered,
and the other way around when such children have distinct tags and attributes. -/
theorem diff_decides (orderedTags : List String)
    (diffHandler : Xml → Xml → Except XMLConversion Xml) (marker : Xml)
    (hcontents : marker.contents = []) (hfresh : ∀ x y, diffHandler x y ≠ .ok marker)
    (x y : Xml) :
    (diff orderedTags diffHandler (fun _ => marker) x y = .ok marker →
      SameUpTo orderedTags x y) ∧
    (DistinctChildren orderedTags x → SameUpTo orderedTags x y →
      diff orderedTags diffHandler (fun _ => marker) x y = .ok marker) :=
  ⟨sameUpTo_of_diff hcontents hfresh, diff_of_sameUpTo⟩

end Xml

/-- The handler of {lit}`emit_plugin_xml` returns elements of successors only. -/
theorem diffHandler_ne_sameVal (bef aft : Xml) : diffHandler bef aft ≠ .ok sameVal := by
  intro h
  obtain ⟨-, -, hr⟩ := diffHandler_eq_ok h
  rcases hr with ⟨htag, hr⟩ | ⟨htag, hr⟩
  · have heq : "samehere" = bef.tag := congrArg Xml.tag hr
    rw [htag] at heq
    exact absurd heq (by decide)
  · have heq : "samehere" = bef.tag := congrArg Xml.tag hr
    rw [htag] at heq
    exact absurd heq (by decide)

/-- A node is left out of a plugin only if it agrees with the node that was there. -/
theorem sameUpTo_of_simpleDiff {nbef naft : Xml} (h : simpleDiff nbef naft = .ok sameVal) :
    Xml.SameUpTo orderedTags nbef naft :=
  Xml.sameUpTo_of_diff rfl diffHandler_ne_sameVal h

namespace Xml

/-- A reference to a guard, with one argument. -/
def guardrefWith (name : String) : Xml :=
  element "guardref" [("name", name)] [element "argument" [("name", "key")] []]

/-- A node that refers to guards. -/
def nodeWith (guards : List String) : Xml :=
  element "node" [("name", "Show")] (guards.map guardrefWith)

/-- The element of the example is the same as itself. -/
theorem sameUpTo_guardrefWith (name : String) :
    SameUpTo orderedTags (guardrefWith name) (guardrefWith name) := by
  have hargument : SameUpTo orderedTags (element "argument" [("name", "key")] [])
      (element "argument" [("name", "key")] []) :=
    .element (List.Perm.refl _) (fun _ => rfl) .nil
  exact .element (List.Perm.refl _) (fun _ => rfl) (.cons hargument .nil)

/-- The children of the example can be told apart. -/
theorem distinctChildren_guardrefWith (name : String) :
    DistinctChildren orderedTags (guardrefWith name) := by
  refine .element (fun _ => List.pairwise_singleton _ _) fun x hx => ?_
  rw [List.mem_singleton.mp hx]
  exact .element (fun _ => .nil) fun x hx => absurd hx List.not_mem_nil

/-- A node agrees with the one that has its references in another order, and not with one that
refers to another guard. -/
theorem diff_decides_simpleDiff :
    simpleDiff (nodeWith ["Users", "Files"]) (nodeWith ["Files", "Users"]) = .ok sameVal ∧
      simpleDiff (nodeWith ["Users", "Files"]) (nodeWith ["Files", "Logs"]) ≠ .ok sameVal := by
  have hdecides := diff_decides orderedTags diffHandler sameVal rfl diffHandler_ne_sameVal
    (nodeWith ["Users", "Files"])
  constructor
  · refine (hdecides (nodeWith ["Files", "Users"])).2 (.element (fun _ => ?_) fun x hx => ?_) ?_
    · exact List.pairwise_pair.mpr (by simp [guardrefWith, attributes])
    · obtain ⟨name, -, rfl⟩ := List.mem_map.mp hx
      exact distinctChildren_guardrefWith name
    · exact .element (List.Perm.swap _ _ _) (fun h => absurd h (by decide))
        (.cons (sameUpTo_guardrefWith "Files") (.cons (sameUpTo_guardrefWith "Users") .nil))
  · intro h
    cases (hdecides (nodeWith ["Files", "Logs"])).1 h with
    | element hperm _ hpairs =>
        -- the reference paired with the new guard is one of the old ones
        cases hpairs with
        | @cons _ a _ _ _ hrest =>
            cases hrest with
            | @cons b _ _ _ hb hnil =>
                have hmem : b ∈ ["Users", "Files"].map guardrefWith :=
                  hperm.mem_iff.mp (by simp)
                rcases List.mem_pair.mp hmem with rfl | rfl
                · exact absurd hb.compareKey_eq (by decide)
                · exact absurd hb.compareKey_eq (by decide)

end Xml
end Compiler
end OFlux
