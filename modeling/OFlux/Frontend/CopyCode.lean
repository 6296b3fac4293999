import OFlux.Frontend.TypeCheck
import OFlux.Library.GapMatching

/-!
# Generated copies

Between two structures with unlike fields the compiler generates a copy: it walks over the
fields of both in the order of modifier, type and name, and gives each field of the target a
field of the source that has its modifier and its type.

Main results:

- Theorem {lit}`matchtypes_eq_some`: what the assignments of a walk are.
- Theorem {lit}`matchtypes_of_fits`: where there is room in every gap, fields are assigned by
  their names.
- Theorem {lit}`copiesByName_iff`: exactly when the copy respects the names of the fields.
-/

namespace OFlux
namespace Frontend
namespace CopyCode

open Library GapMatching

section Walk

-- the items are fields; an instance below keeps their positions beside them
variable {α : Type} (decl : α → DeclFormal)

/-- A value may be copied if the types and their modifiers are equal. -/
def compatibleType (d1 d2 : DeclFormal) : Bool :=
  (d1.ctypemod, d1.ctype) = (d2.ctypemod, d2.ctype)

/-- The order of the sets of declarations. -/
def declCompare (d1 d2 : DeclFormal) : Ordering :=
  compare (stripDf d1) (stripDf d2)

/-- Membership up to that order. -/
def declMem (x : DeclFormal) (l : List α) : Bool :=
  l.any fun d => declCompare (decl d) x = .eq

/-- The walk over the fields of target and source. -/
def matchtypes (assignments : List (α × α)) : List α → List α → Option (List (α × α))
  | [], _ => some assignments
  | _ :: _, [] => none
  | ht :: tt, hf :: tf =>
      if decl ht = decl hf then matchtypes ((ht, hf) :: assignments) tt tf
      else if !declMem decl (decl ht) tf && compatibleType (decl ht) (decl hf) then
        matchtypes ((ht, hf) :: assignments) tt tf
      else if declCompare (decl ht) (decl hf) = .lt then none
      else matchtypes assignments (ht :: tt) tf

/-- A set of declarations is listed in its order. -/
def sortDecls (l : List α) : List α :=
  l.insertionSort fun a b => declCompare (decl a) (decl b) ≠ .gt

/-- The assignments of a copy, from a field of the target to one of the source. -/
def copyAssignments (tDecls fDecls : List α) : Option (List (α × α)) :=
  if (sortDecls decl tDecls).length > (sortDecls decl fDecls).length then none
  else matchtypes decl [] (sortDecls decl tDecls) (sortDecls decl fDecls)

end Walk

/-- The statement that copies one field. -/
def assignmentForDecl (d1 d2 : DeclFormal) : String :=
  "to->" ++ d1.name ++ " = " ++ "from->" ++ d2.name ++ ";"

/-- The code that copies the fields of one end of a function to another one. -/
def getCopyCode (symtable : SymbolTable) (tName fName : End) :
    Except Exn (Option (List String)) := do
  let tDecls ← symtable.getDecls tName
  let fDecls ← symtable.getDecls fName
  return (copyAssignments id tDecls fDecls).map fun assignments =>
    assignments.map fun (d1, d2) => assignmentForDecl d1 d2

/-! ## Keys and kinds -/

/-- Modifier and type. -/
def kind (k : StrippedDf) : String × String :=
  ((ofLex k).1, (ofLex (ofLex k).2).1)

/-- The order of fields is first that of their kinds. -/
theorem kind_le_of_le {k k' : StrippedDf} (h : k ≤ k') : toLex (kind k) ≤ toLex (kind k') := by
  rw [Prod.Lex.le_iff] at h
  rw [Prod.Lex.toLex_le_toLex]
  refine h.imp_right fun ⟨hmod, hrest⟩ => ⟨hmod, ?_⟩
  rw [Prod.Lex.le_iff] at hrest
  rcases hrest with hlt | ⟨heq, -⟩
  · exact hlt.le
  · exact heq.le

/-- Fields of one kind stand together. -/
theorem kind_ordConnected (s : String × String) : Set.OrdConnected {k | kind k = s} := by
  refine ⟨fun x hx y hy z hz => ?_⟩
  have hle := kind_le_of_le hz.1
  have hge := kind_le_of_le hz.2
  rw [show kind x = s from hx] at hle
  rw [show kind y = s from hy] at hge
  exact toLex.injective (le_antisymm hge hle)

/-- Fields are compatible when they are of one kind. -/
theorem compatibleType_iff {d1 d2 : DeclFormal} :
    compatibleType d1 d2 = true ↔ kind (stripDf d1) = kind (stripDf d2) := by
  simp [compatibleType, kind, stripDf]

/-- Stripped fields are the same by name, type and modifier. -/
theorem stripDf_eq_iff {d1 d2 : DeclFormal} : stripDf d1 = stripDf d2 ↔
    d1.name = d2.name ∧ d1.ctype = d2.ctype ∧ d1.ctypemod = d2.ctypemod := by
  simp only [stripDf, EmbeddingLike.apply_eq_iff_eq, Prod.mk.injEq]
  tauto

/-! ## The walk -/

section Walk

variable {α : Type} {decl : α → DeclFormal}

/-- The walk uses up the targets, and some of the sources in their order. -/
theorem matchtypes_eq_some {acc as : List (α × α)} {t f : List α}
    (h : matchtypes decl acc t f = some as) :
    ∃ new : List (α × α), as = new.reverse ++ acc ∧ new.map Prod.fst = t ∧
      (new.map Prod.snd).Sublist f ∧
      ∀ p ∈ new, compatibleType (decl p.1) (decl p.2) = true := by
  induction f generalizing acc t with
  | nil =>
      cases t with
      | nil =>
          cases h
          exact ⟨[], by simp⟩
      | cons => cases h
  | cons hf tf ih =>
      cases t with
      | nil =>
          cases h
          exact ⟨[], by simp⟩
      | cons ht tt =>
          have hstep : compatibleType (decl ht) (decl hf) = true →
              matchtypes decl ((ht, hf) :: acc) tt tf = some as →
              ∃ new : List (α × α), as = new.reverse ++ acc ∧ new.map Prod.fst = ht :: tt ∧
                (new.map Prod.snd).Sublist (hf :: tf) ∧
                ∀ p ∈ new, compatibleType (decl p.1) (decl p.2) = true := by
            intro hcompatible hrest
            obtain ⟨new, rfl, hfst, hsnd, hall⟩ := ih hrest
            refine ⟨(ht, hf) :: new, by simp, by rw [List.map_cons, hfst], hsnd.cons_cons hf, ?_⟩
            exact List.forall_mem_cons.mpr ⟨hcompatible, hall⟩
          rw [matchtypes] at h
          split at h
          next heq => exact hstep (by rw [heq]; simp [compatibleType]) h
          next =>
            split at h
            next hfree => exact hstep (Bool.and_eq_true_iff.mp hfree).2 h
            next =>
              split at h
              · cases h
              · obtain ⟨new, hnew, hfst, hsnd, hall⟩ := ih h
                exact ⟨new, hnew, hfst, hsnd.cons hf, hall⟩

/-- The key that the walk compares. -/
def key (decl : α → DeclFormal) (a : α) : StrippedDf :=
  stripDf (decl a)

/-- Membership is that of stripped fields. -/
theorem declMem_iff {x : DeclFormal} {l : List α} :
    declMem decl x l = true ↔ stripDf x ∈ l.map (key decl) := by
  simp [declMem, declCompare, compare_eq_iff_eq, key]

/-- Where there is room in every gap, the walk assigns common fields to themselves. -/
theorem matchtypes_of_fits {acc : List (α × α)} {t f : List α}
    (ht : (t.map (key decl)).Pairwise (· < ·)) (hf : (f.map (key decl)).Pairwise (· < ·))
    (hfits : Fits kind (t.map (key decl)) (f.map (key decl))) :
    ∃ new : List (α × α), matchtypes decl acc t f = some (new.reverse ++ acc) ∧ new.map Prod.fst = t ∧
      ∀ p ∈ new, key decl p.1 ∈ f.map (key decl) → key decl p.2 = key decl p.1 := by
  induction f generalizing acc t with
  | nil =>
      cases t with
      | nil => exact ⟨[], by simp [matchtypes]⟩
      | cons x tt => exact absurd hfits (not_fits_of_forall_ne (by simp))
  | cons y tf ih =>
      cases t with
      | nil => exact ⟨[], by simp [matchtypes]⟩
      | cons x tt =>
          rw [List.map_cons] at ht hf hfits
          have hyf : key decl y ∉ tf.map (key decl) := fun hmem =>
            lt_irrefl _ (List.rel_of_pairwise_cons hf hmem)
          have htake : Fits kind (tt.map (key decl)) (tf.map (key decl)) →
              key decl y ∉ tt.map (key decl) →
              (key decl x ∈ (y :: tf).map (key decl) → key decl y = key decl x) →
              ∃ new : List (α × α),
                matchtypes decl ((x, y) :: acc) tt tf = some (new.reverse ++ acc) ∧
                new.map Prod.fst = x :: tt ∧ ∀ p ∈ new,
                  key decl p.1 ∈ (y :: tf).map (key decl) → key decl p.2 = key decl p.1 := by
            intro hrest hfree hown
            obtain ⟨new, hnew, hfst, hall⟩ := @ih ((x, y) :: acc) tt ht.of_cons hf.of_cons hrest
            refine ⟨(x, y) :: new, by simp [hnew], by rw [List.map_cons, hfst], ?_⟩
            refine List.forall_mem_cons.mpr ⟨hown, fun p hp hmem => hall p hp ?_⟩
            rw [List.map_cons, List.mem_cons] at hmem
            refine hmem.resolve_left fun heq => hfree ?_
            rw [← heq, ← hfst]
            exact List.mem_map_of_mem (List.mem_map_of_mem hp)
          rw [matchtypes]
          split
          next heq =>
            have hkey : key decl x = key decl y := congrArg stripDf heq
            rw [hkey] at ht hfits
            exact htake (hfits.tail_of_same ht hf)
              (fun hmem => lt_irrefl _ (List.rel_of_pairwise_cons ht hmem)) fun _ => hkey.symm
          next =>
            split
            next hfree =>
              rw [Bool.and_eq_true_iff, Bool.not_eq_true', ← Bool.not_eq_true, declMem_iff,
                compatibleType_iff] at hfree
              refine htake (hfits.tail_of_free hfree.2 ht hf) (hfits.not_mem_of_free ht hf) ?_
              intro hmem
              rw [List.map_cons] at hmem
              exact ((List.mem_cons.mp hmem).resolve_right hfree.1).symm
            next hpass =>
              have hor : key decl x ∈ tf.map (key decl) ∨
                  kind (key decl x) ≠ kind (key decl y) := by
                rw [Bool.and_eq_true_iff, Bool.not_eq_true', ← Bool.not_eq_true, declMem_iff,
                  compatibleType_iff, not_and_or, not_not] at hpass
                exact hpass
              split
              next hlt =>
                have hxy : key decl x < key decl y := compare_lt_iff_lt.mp hlt
                have hkind := hor.resolve_left fun hmem =>
                  lt_asymm hxy (List.rel_of_pairwise_cons hf hmem)
                exact absurd hfits (not_fits_of_lt kind_ordConnected hxy hkind hf)
              next hge =>
                have hle : key decl y ≤ key decl x := not_lt.mp fun h => hge (compare_lt_iff_lt.mpr h)
                have hyx : key decl y < key decl x := by
                  refine lt_of_le_of_ne hle fun heq => ?_
                  exact hor.elim (fun hmem => hyf (heq ▸ hmem)) fun hne => hne (by rw [heq])
                obtain ⟨new, hnew, hfst, hall⟩ := @ih acc (x :: tt) ht hf.of_cons
                  (hfits.skip kind_ordConnected hyx hor ht)
                refine ⟨new, hnew, hfst, fun p hp hmem => hall p hp ?_⟩
                rw [List.map_cons, List.mem_cons] at hmem
                refine hmem.resolve_left fun heq => ?_
                have hp1 : p.1 ∈ x :: tt := hfst ▸ List.mem_map_of_mem hp
                rcases List.mem_cons.mp hp1 with hpx | hpt
                · exact hyx.ne' (hpx ▸ heq)
                · have hlt := List.rel_of_pairwise_cons ht (List.mem_map_of_mem (f := key decl) hpt)
                  exact lt_asymm (heq ▸ hlt) hyx

/-! ## Sorted fields -/

/-- Sorting loses no field. -/
theorem sortDecls_perm (l : List α) : (sortDecls decl l).Perm l :=
  List.perm_insertionSort _ l

/-- The comparison is the order of the keys. -/
theorem declCompare_ne_gt_iff {a b : α} :
    declCompare (decl a) (decl b) ≠ .gt ↔ key decl a ≤ key decl b := by
  rw [declCompare, Ne, compare_gt_iff_gt, not_lt]
  rfl

instance declLe_total : Std.Total fun a b : α => declCompare (decl a) (decl b) ≠ .gt :=
  ⟨fun a b => by
    rw [declCompare_ne_gt_iff, declCompare_ne_gt_iff]
    exact le_total _ _⟩

instance declLe_trans : IsTrans α fun a b => declCompare (decl a) (decl b) ≠ .gt :=
  ⟨fun a b c hab hbc => by
    rw [declCompare_ne_gt_iff] at *
    exact hab.trans hbc⟩

/-- The fields are in the order of their keys. -/
theorem sortDecls_sorted (l : List α) :
    (sortDecls decl l).Pairwise fun a b => key decl a ≤ key decl b :=
  (List.pairwise_insertionSort _ l).imp declCompare_ne_gt_iff.mp

/-- Fields with different keys have strictly ascending keys once they are sorted. -/
theorem sortDecls_strict {l : List α} (h : (l.map (key decl)).Nodup) :
    ((sortDecls decl l).map (key decl)).Pairwise (· < ·) := by
  have hnodup : ((sortDecls decl l).map (key decl)).Nodup :=
    ((sortDecls_perm l).map (key decl)).nodup_iff.mpr h
  have hsorted : ((sortDecls decl l).map (key decl)).Pairwise (· ≤ ·) :=
    List.pairwise_map.mpr (sortDecls_sorted l)
  exact hsorted.imp₂ (fun _ _ hle hne => lt_of_le_of_ne hle hne) hnodup

/-- What the assignments say when there are any. -/
theorem copyAssignments_eq_some {t f : List α} {as : List (α × α)}
    (h : copyAssignments decl t f = some as) :
    (as.map Prod.fst).Perm t ∧ (as.map Prod.snd).Subperm f ∧
      (∀ p ∈ as, compatibleType (decl p.1) (decl p.2) = true) ∧
      as.reverse.map Prod.fst = sortDecls decl t ∧
      (as.reverse.map Prod.snd).Sublist (sortDecls decl f) := by
  unfold copyAssignments at h
  split at h
  · cases h
  · obtain ⟨new, rfl, hfst, hsnd, hall⟩ := matchtypes_eq_some h
    rw [List.append_nil, List.reverse_reverse]
    refine ⟨?_, ?_, fun p hp => hall p (List.mem_reverse.mp hp), hfst, hsnd⟩
    · rw [List.map_reverse, hfst]
      exact (List.reverse_perm _).trans (sortDecls_perm t)
    · rw [List.map_reverse]
      exact (List.reverse_perm _).subperm_right.mpr (hsnd.subperm.trans (sortDecls_perm f).subperm)

/-- A walk that uses up the targets needs no fewer sources, so the lengths are in order. -/
theorem copyAssignments_of_matchtypes {t f : List α} {as : List (α × α)}
    (h : matchtypes decl [] (sortDecls decl t) (sortDecls decl f) = some as) :
    copyAssignments decl t f = some as := by
  obtain ⟨new, -, hfst, hsnd, -⟩ := matchtypes_eq_some h
  have hlength : (sortDecls decl t).length ≤ (sortDecls decl f).length := by
    rw [← hfst, List.length_map, ← List.length_map (f := Prod.snd)]
    exact hsnd.length_le
  rw [copyAssignments, if_neg (not_lt.mpr hlength), h]

/-- With room in every gap there is a copy, and common fields are copied to themselves. -/
theorem copyAssignments_of_fits {t f : List α} (ht : (t.map (key decl)).Nodup)
    (hf : (f.map (key decl)).Nodup) (hfits : Fits kind (t.map (key decl)) (f.map (key decl))) :
    ∃ as, copyAssignments decl t f = some as ∧
      ∀ p ∈ as, key decl p.1 ∈ f.map (key decl) → key decl p.2 = key decl p.1 := by
  have hsorted := hfits.perm ((@sortDecls_perm _ decl t).map (key decl)).symm
    ((@sortDecls_perm _ decl f).map (key decl)).symm
  obtain ⟨new, hnew, hfst, hown⟩ := @matchtypes_of_fits _ decl [] _ _ (sortDecls_strict ht)
    (sortDecls_strict hf) hsorted
  rw [List.append_nil] at hnew
  refine ⟨new.reverse, copyAssignments_of_matchtypes hnew, fun p hp hmem => ?_⟩
  apply hown p (List.mem_reverse.mp hp)
  exact ((sortDecls_perm f).map (key decl)).mem_iff.mpr hmem

end Walk

/-! ## Targets that are all in the source -/

section Taken

variable {α : Type} (decl : α → DeclFormal)

/-- Of the source fields with its own key a target takes the one that is the very same
declaration, or else the last one. -/
def taken (x : α) (own : List α) : Option α :=
  own.find? (fun y => decl x = decl y) <|> own.getLast?

variable {decl}

theorem taken_cons_of_eq {x y : α} {own : List α} (h : decl x = decl y) :
    taken decl x (y :: own) = some y := by
  simp [taken, h]

/-- The last field left is taken. -/
theorem taken_singleton {x y : α} : taken decl x [y] = some y := by
  by_cases h : decl x = decl y
  · exact taken_cons_of_eq h
  · simp [taken, h]

theorem taken_cons_of_ne {x y : α} {own : List α} (h : decl x ≠ decl y) (hown : own ≠ []) :
    taken decl x (y :: own) = taken decl x own := by
  simp [taken, h, List.getLast?_cons, List.getLast?_eq_some_getLast hown]

/-- What is taken is one of the fields. -/
theorem taken_mem {x y : α} {own : List α} (h : taken decl x own = some y) : y ∈ own := by
  rw [taken, Option.orElse_eq_orElse, Option.orElse_eq_or, Option.or_eq_some_iff] at h
  rcases h with hfind | ⟨-, hlast⟩
  · exact List.mem_of_find?_eq_some hfind
  · exact List.mem_of_getLast? hlast

/-- The source fields with the key of a target, in their order. -/
def ownFields (decl : α → DeclFormal) (x : α) (f : List α) : List α :=
  f.filter fun y => key decl y = key decl x

theorem ownFields_cons_of_ne {x y : α} {f : List α} (h : key decl y ≠ key decl x) :
    ownFields decl x (y :: f) = ownFields decl x f :=
  List.filter_cons_of_neg (by simpa using h)

theorem ownFields_cons_of_eq {x y : α} {f : List α} (h : key decl y = key decl x) :
    ownFields decl x (y :: f) = y :: ownFields decl x f :=
  List.filter_cons_of_pos (by simpa using h)

/-- A field has no counterpart exactly when its key is missing. -/
theorem ownFields_eq_nil_iff {x : α} {f : List α} :
    ownFields decl x f = [] ↔ key decl x ∉ f.map (key decl) := by
  simp [ownFields, List.filter_eq_nil_iff]

/-- Where every target has its key in the source, the walk never stops early. -/
theorem matchtypes_of_subset {acc : List (α × α)} {t f : List α}
    (ht : (t.map (key decl)).Pairwise (· < ·)) (hf : (f.map (key decl)).Pairwise (· ≤ ·))
    (hsub : ∀ x ∈ t, key decl x ∈ f.map (key decl)) :
    ∃ new : List (α × α), matchtypes decl acc t f = some (new.reverse ++ acc) ∧
      new.map Prod.fst = t ∧ ∀ p ∈ new, taken decl p.1 (ownFields decl p.1 f) = some p.2 := by
  induction f generalizing acc t with
  | nil =>
      cases t with
      | nil => exact ⟨[], by simp [matchtypes]⟩
      | cons x tt => exact absurd (hsub x List.mem_cons_self) (by simp)
  | cons y tf ih =>
      cases t with
      | nil => exact ⟨[], by simp [matchtypes]⟩
      | cons x tt =>
          rw [List.map_cons] at ht hf
          have hlater : ∀ x' ∈ tt, key decl x < key decl x' := fun x' hx' =>
            List.rel_of_pairwise_cons ht (List.mem_map_of_mem hx')
          have hhead : key decl y ≤ key decl x := by
            rcases List.mem_cons.mp (hsub x List.mem_cons_self) with heq | hmem
            · exact heq.ge
            · exact List.rel_of_pairwise_cons hf hmem
          have hrest : ∀ x' ∈ tt, key decl y ≠ key decl x' := fun x' hx' =>
            (lt_of_le_of_lt hhead (hlater x' hx')).ne
          have hsubrest : ∀ x' ∈ tt, key decl x' ∈ tf.map (key decl) := fun x' hx' =>
            (List.mem_cons.mp (hsub x' (List.mem_cons_of_mem x hx'))).resolve_left
              (hrest x' hx').symm
          have htake : taken decl x (ownFields decl x (y :: tf)) = some y →
              ∃ new : List (α × α),
                matchtypes decl ((x, y) :: acc) tt tf = some (new.reverse ++ acc) ∧
                new.map Prod.fst = x :: tt ∧
                ∀ p ∈ new, taken decl p.1 (ownFields decl p.1 (y :: tf)) = some p.2 := by
            intro hown
            obtain ⟨new, hnew, hfst, hall⟩ := @ih ((x, y) :: acc) tt ht.of_cons hf.of_cons
              hsubrest
            refine ⟨(x, y) :: new, by simp [hnew], by rw [List.map_cons, hfst], ?_⟩
            rw [List.forall_mem_cons]
            refine ⟨hown, fun p hp => ?_⟩
            have hp1 : p.1 ∈ tt := hfst ▸ List.mem_map_of_mem hp
            rw [ownFields_cons_of_ne (hrest p.1 hp1)]
            exact hall p hp
          rw [matchtypes]
          split
          next heq =>
            apply htake
            rw [ownFields_cons_of_eq (congrArg stripDf heq).symm]
            exact taken_cons_of_eq heq
          next hne =>
            split
            next hfree =>
              rw [Bool.and_eq_true_iff, Bool.not_eq_true', ← Bool.not_eq_true, declMem_iff]
                at hfree
              have hkey : key decl x = key decl y :=
                (List.mem_cons.mp (hsub x List.mem_cons_self)).resolve_right hfree.1
              apply htake
              rw [ownFields_cons_of_eq hkey.symm, ownFields_eq_nil_iff.mpr hfree.1]
              exact taken_singleton
            next hpass =>
              rw [Bool.and_eq_true_iff, Bool.not_eq_true', ← Bool.not_eq_true, declMem_iff,
                compatibleType_iff, not_and_or, not_not] at hpass
              have hmem : key decl x ∈ tf.map (key decl) := by
                rcases hpass with hmem | hkind
                · exact hmem
                · refine (List.mem_cons.mp (hsub x List.mem_cons_self)).resolve_left ?_
                  exact fun heq => hkind (congrArg kind heq)
              split
              next hlt => exact absurd hhead (not_le.mpr (compare_lt_iff_lt.mp hlt))
              next =>
                obtain ⟨new, hnew, hfst, hall⟩ := @ih acc (x :: tt) ht hf.of_cons
                  (List.forall_mem_cons.mpr ⟨hmem, hsubrest⟩)
                refine ⟨new, hnew, hfst, fun p hp => ?_⟩
                have hp1 : p.1 ∈ x :: tt := hfst ▸ List.mem_map_of_mem hp
                rcases List.mem_cons.mp hp1 with hpx | hpt
                · have hgoal := hall p hp
                  rw [hpx] at hgoal ⊢
                  by_cases hkey : key decl y = key decl x
                  · rw [ownFields_cons_of_eq hkey, taken_cons_of_ne hne, hgoal]
                    exact fun hnil => ownFields_eq_nil_iff.mp hnil hmem
                  · rw [ownFields_cons_of_ne hkey, hgoal]
                · rw [ownFields_cons_of_ne (hrest p.1 hpt)]
                  exact hall p hp

/-- Fields of one key stay in their order when the fields are sorted. -/
theorem ownFields_sortDecls (x : α) (f : List α) :
    ownFields decl x (sortDecls decl f) = ownFields decl x f := by
  have hsame : (ownFields decl x f).Pairwise fun a b =>
      declCompare (decl a) (decl b) ≠ .gt := by
    apply List.pairwise_of_forall_mem_list
    intro a ha b hb
    have ha' : key decl a = key decl x := by simpa using (List.mem_filter.mp ha).2
    have hb' : key decl b = key decl x := by simpa using (List.mem_filter.mp hb).2
    rw [declCompare_ne_gt_iff, ha', hb']
  have hsub : (ownFields decl x f).Sublist (sortDecls decl f) :=
    List.sublist_insertionSort hsame List.filter_sublist
  have hperm : (ownFields decl x (sortDecls decl f)).Perm (ownFields decl x f) :=
    (sortDecls_perm f).filter _
  have hfilter := hsub.filter fun y => key decl y = key decl x
  simp only [ownFields, List.filter_filter, Bool.and_self] at hfilter
  exact (hfilter.eq_of_length hperm.length_eq.symm).symm

/-- Where every target has its key in the source, each takes one of the fields with it. -/
theorem copyAssignments_of_subset {t f : List α} (ht : (t.map (key decl)).Nodup)
    (hsub : ∀ x ∈ t, key decl x ∈ f.map (key decl)) :
    ∃ as, copyAssignments decl t f = some as ∧
      ∀ p ∈ as, taken decl p.1 (ownFields decl p.1 f) = some p.2 := by
  obtain ⟨new, hnew, hfst, htaken⟩ := @matchtypes_of_subset _ decl [] _ _
    (sortDecls_strict ht) (List.pairwise_map.mpr (sortDecls_sorted f)) (fun x hx =>
      ((sortDecls_perm f).map (key decl)).mem_iff.mpr
        (hsub x ((sortDecls_perm t).mem_iff.mp hx)))
  rw [List.append_nil] at hnew
  refine ⟨new.reverse, copyAssignments_of_matchtypes hnew, fun p hp => ?_⟩
  rw [← ownFields_sortDecls]
  exact htaken p (List.mem_reverse.mp hp)

end Taken

/-! ## Fields with something beside them -/

section Naturality

variable {α β : Type} (decl : β → DeclFormal) (g : α → β)

/-- Membership goes along a map of the fields. -/
theorem declMem_map (x : DeclFormal) (l : List α) :
    declMem decl x (l.map g) = declMem (fun a => decl (g a)) x l := by
  simp [declMem, Function.comp_def]

/-- Matching goes along a map of the fields. -/
theorem matchtypes_map (acc : List (α × α)) (t f : List α) :
    (matchtypes (fun a => decl (g a)) acc t f).map (List.map (Prod.map g g)) =
      matchtypes decl (acc.map (Prod.map g g)) (t.map g) (f.map g) := by
  induction f generalizing acc t with
  | nil => cases t <;> rfl
  | cons hf tf ih =>
      cases t with
      | nil => rfl
      | cons ht tt =>
          simp only [List.map_cons, matchtypes, declMem_map]
          split
          · exact ih _ tt
          · split
            · exact ih _ tt
            · split
              · rfl
              · exact ih acc (ht :: tt)

/-- Sorting goes along a map of the fields. -/
theorem sortDecls_map (l : List α) :
    (sortDecls (fun a => decl (g a)) l).map g = sortDecls decl (l.map g) :=
  List.map_insertionSort _ _ g l fun _ _ _ _ => Iff.rfl

/-- Whatever stands beside the fields, they are copied as they are without it. -/
theorem copyAssignments_map (t f : List α) :
    (copyAssignments (fun a => decl (g a)) t f).map (List.map (Prod.map g g)) =
      copyAssignments decl (t.map g) (f.map g) := by
  unfold copyAssignments
  rw [← sortDecls_map, ← sortDecls_map, List.length_map, List.length_map]
  split
  · rfl
  · exact matchtypes_map decl g [] _ _

end Naturality

/-! ## Copies by name -/

/-- Assignments as a copy should have them. -/
structure Respects (t f : List DeclFormal) (as : List (DeclFormal × DeclFormal)) : Prop where
  targets : (as.map Prod.fst).Perm t
  sources : ∀ p ∈ as, p.2 ∈ f ∧ p.2.ctype = p.1.ctype ∧ p.2.ctypemod = p.1.ctypemod
  distinct : (as.map Prod.snd).Nodup
  own : ∀ p ∈ as, ∀ y ∈ f, y.name = p.1.name → y.ctype = p.1.ctype →
    y.ctypemod = p.1.ctypemod → p.2 = y

/-- Some assignment gives every target field a source field of its own, of the same type. -/
def Assignable (t f : List DeclFormal) : Prop :=
  ∃ as : List (DeclFormal × DeclFormal), (as.map Prod.fst).Perm t ∧
    (∀ p ∈ as, p.2 ∈ f ∧ p.2.ctype = p.1.ctype ∧ p.2.ctypemod = p.1.ctypemod) ∧
    (as.map Prod.snd).Nodup

/-- What is expected of a copy: it respects the fields, and it is only missing when there is
no assignment at all. -/
def CopiesByName (t f : List DeclFormal) : Prop :=
  (∀ as, copyAssignments id t f = some as → Respects t f as) ∧
    (copyAssignments id t f = none → ¬ Assignable t f)

/-- The number of fields with a modifier and a type. -/
def countOf (s : String × String) (l : List DeclFormal) : Nat :=
  l.countP fun d => kind (stripDf d) = s

theorem countOf_cons (s : String × String) (d : DeclFormal) (l : List DeclFormal) :
    countOf s (d :: l) = countOf s l + if kind (stripDf d) = s then 1 else 0 := by
  simp [countOf, List.countP_cons]

/-- An assignment needs enough fields of every kind. -/
theorem Assignable.count_le {t f : List DeclFormal} (h : Assignable t f)
    (s : String × String) : countOf s t ≤ countOf s f := by
  obtain ⟨as, htargets, hsources, hdistinct⟩ := h
  have hsub : (as.map Prod.snd).Subperm f := by
    apply List.subperm_of_subset hdistinct
    intro y hy
    obtain ⟨p, hp, rfl⟩ := List.mem_map.mp hy
    exact (hsources p hp).1
  have hsame : countOf s (as.map Prod.fst) = countOf s (as.map Prod.snd) := by
    rw [countOf, countOf, List.countP_map, List.countP_map]
    apply List.countP_congr
    intro p hp
    have hkind : kind (stripDf p.2) = kind (stripDf p.1) := by
      have hp' := (hsources p hp).2
      simp [kind, stripDf, hp'.1, hp'.2]
    simp [hkind]
  calc countOf s t = countOf s (as.map Prod.fst) := (htargets.countP_eq _).symm
    _ = countOf s (as.map Prod.snd) := hsame
    _ ≤ countOf s f := hsub.countP_le _

/-- There is an assignment as soon as no type has more target than source fields. -/
theorem assignable_of_count_le {t f : List DeclFormal} (hf : f.Nodup)
    (h : ∀ s, countOf s t ≤ countOf s f) : Assignable t f := by
  induction t generalizing f with
  | nil => exact ⟨[], by simp⟩
  | cons x t ih =>
      have hpos : 0 < countOf (kind (stripDf x)) f := by
        have hx := h (kind (stripDf x))
        rw [countOf_cons, if_pos rfl] at hx
        omega
      obtain ⟨y, hy, hkind⟩ := List.countP_pos_iff.mp hpos
      have hkind : kind (stripDf y) = kind (stripDf x) := by simpa using hkind
      obtain ⟨as, htargets, hsources, hdistinct⟩ := ih (hf.erase y) (by
        intro s
        have hle := h s
        have hperm : countOf s f = countOf s (y :: f.erase y) :=
          (List.perm_cons_erase hy).countP_eq _
        rw [hperm, countOf_cons, countOf_cons, hkind] at hle
        omega)
      refine ⟨(x, y) :: as, htargets.cons x, ?_, ?_⟩
      · rw [List.forall_mem_cons]
        constructor
        · simp only [kind, stripDf, Prod.mk.injEq] at hkind
          exact ⟨hy, hkind.2, hkind.1⟩
        · intro p hp
          exact (hsources p hp).imp_left List.mem_of_mem_erase
      · rw [List.map_cons, List.nodup_cons]
        refine ⟨fun hmem => ?_, hdistinct⟩
        obtain ⟨p, hp, heq⟩ := List.mem_map.mp hmem
        have hp' := (hsources p hp).1
        rw [heq] at hp'
        exact hf.not_mem_erase hp'

/-- Enough fields of every kind can be assigned. -/
theorem assignable_iff {t f : List DeclFormal} (hf : f.Nodup) :
    Assignable t f ↔ ∀ s, countOf s t ≤ countOf s f :=
  ⟨Assignable.count_le, assignable_of_count_le hf⟩

/-- Fields of different names stay different when stripped. -/
theorem nodup_stripDf {l : List DeclFormal} (h : (l.map DeclFormal.name).Nodup) :
    (l.map stripDf).Nodup := by
  have hname : l.map DeclFormal.name = (l.map stripDf).map fun k => (ofLex (ofLex k).2).2 := by
    rw [List.map_map]
    rfl
  rw [hname] at h
  exact h.of_map _

/-- A copy that respects the fields leaves room in every gap. -/
theorem fits_of_respects {t f : List DeclFormal} {as : List (DeclFormal × DeclFormal)}
    (ht : (t.map stripDf).Nodup) (hf : (f.map stripDf).Nodup)
    (hcopy : copyAssignments id t f = some as) (h : Respects t f as) :
    Fits kind (t.map stripDf) (f.map stripDf) := by
  obtain ⟨-, -, hcompatible, hfst, hsnd⟩ := copyAssignments_eq_some hcopy
  let pairs := as.reverse.map fun p => (stripDf p.1, stripDf p.2)
  have hmem : ∀ {q}, q ∈ pairs → ∃ p ∈ as, (stripDf p.1, stripDf p.2) = q := by
    intro q hq
    obtain ⟨p, hp, rfl⟩ := List.mem_map.mp hq
    exact ⟨p, List.mem_reverse.mp hp, rfl⟩
  have hfirst : pairs.map Prod.fst = (sortDecls id t).map stripDf := by
    rw [← hfst, List.map_map, List.map_map]
    rfl
  have hsecond : (pairs.map Prod.snd).Sublist ((sortDecls id f).map stripDf) := by
    have hmap := hsnd.map stripDf
    rw [List.map_map] at hmap ⊢
    exact hmap
  have hsorted : Fits kind ((sortDecls id t).map stripDf) ((sortDecls id f).map stripDf) := by
    refine fits_of_pairs hfirst hsecond (@sortDecls_strict _ id _ ht)
      (@sortDecls_strict _ id _ hf) ?_ ?_
    · intro q hq
      obtain ⟨p, hp, rfl⟩ := hmem hq
      exact compatibleType_iff.mp (hcompatible p hp)
    · intro q hq hsource
      obtain ⟨p, hp, rfl⟩ := hmem hq
      obtain ⟨y, hy, heq⟩ := List.mem_map.mp hsource
      have hy' : y ∈ f := (sortDecls_perm f).mem_iff.mp hy
      obtain ⟨hname, htype, hmod⟩ := stripDf_eq_iff.mp heq
      rw [h.own p hp y hy' hname htype hmod]
      exact heq
  exact hsorted.perm ((sortDecls_perm t).map stripDf) ((sortDecls_perm f).map stripDf)

/-- Whatever the walk returns is an assignment. -/
theorem assigns_of_copy {t f : List DeclFormal} {as : List (DeclFormal × DeclFormal)}
    (hf : f.Nodup) (hcopy : copyAssignments id t f = some as) :
    (as.map Prod.fst).Perm t ∧
      (∀ p ∈ as, p.2 ∈ f ∧ p.2.ctype = p.1.ctype ∧ p.2.ctypemod = p.1.ctypemod) ∧
      (as.map Prod.snd).Nodup := by
  obtain ⟨htargets, hsources, hcompatible, -, -⟩ := copyAssignments_eq_some hcopy
  refine ⟨htargets, ?_, ?_⟩
  · intro p hp
    have hkind := compatibleType_iff.mp (hcompatible p hp)
    simp only [kind, stripDf, Prod.mk.injEq, id] at hkind
    exact ⟨hsources.subset (List.mem_map_of_mem hp), hkind.2.symm, hkind.1.symm⟩
  · obtain ⟨l, hl, hsub⟩ := hsources
    exact hl.nodup_iff.mp (hsub.nodup hf)

/-- With room in every gap there is a copy, and it respects the fields. -/
theorem respects_of_fits {t f : List DeclFormal} (ht : (t.map stripDf).Nodup)
    (hf : (f.map stripDf).Nodup) (hfits : Fits kind (t.map stripDf) (f.map stripDf)) :
    ∃ as, copyAssignments id t f = some as ∧ Respects t f as := by
  obtain ⟨as, hcopy, hown⟩ := @copyAssignments_of_fits _ id _ _ ht hf hfits
  obtain ⟨htargets, hsources, hdistinct⟩ := assigns_of_copy (hf.of_map stripDf) hcopy
  refine ⟨as, hcopy, htargets, hsources, hdistinct, ?_⟩
  intro p hp y hy hname htype hmod
  have hkey : stripDf y = stripDf p.1 := stripDf_eq_iff.mpr ⟨hname, htype, hmod⟩
  have hcommon : stripDf p.1 ∈ f.map stripDf := hkey ▸ List.mem_map_of_mem hy
  have hsame : stripDf p.2 = stripDf p.1 := hown p hp hcommon
  exact List.inj_on_of_nodup_map hf (hsources p hp).1 hy (hsame.trans hkey.symm)

/-- Exactly when copies go by the names of the fields: there is too little of some type
anyway, or there is room between any two common fields. -/
theorem copiesByName_iff {t f : List DeclFormal} (ht : (t.map DeclFormal.name).Nodup)
    (hf : (f.map DeclFormal.name).Nodup) :
    CopiesByName t f ↔
      (∃ s, countOf s f < countOf s t) ∨ Fits kind (t.map stripDf) (f.map stripDf) := by
  have hnodup : f.Nodup := hf.of_map _
  constructor
  · intro h
    by_cases hlack : ∃ s, countOf s f < countOf s t
    · exact Or.inl hlack
    · have hassign : Assignable t f :=
        (assignable_iff hnodup).mpr fun s => not_lt.mp fun hlt => hlack ⟨s, hlt⟩
      right
      cases hcopy : copyAssignments id t f with
      | none => exact absurd hassign (h.2 hcopy)
      | some as => exact fits_of_respects (nodup_stripDf ht) (nodup_stripDf hf) hcopy (h.1 as hcopy)
  · rintro (⟨s, hlack⟩ | hfits)
    · have hnone : ¬ Assignable t f := fun hassign =>
        not_le.mpr hlack (hassign.count_le s)
      exact ⟨fun as hcopy => absurd ⟨as, assigns_of_copy hnodup hcopy⟩ hnone, fun _ => hnone⟩
    · obtain ⟨as, hcopy, hrespects⟩ := respects_of_fits (nodup_stripDf ht) (nodup_stripDf hf) hfits
      refine ⟨fun as' hcopy' => ?_, fun hnone => ?_⟩
      · rw [hcopy] at hcopy'
        exact Option.some.inj hcopy' ▸ hrespects
      · rw [hcopy] at hnone
        cases hnone

theorem copiesByName_iff_dropped :
    let field name : DeclFormal := ⟨"", "int", name, noposition⟩
    CopiesByName [field "b"] [field "a", field "b"] := by
  intro field
  apply (copiesByName_iff (by decide) (by decide)).mpr
  right
  exact fits_of_subperm (List.Sublist.subperm (List.sublist_cons_self _ _))

/-- A field takes what another target field has of its own, and a source that was passed
over is missing later. -/
theorem not_copiesByName_shifted :
    let field name : DeclFormal := ⟨"", "int", name, noposition⟩
    copyAssignments id [field "a", field "b"] [field "b", field "c"] =
        some [(field "b", field "c"), (field "a", field "b")] ∧
      ¬ CopiesByName [field "a", field "b"] [field "b", field "c"] ∧
      copyAssignments id [field "b", field "c"] [field "a", field "b"] = none ∧
      ¬ CopiesByName [field "b", field "c"] [field "a", field "b"] := by
  intro field
  have hshift : copyAssignments id [field "a", field "b"] [field "b", field "c"] =
      some [(field "b", field "c"), (field "a", field "b")] := by decide
  have hnone : copyAssignments id [field "b", field "c"] [field "a", field "b"] = none := by
    decide
  refine ⟨hshift, ?_, hnone, ?_⟩
  · intro h
    have hown := (h.1 _ hshift).own (field "b", field "c") List.mem_cons_self (field "b")
      List.mem_cons_self rfl rfl rfl
    exact absurd hown (by decide)
  · intro h
    refine h.2 hnone ⟨[(field "b", field "b"), (field "c", field "a")], ?_, ?_, ?_⟩
    · decide
    · decide
    · decide

end CopyCode
end Frontend
end OFlux
