import OFlux.Frontend.Consequences
import OFlux.Library.Fallible

/-!
# Classes after a plugin

A plugin is compiled against a program that is compiled already, so the numbers of the
classes of that program stay.  A plugin may merge classes; then the first of the old classes
that a new class has swallowed keeps its number, and empty classes hold the places of the
others.

Main results:

- Theorem {lit}`compat_spec`: where the classes are placed.
- Theorem {lit}`finishConsequences_isOk`: when the ends of all classes are declared, no
  exception is raised.
- Theorem {lit}`makeCompatible_stable`: the numbers of the old classes stay.
- Theorem {lit}`separated_declared_of_consequences`: its assumptions hold of computed classes.
-/

namespace OFlux
namespace Frontend
namespace TypeCheck

open Library Fallible

/-! ## Placing the classes -/

/-- The classes are split by the first end. -/
theorem partition_intersects (x : End) (xs : List End) (ufs : List (List End)) :
    partition (intersects (x :: xs)) ufs =
      .ok (ufs.filter fun c => x ∈ c, ufs.filter fun c => x ∉ c) := by
  induction ufs with
  | nil => rfl
  | cons c ufs ih =>
      have hx : intersects (x :: xs) c = .ok (decide (x ∈ c)) := rfl
      rw [partition, hx, ih]
      by_cases h : x ∈ c <;> simp [h, bind, Except.bind, pure, Except.pure]

/-- The test looks for the first end. -/
theorem existsIn_intersects (x : End) (xs : List End) (sofar : List (List End)) :
    existsIn (intersects (x :: xs)) sofar = .ok (sofar.any fun c => x ∈ c) := by
  induction sofar with
  | nil => rfl
  | cons c sofar ih =>
      have hx : intersects (x :: xs) c = .ok (decide (x ∈ c)) := rfl
      rw [existsIn, hx]
      by_cases h : x ∈ c
      · simp [h, bind, Except.bind, pure, Except.pure]
      · simp [h, ih, bind, Except.bind]

/-- Of disjoint classes at most one has an element. -/
theorem filter_mem_of_disjoint {ufs : List (List End)} (h : ufs.Pairwise List.Disjoint) (x : End) :
    (ufs.filter fun c => x ∈ c) = [] ∨
      ∃ n ∈ ufs, x ∈ n ∧ (ufs.filter fun c => x ∈ c) = [n] := by
  induction ufs with
  | nil => exact Or.inl rfl
  | cons c ufs ih =>
      obtain ⟨hc, hufs⟩ := List.pairwise_cons.mp h
      by_cases hx : x ∈ c
      · have hnone : (ufs.filter fun c => x ∈ c) = [] := by
          rw [List.filter_eq_nil_iff]
          intro d hd
          simpa using hc d hd hx
        exact Or.inr ⟨c, List.mem_cons_self, hx, by simp [hx, hnone]⟩
      · rw [List.filter_cons_of_neg (by simpa using hx)]
        rcases ih hufs with hnone | ⟨n, hn, hxn, hone⟩
        · exact Or.inl hnone
        · exact Or.inr ⟨n, List.mem_cons_of_mem _ hn, hxn, hone⟩

/-- One step of {lit}`compat`, for a class whose first element a remaining class has. -/
theorem compat_cons_of_mem {sofar ufs t : List (List End)} {x : End} {xs n : List End}
    (h : (ufs.filter fun c => x ∈ c) = [n]) {res : List (List End)}
    (hrec : compat (n :: sofar) t (ufs.filter fun c => x ∉ c) = .ok res) :
    compat sofar ((x :: xs) :: t) ufs = .ok res := by
  rw [compat, partfor, partition_intersects, h]
  simp only [bind, Except.bind, pure, Except.pure]
  rw [hrec]
  rfl

/-- One step of {lit}`compat`, for a class whose first element an earlier class has. -/
theorem compat_cons_of_not_mem {sofar ufs t : List (List End)} {x : End} {xs : List End}
    (h : (ufs.filter fun c => x ∈ c) = []) (hsofar : (sofar.any fun c => x ∈ c) = true)
    {res : List (List End)} (hrec : compat ([] :: sofar) t ufs = .ok res) :
    compat sofar ((x :: xs) :: t) ufs = .ok res := by
  rw [compat, partfor, partition_intersects, h, existsIn_intersects, hsofar]
  simp only [bind, Except.bind, onNotFound, throw, throwThe, MonadExceptOf.throw, if_true]
  rw [hrec]

/-- Where a class is placed: on its own, or with a class that was placed before. -/
def PlacedAt (sofar placed : List (List End)) (i : Nat) (h c : List End) : Prop :=
  (c ≠ [] ∧ h ⊆ c) ∨ (c = [] ∧ ∃ n ∈ sofar ++ placed.take i, h ⊆ n)

/-- Places behind one more class placed. -/
theorem PlacedAt.shift {sofar placed : List (List End)} {i : Nat} {d h c : List End}
    (hat : PlacedAt (d :: sofar) placed i h c) : PlacedAt sofar (d :: placed) (i + 1) h c := by
  refine hat.imp_right fun ⟨hc, n, hn, hsub⟩ => ⟨hc, n, ?_, hsub⟩
  rw [List.take_succ_cons]
  exact List.perm_middle.mem_iff.mpr hn

/-- Each old class is placed where its ends are. -/
theorem compat_spec {sofar ufsConst ufs : List (List End)} (hne : ∀ h ∈ ufsConst, h ≠ [])
    (hdisjoint : (sofar ++ ufs).Pairwise List.Disjoint)
    (hin : ∀ h ∈ ufsConst, ∃ n ∈ sofar ++ ufs, h ⊆ n) :
    ∃ placed rest, compat sofar ufsConst ufs = .ok (sofar.reverse ++ placed ++ rest) ∧
      (∀ i h, ufsConst[i]? = some h → ∃ c, placed[i]? = some c ∧ PlacedAt sofar placed i h c) ∧
      ((placed.filter fun c => c ≠ []) ++ rest).Perm ufs := by
  induction ufsConst generalizing sofar ufs with
  | nil => exact ⟨[], ufs, by simp [compat], by simp, by simp⟩
  | cons h t ih =>
      rw [List.forall_mem_cons] at hne hin
      obtain ⟨m, hm, hsub⟩ := hin.1
      cases h with
      | nil => exact absurd rfl hne.1
      | cons x xs =>
          have hxm : x ∈ m := hsub List.mem_cons_self
          rcases filter_mem_of_disjoint (List.pairwise_append.mp hdisjoint).2.1 x with
            hnone | ⟨n, hn, hxn, hone⟩
          · -- the class is with one that was placed before
            have hmsofar : m ∈ sofar := by
              refine (List.mem_append.mp hm).resolve_right fun hmufs => ?_
              have hmem : m ∈ ufs.filter fun c => x ∈ c :=
                List.mem_filter.mpr ⟨hmufs, decide_eq_true hxm⟩
              rw [hnone] at hmem
              cases hmem
            obtain ⟨placed, rest, hok, hat, hperm⟩ := @ih ([] :: sofar) ufs hne.2
              (List.pairwise_cons.mpr ⟨fun _ _ => List.disjoint_nil_left _, hdisjoint⟩)
              (fun h hh => (hin.2 h hh).imp fun n hn => ⟨List.mem_cons_of_mem _ hn.1, hn.2⟩)
            refine ⟨[] :: placed, rest, ?_, ?_, by simpa using hperm⟩
            · refine compat_cons_of_not_mem hnone ?_ (by simpa using hok)
              exact List.any_eq_true.mpr ⟨m, hmsofar, decide_eq_true hxm⟩
            · intro i h hi
              cases i with
              | zero =>
                  obtain rfl : x :: xs = h := by simpa using hi
                  exact ⟨[], rfl, Or.inr ⟨rfl, m, List.mem_append_left _ hmsofar, hsub⟩⟩
              | succ i => exact (hat i h hi).imp fun c hc => ⟨hc.1, hc.2.shift⟩
          · -- the class takes the one that has its first element
            have hmn : m = n := Classes.eq_of_mem_of_mem hdisjoint hm
              (List.mem_append_right _ hn) hxm hxn
            subst hmn
            have hsplit : (m :: ufs.filter fun c => x ∉ c).Perm ufs := by
              have hall := List.filter_append_perm (fun c : List End => decide (x ∈ c)) ufs
              rw [hone] at hall
              simpa using hall
            have hmove : ((m :: sofar) ++ ufs.filter fun c => x ∉ c).Perm (sofar ++ ufs) :=
              List.perm_middle.symm.trans (hsplit.append_left sofar)
            obtain ⟨placed, rest, hok, hat, hperm⟩ := @ih (m :: sofar) _ hne.2
              ((hmove.pairwise_iff fun hab => hab.symm).mpr hdisjoint)
              (fun h hh => (hin.2 h hh).imp fun n hn => ⟨hmove.mem_iff.mpr hn.1, hn.2⟩)
            have hmne : m ≠ [] := List.ne_nil_of_mem hxm
            refine ⟨m :: placed, rest, compat_cons_of_mem hone (by simpa using hok), ?_, ?_⟩
            · intro i h hi
              cases i with
              | zero =>
                  obtain rfl : x :: xs = h := by simpa using hi
                  exact ⟨m, rfl, Or.inl ⟨hmne, hsub⟩⟩
              | succ i => exact (hat i h hi).imp fun c hc => ⟨hc.1, hc.2.shift⟩
            · rw [List.filter_cons_of_pos (by simpa using hmne), List.cons_append]
              exact (hperm.cons m).trans hsplit

/-! ## Classes of declared ends -/

/-- An end whose parameters the table has. -/
def Declared (stable : SymbolTable) (e : End) : Prop :=
  ∃ decls, stable.getDecls e = .ok decls

/-- Declared ends can be compared. -/
theorem isEqual_isOk {stable : SymbolTable} {x1 x2 : End} (h1 : Declared stable x1)
    (h2 : Declared stable x2) : ∃ b, isEqual stable x1 x2 = .ok b := by
  obtain ⟨l1, h1⟩ := h1
  obtain ⟨l2, h2⟩ := h2
  rw [isEqual, h1, h2]
  exact ⟨_, rfl⟩

/-- A declared end can be grouped. -/
theorem groupEnd_isOk {stable : SymbolTable} {ll : List (List End)} {u : End}
    (hll : ∀ g ∈ ll, ∀ e ∈ g, Declared stable e) (hu : Declared stable u) :
    ∃ ll', groupEnd stable ll u = .ok ll' ∧ ∀ g ∈ ll', ∀ e ∈ g, Declared stable e := by
  have hnew : ∀ e ∈ [u], Declared stable e := List.forall_mem_singleton.mpr hu
  induction ll with
  | nil => exact ⟨[[u]], rfl, List.forall_mem_singleton.mpr hnew⟩
  | cons g t ih =>
      rw [List.forall_mem_cons] at hll
      cases g with
      | nil =>
          refine ⟨[u] :: [] :: t, rfl, ?_⟩
          rw [List.forall_mem_cons]
          exact ⟨hnew, List.forall_mem_cons.mpr hll⟩
      | cons hh h =>
          obtain ⟨b, hb⟩ := isEqual_isOk (hll.1 hh List.mem_cons_self) hu
          rw [groupEnd, hb]
          cases b with
          | true =>
              refine ⟨_, rfl, ?_⟩
              rw [List.forall_mem_cons, List.forall_mem_cons]
              exact ⟨⟨hu, hll.1⟩, hll.2⟩
          | false =>
              obtain ⟨t', ht', hdecl⟩ := ih hll.2
              simp only [bind, Except.bind, ht', pure, Except.pure]
              refine ⟨_, rfl, ?_⟩
              rw [List.forall_mem_cons]
              exact ⟨hll.1, hdecl⟩

/-- Declared ends can be grouped. -/
theorem foldlM_groupEnd_isOk {stable : SymbolTable} {ul : List End} {ll : List (List End)}
    (hll : ∀ g ∈ ll, ∀ e ∈ g, Declared stable e) (hul : ∀ e ∈ ul, Declared stable e) :
    ∃ resl, ul.foldlM (groupEnd stable) ll = .ok resl := by
  induction ul generalizing ll with
  | nil => exact ⟨ll, rfl⟩
  | cons u ul ih =>
      rw [List.forall_mem_cons] at hul
      obtain ⟨ll', hll', hdecl⟩ := groupEnd_isOk hll hul.1
      obtain ⟨resl, hresl⟩ := ih hdecl hul.2
      exact ⟨resl, by rw [List.foldlM_cons, hll']; exact hresl⟩

/-- An end of a class has a number. -/
theorem assoc_getUmap_isOk {ufs : List (List End)} (hdisjoint : ufs.Pairwise List.Disjoint)
    {ul : List End} (hul : ul ∈ ufs) {e : End} (he : e ∈ ul) :
    ∃ i, assoc e (getUmap ufs) = .ok i := by
  obtain ⟨k, hk⟩ := List.mem_iff_getElem?.mp hul
  exact ⟨1 + k, by rw [assoc, lookup_getUmap hdisjoint hk he]⟩

/-- A class of declared ends adds at most itself to the collapsed classes. -/
theorem collapseClass_isOk {stable : SymbolTable} {umap : List (End × Nat)}
    {res : List (Nat × List End) × List End × List (End × End)} {ul : List End}
    (hul : ∀ e ∈ ul, Declared stable e) (hnumber : ∀ e ∈ ul, ∃ i, assoc e umap = .ok i) :
    ∃ res', collapseClass stable umap res ul = .ok res' ∧
      ∀ x ∈ res'.1, x ∈ res.1 ∨ (x.2 = ul ∧ ul ≠ []) := by
  cases ul with
  | nil => exact ⟨res, rfl, fun x hx => Or.inl hx⟩
  | cons x xs =>
      obtain ⟨i, hi⟩ := hnumber x List.mem_cons_self
      obtain ⟨resl, hresl⟩ := @foldlM_groupEnd_isOk stable (x :: xs) [] (by simp) hul
      rw [collapseClass, if_neg (List.cons_ne_nil x xs)]
      simp only [hd, bind, Except.bind, hi, hresl]
      split
      · refine ⟨_, rfl, fun y hy => ?_⟩
        rcases List.mem_cons.mp hy with rfl | hy
        · exact Or.inr ⟨rfl, List.cons_ne_nil x xs⟩
        · exact Or.inl hy
      · exact ⟨_, rfl, fun y hy => Or.inl hy⟩

/-- Classes of declared ends can be collapsed. -/
theorem foldlM_collapseClass_isOk {stable : SymbolTable} {umap : List (End × Nat)}
    {ufs : List (List End)} {res : List (Nat × List End) × List End × List (End × End)}
    (hufs : ∀ ul ∈ ufs, ∀ e ∈ ul, Declared stable e)
    (hnumber : ∀ ul ∈ ufs, ∀ e ∈ ul, ∃ i, assoc e umap = .ok i)
    (hres : ∀ x ∈ res.1, x.2 ≠ [] ∧ ∀ e ∈ x.2, Declared stable e) :
    ∃ res', ufs.foldlM (collapseClass stable umap) res = .ok res' ∧
      ∀ x ∈ res'.1, x.2 ≠ [] ∧ ∀ e ∈ x.2, Declared stable e := by
  induction ufs generalizing res with
  | nil => exact ⟨res, rfl, hres⟩
  | cons ul ufs ih =>
      rw [List.forall_mem_cons] at hufs hnumber
      obtain ⟨res', hok, hadded⟩ := @collapseClass_isOk stable umap res ul hufs.1 hnumber.1
      have hres' : ∀ x ∈ res'.1, x.2 ≠ [] ∧ ∀ e ∈ x.2, Declared stable e := by
        intro x hx
        rcases hadded x hx with hx | ⟨heq, hne⟩
        · exact hres x hx
        · exact ⟨heq ▸ hne, heq ▸ hufs.1⟩
      obtain ⟨last, hlast, hdecl⟩ := ih hufs.2 hnumber.2 hres'
      exact ⟨last, by rw [List.foldlM_cons, hok]; exact hlast, hdecl⟩

/-- Collapsed classes of declared ends can be compared. -/
theorem getSubsetOrder_isOk {stable : SymbolTable} {fullCollapsed : List (Nat × List End)}
    (h : ∀ x ∈ fullCollapsed, x.2 ≠ [] ∧ ∀ e ∈ x.2, Declared stable e) :
    ∃ order, getSubsetOrder stable fullCollapsed = .ok order := by
  have hmapM : ∃ ll, (fullCollapsed.mapM fun (x : Nat × List End) => do
      let decls ← stable.getDecls (← hd x.2)
      return (x.1, decls)) = Except.ok ll := by
    induction fullCollapsed with
    | nil => exact ⟨[], rfl⟩
    | cons x fullCollapsed ih =>
        rw [List.forall_mem_cons] at h
        obtain ⟨ll, hll⟩ := ih h.2
        obtain ⟨i, ul⟩ := x
        cases ul with
        | nil => exact absurd rfl h.1.1
        | cons e es =>
            obtain ⟨decls, hdecls⟩ := h.1.2 e List.mem_cons_self
            refine ⟨(i, decls) :: ll, ?_⟩
            rw [List.mapM_cons, hll]
            simp only [hd, bind, Except.bind, hdecls, pure, Except.pure]
  obtain ⟨ll, hll⟩ := hmapM
  rw [getSubsetOrder, hll]
  exact ⟨_, rfl⟩

/-- When the ends of all classes are declared, no exception is raised. -/
theorem finishConsequences_isOk {stable : SymbolTable} {ufs : List (List End)}
    (hdisjoint : ufs.Pairwise List.Disjoint) (h : ∀ ul ∈ ufs, ∀ e ∈ ul, Declared stable e) :
    ∃ r, finishConsequences stable ufs = .ok r := by
  obtain ⟨res, hres, hdecl⟩ := @foldlM_collapseClass_isOk stable (getUmap ufs) ufs
    ([], [], []) h (fun ul hul e => assoc_getUmap_isOk hdisjoint hul) (by simp)
  obtain ⟨order, horder⟩ := getSubsetOrder_isOk hdecl
  rw [finishConsequences, getCollapsedTypes, hres]
  simp only [bind, Except.bind, horder]
  exact ⟨_, rfl⟩

/-- Ends that are compared are declared. -/
theorem isEqual_eq_ok {stable : SymbolTable} {x1 x2 : End} {b : Bool}
    (h : isEqual stable x1 x2 = .ok b) : Declared stable x1 ∧ Declared stable x2 := by
  obtain ⟨l1, h1, h⟩ := bind_eq_ok.mp h
  obtain ⟨l2, h2, -⟩ := bind_eq_ok.mp h
  exact ⟨⟨l1, h1⟩, ⟨l2, h2⟩⟩

/-- An end that is grouped is declared. -/
theorem groupEnd_eq_ok {stable : SymbolTable} {hh u : End} {h : List End} {t ll' : List (List End)}
    (hok : groupEnd stable ((hh :: h) :: t) u = .ok ll') :
    Declared stable hh ∧ Declared stable u ∧ ∃ x xs t', ll' = (x :: xs) :: t' := by
  rw [groupEnd] at hok
  obtain ⟨b, hb, hok⟩ := bind_eq_ok.mp hok
  refine ⟨(isEqual_eq_ok hb).1, (isEqual_eq_ok hb).2, ?_⟩
  split at hok
  · cases hok
    exact ⟨u, hh :: h, t, rfl⟩
  · obtain ⟨t', -, hok⟩ := bind_eq_ok.mp hok
    cases hok
    exact ⟨hh, h, t', rfl⟩

/-- Ends that are grouped are declared. -/
theorem foldlM_groupEnd_eq_ok {stable : SymbolTable} {ul h : List End} {hh : End}
    {t resl : List (List End)}
    (hok : ul.foldlM (groupEnd stable) ((hh :: h) :: t) = .ok resl) :
    ∀ u ∈ ul, Declared stable hh ∧ Declared stable u := by
  induction ul generalizing hh h t with
  | nil => simp
  | cons u ul ih =>
      obtain ⟨ll', hll', hok⟩ := foldlM_cons_eq_ok.mp hok
      obtain ⟨hhh, hu, x, xs, t', rfl⟩ := groupEnd_eq_ok hll'
      rw [List.forall_mem_cons]
      exact ⟨⟨hhh, hu⟩, fun v hv => ⟨hhh, (ih hok v hv).2⟩⟩

/-- A class that was collapsed has declared ends, or it has one end and is kept. -/
theorem collapseClass_eq_ok {stable : SymbolTable} {umap : List (End × Nat)}
    {res res' : List (Nat × List End) × List End × List (End × End)} {ul : List End}
    (hok : collapseClass stable umap res ul = .ok res') :
    res.1 ⊆ res'.1 ∧ ((∀ e ∈ ul, Declared stable e) ∨ ∃ e i, ul = [e] ∧ (i, ul) ∈ res'.1) := by
  unfold collapseClass at hok
  split at hok
  next hnil =>
    cases hok
    exact ⟨List.Subset.refl _, Or.inl (by simp [hnil])⟩
  next hne =>
    obtain ⟨x, hx, hok⟩ := bind_eq_ok.mp hok
    obtain ⟨i, -, hok⟩ := bind_eq_ok.mp hok
    obtain ⟨resl, hresl, hok⟩ := bind_eq_ok.mp hok
    cases ul with
    | nil => exact absurd rfl hne
    | cons e es =>
        obtain ⟨ll, hll, hresl⟩ := foldlM_cons_eq_ok.mp hresl
        cases hll
        have hall := foldlM_groupEnd_eq_ok hresl
        cases es with
        | nil =>
            cases hresl
            cases hok
            exact ⟨List.subset_cons_self _ _, Or.inr ⟨e, i, rfl, List.mem_cons_self⟩⟩
        | cons e' es =>
            have hdecl : ∀ u ∈ e :: e' :: es, Declared stable u := by
              rw [List.forall_mem_cons]
              exact ⟨(hall e' List.mem_cons_self).1, fun u hu => (hall u hu).2⟩
            refine ⟨?_, Or.inl hdecl⟩
            split at hok
            · cases hok
              exact List.subset_cons_self _ _
            · cases hok
              exact List.Subset.refl _

/-- The ends of classes that are collapsed are declared. -/
theorem foldlM_collapseClass_eq_ok {stable : SymbolTable} {umap : List (End × Nat)}
    {ufs : List (List End)} {res res' : List (Nat × List End) × List End × List (End × End)}
    (hok : ufs.foldlM (collapseClass stable umap) res = .ok res') :
    res.1 ⊆ res'.1 ∧ ∀ ul ∈ ufs,
      (∀ e ∈ ul, Declared stable e) ∨ ∃ e i, ul = [e] ∧ (i, ul) ∈ res'.1 := by
  induction ufs generalizing res with
  | nil =>
      cases hok
      exact ⟨List.Subset.refl _, by simp⟩
  | cons ul ufs ih =>
      obtain ⟨mid, hmid, hok⟩ := foldlM_cons_eq_ok.mp hok
      obtain ⟨hsub, hul⟩ := collapseClass_eq_ok hmid
      obtain ⟨hsub', hufs⟩ := ih hok
      rw [List.forall_mem_cons]
      refine ⟨List.Subset.trans hsub hsub', hul.imp_right ?_, hufs⟩
      exact fun ⟨e, i, heq, hmem⟩ => ⟨e, i, heq, hsub' hmem⟩

/-- What is finished without an exception has declared ends only. -/
theorem declared_of_finishConsequences {stable : SymbolTable} {ufs : List (List End)}
    {r : ConsequenceResult} (hok : finishConsequences stable ufs = .ok r) :
    ∀ ul ∈ ufs, ∀ e ∈ ul, Declared stable e := by
  obtain ⟨res, hres, hok⟩ := bind_eq_ok.mp hok
  obtain ⟨order, horder, -⟩ := bind_eq_ok.mp hok
  obtain ⟨ll, hll, -⟩ := bind_eq_ok.mp horder
  intro ul hul e he
  rcases (foldlM_collapseClass_eq_ok hres).2 ul hul with hdecl | ⟨x, i, rfl, hmem⟩
  · exact hdecl e he
  · obtain ⟨y, -, hy⟩ := exists_mem_of_mapM hll _ hmem
    obtain ⟨x', hx', hy⟩ := bind_eq_ok.mp hy
    obtain ⟨decls, hdecls, -⟩ := bind_eq_ok.mp hy
    cases hx'
    rw [List.mem_singleton.mp he]
    exact ⟨decls, hdecls⟩

/-- The classes of {lit}`consequences`, as the rearrangement after a plugin expects them. -/
theorem separated_declared_of_consequences {stable : SymbolTable} {ulist : UnificationResult}
    {r : ConsequenceResult} (hok : consequences ulist stable = .ok r) :
    Classes.Separated r.equivClasses ∧ ∀ n ∈ r.equivClasses, ∀ e ∈ n, Declared stable e := by
  obtain ⟨classes, hclasses, hgen, -⟩ := equivalenceClasses_spec ulist stable
  rw [consequences, hclasses] at hok
  rw [(finishConsequences_eq_ok hok).1]
  exact ⟨hgen.separated, declared_of_finishConsequences hok⟩

/-! ## Stable numbers -/

/-- The numbers of the old classes stay. -/
theorem makeCompatible_stable (stableChange : SymbolTable)
    (conseqConst conseqChange : ConsequenceResult)
    (hconst : Classes.Separated conseqConst.equivClasses)
    (hchange : Classes.Separated conseqChange.equivClasses)
    (hdeclared : ∀ n ∈ conseqChange.equivClasses, ∀ e ∈ n, Declared stableChange e)
    (hin : ∀ b ∈ conseqConst.equivClasses, ∃ n ∈ conseqChange.equivClasses, b ⊆ n) :
    ∃ r, makeCompatible stableChange conseqConst conseqChange = .ok r ∧
      (r.equivClasses.filter fun c => c ≠ []).Perm conseqChange.equivClasses ∧
      (∀ e₁ e₂, (∃ n ∈ conseqChange.equivClasses, e₁ ∈ n) →
        (∃ n ∈ conseqChange.equivClasses, e₂ ∈ n) →
        (r.unionMap.lookup e₁ = r.unionMap.lookup e₂ ↔
          ∃ n ∈ conseqChange.equivClasses, e₁ ∈ n ∧ e₂ ∈ n)) ∧
      ∀ i b n, conseqConst.equivClasses[i]? = some b → n ∈ conseqChange.equivClasses → b ⊆ n →
        (∀ (j : Nat) b', j < i → conseqConst.equivClasses[j]? = some b' → ¬ b' ⊆ n) →
        ∃ number, (∀ e ∈ b, (getUmap conseqConst.equivClasses).lookup e = some number) ∧
          ∀ e ∈ n, r.unionMap.lookup e = some number := by
  obtain ⟨placed, rest, hcompat, hat, hperm⟩ := @compat_spec [] _ _ hconst.nonempty
    hchange.disjoint hin
  rw [List.reverse_nil, List.nil_append] at hcompat
  have hrest : ∀ c ∈ rest, c ≠ [] := fun c hc =>
    hchange.nonempty c (hperm.mem_iff.mp (List.mem_append_right _ hc))
  have hfinal : ((placed ++ rest).filter fun c => c ≠ []).Perm conseqChange.equivClasses := by
    have hall : (rest.filter fun c => c ≠ []) = rest :=
      List.filter_eq_self.mpr fun c hc => decide_eq_true (hrest c hc)
    rw [List.filter_append, hall]
    exact hperm
  have hmem : ∀ c, c ∈ placed ++ rest ∧ c ≠ [] ↔ c ∈ conseqChange.equivClasses := by
    intro c
    rw [← hfinal.mem_iff, List.mem_filter, decide_eq_true_iff]
  have hdisjoint : (placed ++ rest).Pairwise List.Disjoint := by
    have hfilter := (hfinal.pairwise_iff fun hab => hab.symm).mpr hchange.disjoint
    refine (List.pairwise_filter.mp hfilter).imp fun {c d} hcd x hc hd => ?_
    exact hcd (decide_eq_true (List.ne_nil_of_mem hc)) (decide_eq_true (List.ne_nil_of_mem hd))
      hc hd
  obtain ⟨r, hr⟩ := @finishConsequences_isOk stableChange _ hdisjoint fun c hc e he =>
    hdeclared c ((hmem c).mp ⟨hc, List.ne_nil_of_mem he⟩) e he
  obtain ⟨hequiv, humap⟩ := finishConsequences_eq_ok hr
  have hcover : ∀ {e}, (∃ n ∈ conseqChange.equivClasses, e ∈ n) → ∃ c ∈ placed ++ rest, e ∈ c :=
    fun ⟨n, hn, he⟩ => ⟨n, ((hmem n).mpr hn).1, he⟩
  refine ⟨r, ?_, hequiv ▸ hfinal, fun e₁ e₂ h₁ h₂ => ?_, fun i b n hi hn hsub hfirst => ?_⟩
  · rw [makeCompatible, hcompat]
    exact hr
  · rw [humap, lookup_getUmap_eq_iff hdisjoint (hcover h₁) (hcover h₂)]
    refine exists_congr fun c => ⟨fun ⟨hc, he⟩ => ?_, fun ⟨hc, he⟩ => ?_⟩
    · exact ⟨(hmem c).mp ⟨hc, List.ne_nil_of_mem he.1⟩, he⟩
    · exact ⟨((hmem c).mpr hc).1, he⟩
  · obtain ⟨x, hx⟩ :=
      List.exists_mem_of_ne_nil b (hconst.nonempty b (List.mem_of_getElem? hi))
    -- a class that was placed and has the old class is the new class
    have heq : ∀ c ∈ placed, b ⊆ c → c = n := by
      intro c hc hbc
      have hnew := (hmem c).mp
        ⟨List.mem_append_left _ hc, List.ne_nil_of_mem (hbc hx)⟩
      exact Classes.eq_of_mem_of_mem hchange.disjoint hnew hn (hbc hx) (hsub hx)
    obtain ⟨c, hc, hplaced⟩ := hat i b hi
    have hbc : b ⊆ c := by
      rcases hplaced with ⟨-, hbc⟩ | ⟨-, d, hd, hbd⟩
      · exact hbc
      · -- otherwise an earlier old class is in the new class as well
        rw [List.nil_append] at hd
        obtain ⟨j, hj, hjd⟩ := List.mem_take_iff_getElem.mp hd
        have hji : j < i := lt_of_lt_of_le hj (min_le_left _ _)
        obtain ⟨b', hb'⟩ : ∃ b', conseqConst.equivClasses[j]? = some b' :=
          ⟨_, List.getElem?_eq_getElem (hji.trans (List.getElem?_eq_some_iff.mp hi).1)⟩
        obtain ⟨c', hc', hplaced'⟩ := hat j b' hb'
        have hjc : placed[j]? = some d := by
          rw [List.getElem?_eq_getElem (lt_of_lt_of_le hj (min_le_right _ _)), hjd]
        obtain rfl : c' = d := Option.some.inj (hc'.symm.trans hjc)
        rcases hplaced' with ⟨-, hsub'⟩ | ⟨hnil, -⟩
        · have hdn := heq c' (List.mem_of_getElem? hjc) hbd
          exact absurd (hdn ▸ hsub') (hfirst j b' hji hb')
        · exact absurd hnil (List.ne_nil_of_mem (hbd hx))
    obtain rfl := heq c (List.mem_of_getElem? hc) hbc
    have hfinalAt : (placed ++ rest)[i]? = some c := by
      rw [List.getElem?_append_left (List.getElem?_eq_some_iff.mp hc).1, hc]
    exact ⟨1 + i, fun e he => lookup_getUmap hconst.disjoint hi he,
      fun e he => humap ▸ lookup_getUmap hdisjoint hfinalAt he⟩

/-- A result with given classes; the rest of it is not used when classes are rearranged. -/
def resultOf (classes : List (List End)) : ConsequenceResult where
  equivClasses := classes
  unionMap := getUmap classes
  fullCollapsed := []
  fullCollapsedNames := []
  aliases := []
  subsetOrder := []

/-- Two classes that a plugin merges: both ends have the number of the first one. -/
theorem makeCompatible_stable_twinTable :
    ∃ r, makeCompatible twinTable (resultOf [[("Show", true)], [("Store", true)]])
        (resultOf [[("Show", true), ("Store", true)]]) = .ok r ∧
      r.unionMap.lookup ("Store", true) = some 1 := by
  have hdeclared : ∀ n ∈ [[("Show", true), ("Store", true)]], ∀ e ∈ n, Declared twinTable e := by
    intro n hn e he
    rw [List.mem_singleton.mp hn] at he
    rcases List.mem_pair.mp he with rfl | rfl
    · exact ⟨_, rfl⟩
    · exact ⟨_, rfl⟩
  obtain ⟨r, hr, -, -, hstable⟩ := makeCompatible_stable twinTable
    (resultOf [[("Show", true)], [("Store", true)]])
    (resultOf [[("Show", true), ("Store", true)]])
    ⟨by decide, by simp [resultOf]⟩ ⟨by decide, by simp [resultOf]⟩ hdeclared (by decide)
  obtain ⟨number, hold, hnew⟩ := hstable 0 [("Show", true)] [("Show", true), ("Store", true)] rfl
    List.mem_cons_self (by simp) (fun j b' hj => absurd hj (Nat.not_lt_zero j))
  have hone : number = 1 := Option.some.inj ((hold _ List.mem_cons_self).symm.trans (by decide))
  exact ⟨r, hr, hone ▸ hnew ("Store", true) (by simp)⟩

end TypeCheck
end Frontend
end OFlux
