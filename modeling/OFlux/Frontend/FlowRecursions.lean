import OFlux.Frontend.AcyclicFlow
import OFlux.Frontend.Routing

/-!
# Recursions along the flow

The successors of a node and its error handlers are found by recursions that do not remember where
they have been.  In an acyclic flow they end; the search for error handlers goes by the names of
the flows, which are those of their cells.

Main results:

- Theorem {lit}`searchEnds_of_acyclic`: the search for error handlers ends.
- Theorem {lit}`casesEnd_of_acyclic`: the cases of the successors are found.
- Theorem {lit}`neverReturns_iff`: exactly when the flow of a program is acyclic, and they end.
-/

namespace OFlux
namespace Frontend
namespace Flow

open Library Fallible
open TypeCheck (UnificationResult)

/-! ## Names of the cells -/

/-- The cells that an abstract node leads to. -/
def abstractLinks : Node → List Cell
  | .chExpr _ lines => lines.map Prod.snd
  | .conExpr _ succs => succs
  | _ => []

/-- The cell of a declared node. -/
def IsCell (fmap : FlowMap) (c : Cell) : Prop :=
  ∃ t, c = some t ∧ fmap.find t ≠ none

/-- The flow in a cell has the name of the cell, and abstract nodes lead to cells. -/
structure WellNamed (fmap : FlowMap) : Prop where
  name : ∀ m, deref fmap (some m) ≠ .nullNode → getName (deref fmap (some m)) = m
  links : ∀ m, ∀ c ∈ abstractLinks (deref fmap (some m)), IsCell fmap c

/-- What is in the map stays in it. -/
theorem find_add_ne_none {fmap : FlowMap} {x t : String} {fl : Node} (h : fmap.find t ≠ none) :
    (fmap.add x fl).find t ≠ none := by
  rw [SortedMap.find_add]
  split
  · exact Option.some_ne_none fl
  · exact h

/-- A cell stays a cell. -/
theorem IsCell.add {fmap : FlowMap} {c : Cell} (h : IsCell fmap c) (x : String) (fl : Node) :
    IsCell (fmap.add x fl) c := by
  obtain ⟨t, ht, hfind⟩ := h
  exact ⟨t, ht, find_add_ne_none hfind⟩

/-- Adding a node under its own name keeps the map well named. -/
theorem WellNamed.add {fmap : FlowMap} {x : String} {fl : Node} (h : WellNamed fmap)
    (hname : fl ≠ .nullNode → getName fl = x)
    (hlinks : ∀ c ∈ abstractLinks fl, IsCell fmap c) :
    WellNamed (fmap.add x fl) where
  name m hm := by
    rw [deref_add] at hm ⊢
    split at hm
    next heq =>
      rw [if_pos heq, hname hm, heq]
    next hne =>
      rw [if_neg hne]
      exact h.name m hm
  links m c hc := by
    rw [deref_add] at hc
    split at hc
    · exact (hlinks c hc).add x fl
    · exact (h.links m c hc).add x fl

/-- Setting a link keeps the name. -/
theorem getName_setLink (i : Nat) (c : Cell) (fl : Node) :
    getName (setLink i c fl) = getName fl := by
  cases fl <;> rfl

/-- The links after one was set. -/
theorem mem_abstractLinks_setLink {i : Nat} {c d : Cell} {fl : Node}
    (h : d ∈ abstractLinks (setLink i c fl)) : d ∈ abstractLinks fl ∨ d = c := by
  cases fl with
  | chExpr name lines =>
      obtain ⟨line, hline, rfl⟩ := List.mem_map.mp h
      obtain ⟨j, hj⟩ := List.mem_iff_getElem?.mp hline
      rw [List.getElem?_modify] at hj
      obtain ⟨line', hline', rfl⟩ := Option.map_eq_some_iff.mp hj
      split
      · exact Or.inr rfl
      · exact Or.inl (List.mem_map_of_mem (List.mem_of_getElem? hline'))
  | conExpr name succs => exact List.mem_or_eq_of_mem_set h
  | _ => exact absurd h List.not_mem_nil

/-- Setting a link to a cell keeps the map well named. -/
theorem WellNamed.setLink {rn : Cell} {fmap : FlowMap} (h : WellNamed fmap) (hrn : IsCell fmap rn)
    (m : String) (i : Nat) : WellNamed (fmap.add m (setLink i rn (deref fmap (some m)))) := by
  refine h.add (fun hne => ?_) fun c hc => ?_
  · rw [getName_setLink]
    refine h.name m fun hnull => hne ?_
    rw [hnull]
    rfl
  · rcases mem_abstractLinks_setLink hc with hold | rfl
    · exact h.links m c hold
    · exact hrn

/-- Appending to the ends keeps the map well named. -/
theorem wellNamed_addtoend {depth : Nat} {nll : List String} {fmap fmap' : FlowMap}
    {rn cell : Cell}
    (hrn : rn ≠ none → IsCell fmap rn) (hnamed : WellNamed fmap)
    (h : addtoend rn depth nll fmap cell = .ok fmap') : WellNamed fmap' := by
  cases rn with
  | none =>
      cases depth with
      | zero => cases h
      | succ depth =>
          rcases addtoend_succ_eq_ok h with ⟨-, rfl⟩ | ⟨hne, -⟩
          · exact hnamed
          · exact absurd rfl hne
  | some t =>
      have hboth := addtoend_invariant (P := fun fmap => WellNamed fmap ∧ IsCell fmap (some t))
        (fun fmap m i hP => ⟨hP.1.setLink hP.2 m i, hP.2.add m _⟩)
        h ⟨hnamed, hrn (Option.some_ne_none t)⟩
      exact hboth.1

section

variable {rn : Cell} {weakUnification : Bool} {symtable : SymbolTable} {depth : Nat} {n : String}
variable {fmap fmap' : FlowMap} {isfirstconseq : Bool} {m t : String}
variable {st st' : FlowMap × UnificationResult}

/-- The first member of a sequence is in the map. -/
theorem find_of_commitConseq {members : List String}
    (h : commitConseq symtable depth n fmap rn isfirstconseq (m :: members) = .ok fmap') :
    fmap.find m ≠ none := by
  rw [commitConseq] at h
  obtain ⟨_, hfl, -⟩ := bind_eq_ok.mp h
  exact find_of_getfl hfl

/-- Committing a member removes no node. -/
theorem Committed.find_ne_none (h : Committed depth n fmap rn isfirstconseq m fmap')
    (hfind : fmap.find t ≠ none) : fmap'.find t ≠ none := by
  have hset : ∀ (fmap : FlowMap) (m : String) (i : Nat), fmap.find t ≠ none →
      (fmap.add m (setLink i rn (deref fmap (some m)))).find t ≠ none :=
    fun _ _ _ hfind => find_add_ne_none hfind
  cases h with
  | choice _ hone => exact addtoend_invariant hset hone hfind
  | concurrent _ hone => exact addtoend_invariant hset hone hfind
  | last _ _ heq => exact heq ▸ hfind
  | fresh _ _ heq =>
      rw [heq]
      exact find_add_ne_none hfind
  | again _ _ heq =>
      rw [heq]
      exact find_add_ne_none hfind

/-- Committing a member keeps the map well named. -/
theorem Committed.wellNamed (h : Committed depth n fmap rn isfirstconseq m fmap')
    (hrn : rn ≠ none → IsCell fmap rn) (hnamed : WellNamed fmap) : WellNamed fmap' := by
  cases h with
  | choice _ hone => exact wellNamed_addtoend hrn hnamed hone
  | concurrent _ hone => exact wellNamed_addtoend hrn hnamed hone
  | last _ _ heq => exact heq ▸ hnamed
  | fresh _ _ heq =>
      rw [heq]
      exact hnamed.add (fun _ => rfl) (List.forall_mem_nil _)
  | again _ _ heq =>
      rw [heq]
      exact hnamed.add (fun _ => rfl) (List.forall_mem_nil _)

/-- Committing a sequence keeps the map well named and removes no node. -/
theorem commitConseq_kept {members : List String}
    (h : commitConseq symtable depth n fmap rn isfirstconseq members = .ok fmap')
    (hrn : rn ≠ none → IsCell fmap rn) (hnamed : WellNamed fmap) :
    WellNamed fmap' ∧ ∀ t, fmap.find t ≠ none → fmap'.find t ≠ none := by
  induction members generalizing fmap rn isfirstconseq with
  | nil =>
      cases h
      exact ⟨hnamed, fun _ hfind => hfind⟩
  | cons m members ih =>
      have hm := find_of_commitConseq h
      obtain ⟨fmap₁, hone, h⟩ := commitConseq_cons_eq_ok h
      have hcommitted := committed_of_eq_ok hone
      obtain ⟨hnamed', hfind'⟩ :=
        ih h (fun _ => ⟨m, rfl, hcommitted.find_ne_none hm⟩) (hcommitted.wellNamed hrn hnamed)
      exact ⟨hnamed', fun t hfind => hfind' t (hcommitted.find_ne_none hfind)⟩

/-- An expression keeps the map well named. -/
theorem wellNamed_addExpr {expr : Expr} (hnamed : WellNamed st.1)
    (h : addExpr weakUnification symtable depth st expr = .ok st') : WellNamed st'.1 := by
  unfold addExpr at h
  split at h
  next =>
    obtain ⟨firstN, n, lines, fmap, -, hlines, hcommit, hfound, hst'⟩ := addChoiceExpr_eq_ok h
    obtain ⟨hnamed', hkept⟩ := commitConseq_kept hcommit (absurd rfl) hnamed
    rw [hst']
    refine hnamed'.add (fun _ => ?_) (List.forall_mem_cons.mpr ⟨⟨firstN, rfl, hfound⟩, ?_⟩)
    · rcases choiceLines_eq_ok hlines with ⟨-, rfl, -⟩ | hch
      · rfl
      · have hname := hnamed.name expr.exprname (hch ▸ nofun)
        rwa [hch] at hname
    · intro c hc
      rcases choiceLines_eq_ok hlines with ⟨-, -, rfl⟩ | hch
      · exact absurd hc List.not_mem_nil
      · obtain ⟨t, ht, hfind⟩ := hnamed.links expr.exprname c (hch ▸ hc)
        exact ⟨t, ht, hkept t hfind⟩
  next =>
    obtain ⟨-, hfound, hst'⟩ := addConcurrentExpr_eq_ok h
    rw [hst']
    refine hnamed.add (fun _ => rfl) fun c hc => ?_
    obtain ⟨t, ht, rfl⟩ := List.mem_map.mp hc
    exact ⟨t, rfl, hfound t ht⟩

/-- A source keeps the map well named. -/
theorem wellNamed_addMainFn {mainfun : MainFun} (hnamed : WellNamed st.1)
    (h : addMainFn weakUnification symtable st mainfun = .ok st') : WellNamed st'.1 := by
  obtain ⟨-, hst'⟩ := addMainFn_eq_ok h
  rw [hst']
  exact hnamed.add (fun _ => rfl) (List.forall_mem_nil _)

/-- In the end all cells are filled. -/
def Filled (fmap : FlowMap) : Prop :=
  ∀ m, fmap.find m ≠ none → deref fmap (some m) ≠ .nullNode

/-- A filled cell stays filled. -/
theorem deref_add_ne_nullNode {x : String} {fl : Node}
    (h : deref fmap (some m) ≠ .nullNode) (hfl : fl ≠ .nullNode) :
    deref (fmap.add x fl) (some m) ≠ .nullNode := by
  rw [deref_add]
  split
  · exact hfl
  · exact h

/-- Filling the concrete nodes keeps the map well named and fills every cell. -/
theorem wellNamed_addNamed {res : FlowMap × List String} (hnamed : WellNamed fmap)
    (h : addNamed symtable fmap = .ok res) : WellNamed res.1 ∧ Filled res.1 := by
  unfold addNamed at h
  obtain ⟨st, hst, h⟩ := bind_eq_ok.mp h
  cases h
  -- what one step does
  have hone : ∀ entry ∈ fmap.entries, ∀ s s' : FlowMap × List String, (do
      let nd ← symtable.lookupNodeSymbol entry.1
      if entry.2 = .nullNode then
        return (s.1.add entry.1 (.cNode entry.1 nd.functionname none none), entry.1 :: s.2)
      else return s) = Except.ok s' →
      s'.1 = s.1 ∧ deref fmap (some entry.1) ≠ .nullNode ∨
        ∃ f, s'.1 = s.1.add entry.1 (.cNode entry.1 f none none) := by
    intro entry hentry s s' hstep
    obtain ⟨nd, _, hstep⟩ := bind_eq_ok.mp hstep
    split at hstep
    next =>
      cases hstep
      exact Or.inr ⟨_, rfl⟩
    next hne =>
      cases hstep
      refine Or.inl ⟨rfl, ?_⟩
      rw [deref_some, SortedMap.mem_entries_iff.mp hentry]
      exact hne
  have hall := foldlM_invariant (P := fun s : FlowMap × List String => WellNamed s.1 ∧
    ∀ m, s.1.find m ≠ none → fmap.find m ≠ none) hst ⟨hnamed, fun _ h => h⟩
    fun entry hentry s s' hs hstep => by
      rcases hone entry hentry s s' hstep with ⟨hs', -⟩ | ⟨f, hs'⟩
      · exact hs' ▸ hs
      · rw [hs']
        refine ⟨hs.1.add (fun _ => rfl) (List.forall_mem_nil _), fun m hm => ?_⟩
        rw [SortedMap.find_add] at hm
        split at hm
        next heq =>
          rw [heq, SortedMap.mem_entries_iff.mp hentry]
          exact Option.some_ne_none _
        next => exact hs.2 m hm
  have hfilled := foldlM_forall_mem
    (P := fun s : FlowMap × List String =>
      ∀ m, deref fmap (some m) ≠ .nullNode → deref s.1 (some m) ≠ .nullNode)
    (Q := fun (entry : String × Node) (s : FlowMap × List String) =>
      deref s.1 (some entry.1) ≠ .nullNode) hst (fun _ h => h)
    (fun entry hentry s s' hs hstep m hm => by
      rcases hone entry hentry s s' hstep with ⟨hs', -⟩ | ⟨f, hs'⟩
      · exact hs' ▸ hs m hm
      · exact hs' ▸ deref_add_ne_nullNode (hs m hm) nofun)
    (fun entry hentry s s' hs hstep => by
      rcases hone entry hentry s s' hstep with ⟨hs', hne⟩ | ⟨f, hs'⟩
      · exact hs' ▸ hs entry.1 hne
      · rw [hs', deref_add, if_pos rfl]
        exact nofun)
    (fun entry hentry entry' s s' _ hentry' hstep => by
      rcases hone entry hentry s s' hstep with ⟨hs', -⟩ | ⟨f, hs'⟩
      · exact hs' ▸ hentry'
      · exact hs' ▸ deref_add_ne_nullNode hentry' nofun)
  refine ⟨hall.1, fun m hm => ?_⟩
  obtain ⟨fl, hfl⟩ := Option.ne_none_iff_exists'.mp (hall.2 m hm)
  exact hfilled (m, fl) (SortedMap.mem_entries_iff.mpr hfl)

/-- Setting the error handler keeps the name. -/
theorem getName_setErr (hr : Cell) (fl : Node) : getName (setErr hr fl) = getName fl := by
  cases fl <;> rfl

/-- Setting the error handler keeps the links. -/
theorem abstractLinks_setErr (hr : Cell) (fl : Node) :
    abstractLinks (setErr hr fl) = abstractLinks fl := by
  cases fl <;> rfl

/-- Setting the error handler fills no cell. -/
theorem setErr_eq_nullNode_iff {hr : Cell} {fl : Node} :
    setErr hr fl = .nullNode ↔ fl = .nullNode := by
  cases fl <;> simp [setErr]

/-- An error handler keeps the map well named and filled. -/
theorem wellNamed_addError {err : Err} (hnamed : WellNamed st.1 ∧ Filled st.1)
    (h : addError weakUnification symtable st err = .ok st') :
    WellNamed st'.1 ∧ Filled st'.1 := by
  unfold addError at h
  obtain ⟨_, _, h⟩ := bind_eq_ok.mp h
  obtain ⟨handler, _, h⟩ := bind_eq_ok.mp h
  refine foldlM_invariant (P := fun s : FlowMap × UnificationResult =>
    WellNamed s.1 ∧ Filled s.1) h hnamed fun m _ s s' hs hstep => ?_
  obtain ⟨hm, hs'⟩ := addErrorOn_eq_ok hstep
  rw [hs']
  refine ⟨hs.1.add (fun hne => ?_) ?_, fun t ht => ?_⟩
  · rw [getName_setErr]
    exact hs.1.name m fun hnull => hne (setErr_eq_nullNode_iff.mpr hnull)
  · rw [abstractLinks_setErr]
    exact hs.1.links m
  · have hset : setErr handler (deref s.1 (some m)) ≠ .nullNode :=
      mt setErr_eq_nullNode_iff.mp hm
    by_cases heq : t = m
    · rw [heq, deref_add, if_pos rfl]
      exact hset
    · rw [SortedMap.find_add, if_neg heq] at ht
      exact deref_add_ne_nullNode (hs.2 t ht) hset

end

/-! ## Recursions that end -/

section

variable {fmap : FlowMap}

/-- Each walk along the links of an acyclic flow ends. -/
theorem wellFounded_leads (h : Acyclic (Leads fmap)) :
    WellFounded (Function.swap (Leads fmap)) := by
  refine (acyclic_swap_iff.mpr h).wellFounded ?_
  let targets := (fmap.entries.flatMap fun entry => successorCells entry.2).filterMap id
  refine (List.finite_toSet targets).subset ?_
  rintro b ⟨a, hab⟩
  change Leads fmap a b at hab
  cases hfind : fmap.find a with
  | none =>
      refine absurd hab (not_leads_of_null ?_)
      rw [deref_some, hfind]
      rfl
  | some fl =>
      rw [Leads, deref_some, hfind] at hab
      refine List.mem_filterMap.mpr ⟨some b, ?_, rfl⟩
      exact List.mem_flatMap.mpr ⟨(a, fl), SortedMap.mem_entries_iff.mpr hfind, hab⟩

/-- Links of abstract nodes lead on. -/
theorem leads_of_mem_abstractLinks {a b : String}
    (h : some b ∈ abstractLinks (deref fmap (some a))) : Leads fmap a b := by
  unfold Leads
  cases hcell : deref fmap (some a) with
  | chExpr name lines =>
      rw [hcell] at h
      exact h
  | conExpr name succs =>
      rw [hcell] at h
      exact h
  | _ =>
      rw [hcell] at h
      exact absurd h List.not_mem_nil

/-- The search for error handlers ends on a stack that is deep enough. -/
def SearchEnds (fmap : FlowMap) (froml : List String) : Prop :=
  ∃ depth₀, ∀ depth ≥ depth₀, findErrorHandlers fmap depth froml ≠ .error .stackOverflow

theorem searchEnds_nil : SearchEnds fmap [] := by
  refine ⟨1, fun depth hdepth => ?_⟩
  obtain ⟨depth, rfl⟩ := Nat.exists_eq_add_of_le' hdepth
  exact ok_ne_error

/-- The names that the search goes on with. -/
def handlerNames (fmap : FlowMap) (h : String) : List String :=
  (abstractLinks (deref fmap (some h))).map fun c => getName (deref fmap c)

/-- A search ends when it ends from the first node and from the others. -/
theorem searchEnds_cons {h : String} {tl : List String}
    (hnames : SearchEnds fmap (handlerNames fmap h)) (htl : SearchEnds fmap tl) :
    SearchEnds fmap (h :: tl) := by
  obtain ⟨depth₁, hnames⟩ := hnames
  obtain ⟨depth₂, htl⟩ := htl
  refine ⟨max depth₁ depth₂ + 1, fun depth hdepth => ?_⟩
  obtain ⟨depth, rfl⟩ := Nat.exists_eq_add_of_le' (Nat.le_of_add_left_le hdepth)
  have hle := Nat.le_of_add_le_add_right hdepth
  have hnames := hnames depth (le_of_max_le_left hle)
  have htl := htl depth (le_of_max_le_right hle)
  rw [findErrorHandlers]
  refine bind_ne_error ?_ fun fl hfl => ?_
  · unfold findCell
    split
    · exact ok_ne_error
    · intro hfail
      cases hfail
  · rw [findCell_eq_ok hfl]
    unfold handlerNames at hnames
    cases hcell : deref fmap (some h) with
    | chExpr name lines =>
        rw [hcell, abstractLinks, List.map_map] at hnames
        exact bind_ne_error hnames fun _ _ => bind_ne_error htl fun _ _ => ok_ne_error
    | conExpr name succs =>
        rw [hcell] at hnames
        exact bind_ne_error hnames fun _ _ => bind_ne_error htl fun _ _ => ok_ne_error
    | _ => exact bind_ne_error htl fun _ _ => ok_ne_error

/-- In an acyclic flow the search ends, whatever it starts with. -/
theorem searchEnds_of_acyclic (h : Acyclic (Leads fmap)) (hnamed : WellNamed fmap)
    (hfilled : Filled fmap) (froml : List String) : SearchEnds fmap froml := by
  have hone : ∀ m tl, SearchEnds fmap tl → SearchEnds fmap (m :: tl) := by
    intro m
    induction m using (wellFounded_leads h).induction with
    | _ m ih =>
        intro tl htl
        refine searchEnds_cons ?_ htl
        suffices hall : ∀ cells : List Cell, cells ⊆ abstractLinks (deref fmap (some m)) →
            SearchEnds fmap (cells.map fun c => getName (deref fmap c)) from
          hall _ (List.Subset.refl _)
        intro cells
        induction cells with
        | nil => exact fun _ => searchEnds_nil
        | cons c cells ihcells =>
            intro hsub
            obtain ⟨hc, hcells⟩ := List.cons_subset.mp hsub
            obtain ⟨t, rfl, hfind⟩ := hnamed.links m c hc
            rw [List.map_cons, hnamed.name t (hfilled t hfind)]
            exact ih t (leads_of_mem_abstractLinks hc) _ (ihcells hcells)
  induction froml with
  | nil => exact searchEnds_nil
  | cons m tl ih => exact hone m tl ih

end

/-! ## Generated successors end -/

section

open ConditionArguments Successors
open Compiler (XMLConversion)

variable {target output : HashedDecls} {ccond : CanonCondition}

/-- The recursion fails on a stack that is not deep enough. -/
def Overflows {α : Type} (x : Except XMLConversion α) : Prop :=
  x = .error "Stack_overflow"

/-- Any other error is not an overflow of the stack. -/
theorem not_overflows_error {α : Type} {e : XMLConversion} (h : e.toList.head? ≠ some 'S') :
    ¬ Overflows (.error e : Except XMLConversion α) := by
  intro heq
  rw [Except.error.inj heq] at h
  exact h rfl

/-- Looking for an argument takes no stack. -/
theorem findArgn_not_overflows {tUh uh name : String} {i : Nat} {dfl : List DeclFormal} :
    ¬ Overflows (findArgn tUh uh name i dfl) := by
  induction dfl generalizing i with
  | nil => exact not_overflows_error (by simp)
  | cons df dfl ih =>
      unfold findArgn
      split
      · exact ok_ne_error
      · exact ih

/-- Converting an argument number takes no stack. -/
theorem convertArgn_not_overflows {j : Nat} : ¬ Overflows (convertArgn target output j) := by
  unfold convertArgn
  split
  · exact ok_ne_error
  · split
    · exact findArgn_not_overflows
    · exact ok_ne_error

/-- Writing a condition takes no stack. -/
theorem genCond'_not_overflows {i : Nat} : ¬ Overflows (genCond' target output i ccond) := by
  induction ccond generalizing i with
  | nil => exact ok_ne_error
  | cons conj ccond ih =>
      refine bind_ne_error (fun h => ?_) fun _ _ => bind_ne_error ih fun _ _ => ok_ne_error
      obtain ⟨condition, -, hfail⟩ := exists_of_mapM_eq_error h
      refine bind_ne_error convertArgn_not_overflows (fun _ _ => ?_) hfail
      exact ok_ne_error

variable {digest : List StrippedDf → String} {br : BuiltFlow} {nOutDfl : List DeclFormal}
  {abstractTermination exclusiveTests : Bool}

/-- Looking a node up takes no stack. -/
theorem lookupNode_not_overflows {n : String} : ¬ Overflows (Successors.lookupNode br n) := by
  unfold Successors.lookupNode
  split
  · exact ok_ne_error
  · exact not_overflows_error (by decide)

/-- Asking whether a node is abstract takes no stack. -/
theorem isAbstract_not_overflows {n : String} : ¬ Overflows (isAbstract br n) :=
  bind_ne_error lookupNode_not_overflows fun _ _ => ok_ne_error

/-- Writing a case takes no stack. -/
theorem emitCase_not_overflows {n : String} {inputs : List DeclFormal} :
    ¬ Overflows (emitCase digest br nOutDfl n inputs ccond) := by
  refine bind_ne_error isAbstract_not_overflows fun b _ => ?_
  split
  · exact not_overflows_error (by simp)
  · split
    · exact ok_ne_error
    · have hcond : ¬ Overflows (successorCase digest n inputs nOutDfl ccond) :=
        bind_ne_error (bind_ne_error genCond'_not_overflows fun _ _ => ok_ne_error)
          fun _ _ => ok_ne_error
      exact bind_ne_error hcond fun _ _ => ok_ne_error

/-- The visit of a concrete node takes no stack. -/
theorem sfun_not_overflows {n : String} :
    ¬ Overflows (sfun abstractTermination digest br nOutDfl n ccond) := by
  refine bind_ne_error ?_ fun inputs _ => bind_ne_error ?_ fun ist _ => ?_
  · unfold targetInputs
    split
    · exact ok_ne_error
    · exact bind_ne_error lookupNode_not_overflows fun _ _ => ok_ne_error
  · unfold isTerminal
    split
    · exact bind_ne_error isAbstract_not_overflows fun _ _ => ok_ne_error
    · exact ok_ne_error
  · split
    · exact ok_ne_error
    · exact emitCase_not_overflows

/-- A line takes as much stack as the cell behind it. -/
theorem onfold_not_overflows {gen : CanonCondition → Cell → Except XMLConversion CaseLists}
    {choiceName : String} {condunit : CanonCondition} {st : CanonCondition × List CaseLists}
    {line : List (Option String) × Cell} (hgen : ∀ ccond, ¬ Overflows (gen ccond line.2)) :
    ¬ Overflows (onfold gen choiceName condunit ccond st line) := by
  refine bind_ne_error ?_ fun _ _ => bind_ne_error (hgen _) fun _ _ => ok_ne_error
  unfold negatedLine
  split
  · exact ok_ne_error
  · exact ok_ne_error
  · exact not_overflows_error (by simp)

/-- The cases behind a cell are found on a stack that is deep enough. -/
def CasesEnd (abstractTermination exclusiveTests : Bool) (digest : List StrippedDf → String)
    (br : BuiltFlow) (nOutDfl : List DeclFormal) (cell : Cell) : Prop :=
  ∃ depth₀, ∀ depth ≥ depth₀, ∀ ccond, ¬ Overflows
    (genSucc' abstractTermination exclusiveTests digest br nOutDfl depth ccond (deref br.fmap cell))

/-- If they are for the cells behind it, they are for a cell. -/
theorem casesEnd_of_forall {cell : Cell}
    (h : ∀ c ∈ abstractLinks (deref br.fmap cell),
      CasesEnd abstractTermination exclusiveTests digest br nOutDfl c) :
    CasesEnd abstractTermination exclusiveTests digest br nOutDfl cell := by
  obtain ⟨depth₀, hdepth₀⟩ := Successors.exists_depth h
  refine ⟨depth₀ + 1, fun depth hdepth ccond => ?_⟩
  obtain ⟨depth, rfl⟩ := Nat.exists_eq_add_of_le' (Nat.le_of_add_left_le hdepth)
  have hlinks := hdepth₀ depth (Nat.le_of_add_le_add_right hdepth)
  cases hcell : deref br.fmap cell with
  | source | cNode => exact sfun_not_overflows
  | nullNode => exact ok_ne_error
  | conExpr name succs =>
      rw [hcell] at hlinks
      refine bind_ne_error (fun hfail => ?_) fun _ _ => ok_ne_error
      obtain ⟨c, hc, hfail⟩ := exists_of_mapM_eq_error hfail
      exact hlinks c hc ccond hfail
  | chExpr name lines =>
      rw [hcell] at hlinks
      cases lines with
      | nil => exact not_overflows_error (by decide)
      | cons line lines =>
          refine bind_ne_error (fun hfail => ?_) fun _ _ => ok_ne_error
          obtain ⟨line', hline', st, -, hfail⟩ :=
            exists_of_foldlM_eq_error (P := fun _ => True) hfail trivial fun _ _ _ _ _ _ => trivial
          exact onfold_not_overflows
            (fun ccond => hlinks line'.2 (List.mem_map_of_mem hline') ccond) hfail

/-- In an acyclic flow the cases behind every cell are found. -/
theorem casesEnd_of_acyclic (h : Acyclic (Leads br.fmap)) (cell : Cell) :
    CasesEnd abstractTermination exclusiveTests digest br nOutDfl cell := by
  have hnone : CasesEnd abstractTermination exclusiveTests digest br nOutDfl none :=
    casesEnd_of_forall (List.forall_mem_nil _)
  cases cell with
  | none => exact hnone
  | some m =>
      induction m using (wellFounded_leads h).induction with
      | _ m ih =>
          refine casesEnd_of_forall fun c hc => ?_
          cases c with
          | none => exact hnone
          | some t => exact ih t (leads_of_mem_abstractLinks hc)

end

/-! ## Flows that never return -/

/-- Following the links never comes back to a node, and the recursions along them end. -/
structure NeverReturns (built : BuiltFlow) : Prop where
  acyclic : Acyclic (Leads built.fmap)
  search : ∀ froml, SearchEnds built.fmap froml
  successors : ∀ abstractTermination exclusiveTests digest nOutDfl cell,
    CasesEnd abstractTermination exclusiveTests digest built nOutDfl cell

/-- The map of an accepted program is well named and filled. -/
theorem wellNamed_fmap {weakUnification : Bool} {depth : Nat} {symtable : SymbolTable}
    {pr : Program} {built : BuiltFlow}
    (h : buildFlowMap weakUnification depth symtable pr = .ok built) :
    WellNamed built.fmap ∧ Filled built.fmap := by
  obtain ⟨st, st₁, symtable', res, st₂, hst, hst₁, hnamed, hst₂, hfmap⟩ := buildFlowMap_stages h
  have hstart : WellNamed (buildMap pr.nodeDeclList) := by
    refine ⟨fun m hm => absurd (deref_buildMap _ _) hm, fun m c hc => ?_⟩
    rw [deref_buildMap] at hc
    exact absurd hc List.not_mem_nil
  have hexprs := foldlM_invariant
    (P := fun st : FlowMap × UnificationResult => WellNamed st.1) hst hstart
    fun _ _ _ _ hs hstep => wellNamed_addExpr hs hstep
  have hsources := foldlM_invariant
    (P := fun st : FlowMap × UnificationResult => WellNamed st.1) hst₁ hexprs
    fun _ _ _ _ hs hstep => wellNamed_addMainFn hs hstep
  rw [hfmap]
  exact foldlM_invariant (P := fun st : FlowMap × UnificationResult =>
    WellNamed st.1 ∧ Filled st.1) hst₂ (wellNamed_addNamed hsources hnamed)
    fun _ _ _ _ hs hstep => wellNamed_addError hs hstep

/-- The flow of a program never returns exactly if no link leads back when it is set. -/
theorem neverReturns_iff {weakUnification : Bool} {depth : Nat} {symtable : SymbolTable}
    {pr : Program} {built : BuiltFlow}
    (h : buildFlowMap weakUnification depth symtable pr = .ok built) :
    NeverReturns built ↔ BuildFits weakUnification depth symtable pr := by
  rw [← acyclic_fmap_iff h]
  obtain ⟨hnamed, hfilled⟩ := wellNamed_fmap h
  exact ⟨NeverReturns.acyclic, fun hacyclic => ⟨hacyclic,
    searchEnds_of_acyclic hacyclic hnamed hfilled, fun _ _ _ _ => casesEnd_of_acyclic hacyclic⟩⟩

/-- A source that leads to a node with two branches. -/
def branchesProgram : Program where
  nodeDeclList := [("A", true), ("B", true), ("Both", false), ("Start", true)].map fun n =>
    { nodename := n.1, nodefunction := n.1, inputs := [], outputs := if n.2 then some [] else none }
  exprList := [⟨"Both", [], ["A", "B"], .concurrent⟩]
  mainfunList := [⟨"Start", "Start", some "Both", 0⟩]

/-- The symbols of a program. -/
def tableOf (pr : Program) : SymbolTable :=
  (SymbolTable.addProgram (SortedMap.empty, 0) pr).1

/-- The branches lead nowhere, and nothing leads to the source. -/
theorem neverReturns_iff_branches :
    ∃ built, buildFlowMap false 3 (tableOf branchesProgram) branchesProgram = .ok built ∧
      NeverReturns built := by
  have hok : (buildFlowMap false 3 (tableOf branchesProgram) branchesProgram).map
      (fun _ => ()) = .ok () := by
    decide +kernel
  obtain ⟨built, hbuilt, -⟩ := map_eq_ok.mp hok
  refine ⟨built, hbuilt, (neverReturns_iff hbuilt).mpr ⟨⟨?_, fun _ _ => trivial⟩, ?_⟩⟩
  · intro y hy hback
    rcases Relation.ReflTransGen.cases_head hback with rfl | ⟨z, hyz, -⟩
    · exact absurd hy (by decide)
    · exact not_leads_of_null (deref_buildMap _ _) hyz
  · intro st hst
    obtain ⟨st', hstep, hst⟩ := foldlM_cons_eq_ok.mp hst
    cases hst
    have hstep : addConcurrentExpr false (tableOf branchesProgram)
        (buildMap branchesProgram.nodeDeclList, []) ⟨"Both", [], ["A", "B"], .concurrent⟩ =
          .ok st := hstep
    obtain ⟨-, -, hst'⟩ := addConcurrentExpr_eq_ok hstep
    refine ⟨fun y hy hback => ?_, fun _ _ => trivial⟩
    rcases Relation.ReflTransGen.cases_tail hback with rfl | ⟨z, -, hz⟩
    · exact absurd hy (by decide)
    · rw [hst', leads_add] at hz
      split at hz
      · exact absurd hz (by decide)
      · exact not_leads_of_null (deref_buildMap _ _) hz

/-- A source that leads to a node which is a choice of itself. -/
def loopProgram : Program where
  nodeDeclList := [("Again", false), ("Start", true)].map fun n =>
    { nodename := n.1, nodefunction := n.1, inputs := [], outputs := if n.2 then some [] else none }
  exprList := [⟨"Again", [], ["Again"], .choice⟩]
  mainfunList := [⟨"Start", "Start", some "Again", 0⟩]

/-- The successors behind a choice of itself are never found. -/
theorem overflows_of_itself {built : BuiltFlow} {m name : String}
    (hcell : deref built.fmap (some m) = .chExpr name [([], some m)])
    (digest : List StrippedDf → String) (depth : Nat)
    (ccond : ConditionArguments.CanonCondition) :
    Overflows (Successors.genSucc' false false digest built [] depth ccond
      (deref built.fmap (some m))) := by
  induction depth generalizing ccond with
  | zero => rfl
  | succ depth ih =>
      unfold Overflows at ih ⊢
      conv_lhs => rw [hcell]
      simp [Successors.genSucc', Successors.onfold, Successors.negatedLine, Successors.canonCase,
        Successors.negateCanonCondition, ih, bind, Except.bind]

/-- The builder does not notice that a choice leads to itself, and the recursion that generates
the successors of the source never ends. -/
theorem loop_returns :
    ∃ built, buildFlowMap false 3 (tableOf loopProgram) loopProgram = .ok built ∧
      ¬ Acyclic (Leads built.fmap) ∧
      ∀ digest depth ccond, Overflows (Successors.genSucc' false false digest built [] depth ccond
        (deref built.fmap (some "Again"))) := by
  have hcell : (buildFlowMap false 3 (tableOf loopProgram) loopProgram).map
      (fun built => deref built.fmap (some "Again")) =
        .ok (.chExpr "Again" [([], some "Again")]) := by
    decide +kernel
  obtain ⟨built, hbuilt, hcell⟩ := map_eq_ok.mp hcell
  refine ⟨built, hbuilt, fun hacyclic => hacyclic "Again" (.single ?_), fun digest depth => ?_⟩
  · rw [Leads, hcell]
    exact List.mem_singleton.mpr rfl
  · exact overflows_of_itself hcell digest depth

end Flow
end Frontend
end OFlux
