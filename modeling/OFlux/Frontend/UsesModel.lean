import OFlux.Frontend.SymbolTable
import OFlux.Library.Saturation

/-!
# The uses model

Which modules and plugins use which: a list of pairs that is put together from the module
definitions of the symbol table, from the plugins of the program and from the inclusions
between source files.  The code generator follows the pairs to find what a module or plugin
gets from the others already.

Main definitions:

- {lit}`usesAll`: everything that a name uses.
- {lit}`getModuleUsesModel`: the uses between modules.
- {lit}`getPluginPluginUses`: the uses between plugins.

Main results:

- Theorem {lit}`usesAll_exact`: the iteration over the pairs finds all that is reachable.
- Theorem {lit}`pluginUses_exact_iff`: one pass over the inclusions finds less.
- Theorem {lit}`moduleUses_closure_iff`: when the pairs of modules are a closure.
- Theorem {lit}`attributedIn_of_uses`: the walk over the modules loses no use.
-/

namespace OFlux
namespace Frontend
namespace UsesModel

open Library
open Library.Saturation

/-! ## All that a name uses -/

section

variable {α : Type} [DecidableEq α]

/-- One pair in its turn, and whether it added a name. -/
def followUse (state : List α × Bool) (use : α × α) : List α × Bool :=
  if use.1 ∈ state.1 ∧ use.2 ∉ state.1 then (use.2 :: state.1, true) else state

/-- How many names are left to add, and one more when another pass is due. -/
def passesLeft (uses : List (α × α)) (state : List α × Bool) : Nat :=
  missing uses state.1 + state.2.toNat

/-- Following a use needs no more passes. -/
theorem passesLeft_followUse_le (um t : List (α × α)) (use : α × α) (state : List α × Bool) :
    passesLeft (t ++ um) (followUse state use) ≤ passesLeft (use :: t ++ um) state := by
  have hsub : t ++ um ⊆ use :: t ++ um := List.subset_cons_self _ _
  unfold followUse passesLeft
  split
  next h =>
    have hmem : use ∈ use :: t ++ um := List.mem_cons_self
    have hlt := missing_cons_lt hmem h.2
    have hle := missing_le_of_subset (use.2 :: state.1) hsub
    simp only [Bool.toNat_true]
    omega
  next => exact Nat.add_le_add_right (missing_le_of_subset _ hsub) _

/-- Every new pass leaves fewer. -/
theorem passesLeft_restart_lt (um : List (α × α)) (fp : List α) :
    passesLeft (um ++ um) (fp, false) < passesLeft um (fp, true) := by
  have hsub : um ++ um ⊆ um := List.append_subset.mpr ⟨fun _ h => h, fun _ h => h⟩
  have hle := missing_le_of_subset fp hsub
  simp only [passesLeft, Bool.toNat_true, Bool.toNat_false]
  omega

/-- {lit}`fixedpointfun`: passes over the pairs, another one after each that added a name. -/
def fixedpointfun (um : List (α × α)) (state : List α × Bool) :
    List (α × α) → List α × Bool
  | (a, b) :: t =>
      fixedpointfun um (if a ∈ state.1 ∧ b ∉ state.1 then (b :: state.1, true) else state) t
  | [] =>
      if state.2 = true then fixedpointfun um (state.1, false) um
      else (state.1, false)
termination_by umlocal => (passesLeft (umlocal ++ um) state, umlocal.length)
decreasing_by
  · exact Prod.Lex.right' _ (passesLeft_followUse_le um t (a, b) state) (Nat.lt_succ_self _)
  · have hstate : state = (state.1, true) := Prod.ext rfl ‹_›
    rw [hstate]
    exact Prod.Lex.left _ _ (passesLeft_restart_lt um state.1)

/-- {lit}`uses_all`. -/
def usesAll (um : List (α × α)) (n : α) : List α :=
  (fixedpointfun um ([n], false) um).1

/-- Following a use extends what was found. -/
theorem followUse_fst (state : List α × Bool) (use : α × α) :
    (followUse state use).1 = extend state.1 use := by
  unfold followUse extend
  split <;> rfl

theorem fixedpointfun_cons (um t : List (α × α)) (state : List α × Bool) (use : α × α) :
    fixedpointfun um state (use :: t) = fixedpointfun um (followUse state use) t := by
  obtain ⟨a, b⟩ := use
  rw [fixedpointfun]
  rfl

/-- At the end of a pass the next one begins when something was found. -/
theorem fixedpointfun_nil (um : List (α × α)) (fp : List α) (modified : Bool) :
    fixedpointfun um (fp, modified) [] =
      if modified then fixedpointfun um (fp, false) um else (fp, false) := by
  rw [fixedpointfun]

/-- What every pass keeps, the result has. -/
theorem fixedpointfun_induction {P : List α → Prop} {um : List (α × α)}
    (hstep : ∀ fp, ∀ use ∈ um, P fp → P (extend fp use)) {state : List α × Bool}
    {umlocal : List (α × α)} (hlocal : umlocal ⊆ um) (h : P state.1) :
    P (fixedpointfun um state umlocal).1 := by
  induction state, umlocal using fixedpointfun.induct um with
  | case1 state a b t ih =>
      rw [fixedpointfun_cons]
      obtain ⟨hmem, ht⟩ := List.cons_subset.mp hlocal
      refine ih ht ?_
      change P (followUse state (a, b)).1
      rw [followUse_fst]
      exact hstep _ _ hmem h
  | case2 state hmodified ih =>
      obtain ⟨fp, modified⟩ := state
      rw [fixedpointfun_nil, if_pos hmodified]
      exact ih (List.Subset.refl um) h
  | case3 state hmodified =>
      obtain ⟨fp, modified⟩ := state
      rw [fixedpointfun_nil, if_neg hmodified]
      exact h

/-- Where a pass has added nothing, no pair that it has come to leads out of the list. -/
theorem closed_fixedpointfun {um : List (α × α)} {state : List α × Bool}
    {umlocal : List (α × α)}
    (h : state.2 = false → ∀ use ∈ um, use ∈ umlocal ∨ (use.1 ∈ state.1 → use.2 ∈ state.1)) :
    Closed um (fixedpointfun um state umlocal).1 := by
  induction state, umlocal using fixedpointfun.induct um with
  | case1 state a b t ih =>
      rw [fixedpointfun_cons]
      refine ih ?_
      change (followUse state (a, b)).2 = false → _
      unfold followUse
      split
      next => exact fun htrue => by cases htrue
      next hnone =>
        intro hfalse use hmem
        rcases h hfalse use hmem with hlocal | hclosed
        · rcases List.mem_cons.mp hlocal with rfl | hlocal
          · refine Or.inr fun hstart => ?_
            by_contra hnew
            exact hnone ⟨hstart, hnew⟩
          · exact Or.inl hlocal
        · exact Or.inr hclosed
  | case2 state hmodified ih =>
      obtain ⟨fp, modified⟩ := state
      rw [fixedpointfun_nil, if_pos hmodified]
      exact ih fun _ use hmem => Or.inl hmem
  | case3 state hmodified =>
      obtain ⟨fp, modified⟩ := state
      rw [fixedpointfun_nil, if_neg hmodified]
      intro use hmem hstart
      rcases h (Bool.eq_false_iff.mpr hmodified) use hmem with hlocal | hclosed
      · cases hlocal
      · exact hclosed hstart

/-- The names are those that the pairs lead to, each of them once. -/
theorem usesAll_exact (um : List (α × α)) (n : α) :
    (usesAll um n).Nodup ∧
      ∀ x, x ∈ usesAll um n ↔ Relation.ReflTransGen (fun a b => (a, b) ∈ um) n x := by
  have hnodup : (usesAll um n).Nodup :=
    fixedpointfun_induction (fun fp use _ => nodup_extend) (List.Subset.refl um)
      (List.nodup_singleton n)
  have hfirst : n ∈ usesAll um n :=
    fixedpointfun_induction (P := fun fp => n ∈ fp)
      (fun fp use _ hn => mem_extend_iff.mpr (Or.inl hn)) (List.Subset.refl um)
      (List.mem_singleton_self n)
  have hsound : ∀ x ∈ usesAll um n, Relation.ReflTransGen (Edge um) n x := by
    refine fixedpointfun_induction (P := fun fp => ∀ x ∈ fp, Relation.ReflTransGen (Edge um) n x)
      ?_ (List.Subset.refl um) ?_
    · intro fp use hmem hfp x hx
      rcases mem_extend_iff.mp hx with hx | ⟨hstart, rfl⟩
      · exact hfp x hx
      · exact (hfp _ hstart).tail hmem
    · intro x hx
      rw [List.mem_singleton.mp hx]
  have hclosed : Closed um (usesAll um n) :=
    closed_fixedpointfun fun _ use hmem => Or.inl hmem
  exact ⟨hnodup, fun x => mem_iff_of_closed hfirst hclosed hsound⟩

end

/-! ## Plugins that use plugins -/

/-- {lit}`fnopt_to_fn`: no file of its own stands for the file on the command line. -/
def fnoptToFn (rootFilename : Option String) : Option String → String
  | none => rootFilename.getD "-"
  | some s => s

/-- The files that a file includes, itself among them, as far as one pass over the inclusions
finds them. -/
def inclusesSubset (incluses : List (String × String)) (fn : String) : List String :=
  incluses.foldl
    (fun flist (fn1, fn2) => if fn1 ∈ flist ∧ fn2 ∉ flist then fn2 :: flist else flist) [fn]

/-- {lit}`get_plugin_plugin_uses`. -/
def getPluginPluginUses (rootFilename : Option String) (incluses : List (String × String))
    (program : Program) (pdef : PluginDef) : List (String × String) :=
  let pname := pdef.pluginname
  let subset := inclusesSubset incluses (fnoptToFn rootFilename pdef.pluginfile)
  let plist := program.pluginList.filter fun pdef' =>
    fnoptToFn rootFilename pdef'.pluginfile ∈ subset
  plist.map fun x => (pname, x.pluginname)

/-- What is found lies on an ordered path. -/
theorem mem_inclusesSubset_iff {incluses : List (String × String)} {fn f : String} :
    f ∈ inclusesSubset incluses fn ↔ OrderedPath incluses fn f := by
  refine mem_sweep_iff.trans ⟨?_, fun h => ⟨fn, List.mem_singleton_self fn, h⟩⟩
  rintro ⟨a, ha, hpath⟩
  rwa [List.mem_singleton.mp ha] at hpath

/-- The recorded uses of a plugin. -/
theorem mem_getPluginPluginUses_iff {rootFilename : Option String}
    {incluses : List (String × String)} {program : Program} {pdef : PluginDef} {name : String} :
    (pdef.pluginname, name) ∈ getPluginPluginUses rootFilename incluses program pdef ↔
      ∃ pdef' ∈ program.pluginList, pdef'.pluginname = name ∧
        OrderedPath incluses (fnoptToFn rootFilename pdef.pluginfile)
          (fnoptToFn rootFilename pdef'.pluginfile) := by
  simp only [getPluginPluginUses, List.mem_map, List.mem_filter, decide_eq_true_eq,
    mem_inclusesSubset_iff, Prod.mk.injEq, true_and]
  constructor
  · rintro ⟨pdef', ⟨hmem, hpath⟩, hname⟩
    exact ⟨pdef', hmem, hname, hpath⟩
  · rintro ⟨pdef', hmem, hname, hpath⟩
    exact ⟨pdef', ⟨hmem, hpath⟩, hname⟩

section

variable (rootFilename : Option String) (incluses : List (String × String)) (program : Program)
  (pdef : PluginDef)

/-- The inclusions lead from the file of one plugin to that of the other. -/
def Included (pdef' : PluginDef) : Prop :=
  Relation.ReflTransGen (fun fn1 fn2 => (fn1, fn2) ∈ incluses)
    (fnoptToFn rootFilename pdef.pluginfile) (fnoptToFn rootFilename pdef'.pluginfile)

/-- The plugins reported for a plugin are those declared in the files that its own file
includes. -/
def PluginUsesExact : Prop :=
  ∀ name, (pdef.pluginname, name) ∈ getPluginPluginUses rootFilename incluses program pdef ↔
    ∃ pdef' ∈ program.pluginList, pdef'.pluginname = name ∧
      Included rootFilename incluses pdef pdef'

/-- Every plugin in an included file is in one that inclusions lead to which stand in the list
in the order in which they are followed. -/
def IncludedInOrder : Prop :=
  ∀ pdef' ∈ program.pluginList, Included rootFilename incluses pdef pdef' →
    ∃ pdef'' ∈ program.pluginList, pdef''.pluginname = pdef'.pluginname ∧
      OrderedPath incluses (fnoptToFn rootFilename pdef.pluginfile)
        (fnoptToFn rootFilename pdef''.pluginfile)

/-- The reported plugins are the right ones exactly when one pass finds them. -/
theorem pluginUses_exact_iff :
    PluginUsesExact rootFilename incluses program pdef ↔
      IncludedInOrder rootFilename incluses program pdef := by
  constructor
  · intro h pdef' hmem hincluded
    exact mem_getPluginPluginUses_iff.mp ((h pdef'.pluginname).mpr ⟨pdef', hmem, rfl, hincluded⟩)
  · intro h name
    rw [mem_getPluginPluginUses_iff]
    constructor
    · rintro ⟨pdef', hmem, hname, hpath⟩
      exact ⟨pdef', hmem, hname, hpath.reflTransGen⟩
    · rintro ⟨pdef', hmem, rfl, hincluded⟩
      exact h pdef' hmem hincluded

end

/-- The inclusions as they are recorded where {lit}`a.flux` includes {lit}`b.flux`, which
includes {lit}`c.flux`: the later one first. -/
def nestedIncludes : List (String × String) :=
  [("b.flux", "c.flux"), ("a.flux", "b.flux")]

/-- A plugin without a program, in that file. -/
def pluginIn (name file : String) : PluginDef where
  pluginname := name
  pluginfile := some file
  pluginprogramdef := {}

/-- The plugin in {lit}`c.flux` is not reported for the one in {lit}`a.flux`. -/
theorem not_pluginUsesExact_nestedIncludes :
    ¬ PluginUsesExact none nestedIncludes
        { pluginList := [pluginIn "P" "a.flux", pluginIn "Q" "c.flux"] }
        (pluginIn "P" "a.flux") := by
  intro h
  have hreported := (h "Q").mpr ⟨pluginIn "Q" "c.flux", by simp, rfl, by
    refine Relation.ReflTransGen.tail (b := "b.flux") (Relation.ReflTransGen.single ?_) ?_ <;>
      decide⟩
  revert hreported
  decide

/-! ## Modules that use modules -/

/-- {lit}`find_inst` on the instances of a module, for the modules around them. -/
def findInsts (depth : List String) (mdef : List (String × Symbol))
    (result : List (String × String)) : List (String × String) :=
  mdef.foldl (fun res entry =>
    match entry.2 with
    | .moduleInst midata => depth.map (fun x => (x, midata.modulesource)) ++ res
    | _ => res) result

mutual

/-- {lit}`find_def`. -/
def findDef (mname : String) (sym : Symbol) (state : List String × List (String × String)) :
    List String × List (String × String) :=
  match sym with
  | .moduleDef mdef =>
      let depth := mname :: state.1
      let result := (mname, mname) :: state.2
      findDefs mdef (depth, findInsts depth mdef result)
  | _ => state

/-- {lit}`fold_module_definitions find_def`. -/
def findDefs (symtable : List (String × Symbol))
    (state : List String × List (String × String)) : List String × List (String × String) :=
  match symtable with
  | [] => state
  | (mname, sym) :: rest => findDefs rest (findDef mname sym state)

end

/-- {lit}`get_module_uses_model`. -/
def getModuleUsesModel (symtable : SymbolTable) : List (String × String) :=
  symtable.entries.foldl (fun result entry => (findDef entry.1 entry.2 ([], result)).2) []

/-! ## The walk over the modules -/

/-- What a module declares instances of. -/
def instancesOf (mdef : List (String × Symbol)) : List String :=
  mdef.filterMap fun entry =>
    match entry.2 with
    | .moduleInst midata => some midata.modulesource
    | _ => none

mutual

/-- The modules in the order in which the walk comes to them, each with what it declares
instances of. -/
def walkDef (mname : String) : Symbol → List (String × List String)
  | .moduleDef mdef => (mname, instancesOf mdef) :: walk mdef
  | _ => []

/-- The modules of a table with the sources of their instances, inner modules behind outer ones. -/
def walk : List (String × Symbol) → List (String × List String)
  | [] => []
  | (mname, sym) :: rest => walkDef mname sym ++ walk rest

end

/-- The walk comes to one module. -/
def visit (state : List String × List (String × String)) (m : String × List String) :
    List String × List (String × String) :=
  (m.1 :: state.1, m.2.foldl (fun res b => (m.1 :: state.1).map (fun x => (x, b)) ++ res)
    ((m.1, m.1) :: state.2))

/-- The instances of a definition are recorded for all modules around it. -/
theorem findInsts_eq (depth : List String) (mdef : List (String × Symbol))
    (result : List (String × String)) :
    findInsts depth mdef result =
      (instancesOf mdef).foldl (fun res b => depth.map (fun x => (x, b)) ++ res) result := by
  unfold findInsts instancesOf
  rw [List.foldl_filterMap]
  congr 1
  funext res entry
  obtain ⟨name, sym⟩ := entry
  cases sym <;> rfl

mutual

theorem findDef_eq (mname : String) (sym : Symbol)
    (state : List String × List (String × String)) :
    findDef mname sym state = (walkDef mname sym).foldl visit state := by
  cases sym with
  | moduleDef mdef =>
      rw [findDef, walkDef, List.foldl_cons, findDefs_eq mdef, findInsts_eq]
      rfl
  | _ => rfl

theorem findDefs_eq (symtable : List (String × Symbol))
    (state : List String × List (String × String)) :
    findDefs symtable state = (walk symtable).foldl visit state := by
  match symtable with
  | [] => rfl
  | (mname, sym) :: rest =>
      rw [findDefs, walk, List.foldl_append, findDef_eq mname sym, findDefs_eq rest]

end

/-- A module of the walk, and what it or one after it declares an instance of. -/
def Attributed (w : List (String × List String)) (x b : String) : Prop :=
  ∃ m rest, m :: rest <:+ w ∧ m.1 = x ∧ ∃ m' ∈ m :: rest, b ∈ m'.2

/-- What is attributed with one more module in front. -/
theorem attributed_cons_iff {m : String × List String} {w : List (String × List String)}
    {x b : String} :
    Attributed (m :: w) x b ↔ (m.1 = x ∧ ∃ m' ∈ m :: w, b ∈ m'.2) ∨ Attributed w x b := by
  constructor
  · rintro ⟨m₁, rest, hsuffix, hx, hb⟩
    rcases List.suffix_cons_iff.mp hsuffix with heq | hsuffix
    · cases heq
      exact Or.inl ⟨hx, hb⟩
    · exact Or.inr ⟨m₁, rest, hsuffix, hx, hb⟩
  · rintro (⟨hx, hb⟩ | ⟨m₁, rest, hsuffix, hx, hb⟩)
    · exact ⟨m, w, List.suffix_rfl, hx, hb⟩
    · exact ⟨m₁, rest, hsuffix.trans (List.suffix_cons _ _), hx, hb⟩

/-- The pairs after the instances were recorded. -/
theorem mem_foldl_insts {depth insts : List String} {result : List (String × String)}
    {x b : String} :
    (x, b) ∈ insts.foldl (fun res b => depth.map (fun x => (x, b)) ++ res) result ↔
      (x, b) ∈ result ∨ x ∈ depth ∧ b ∈ insts := by
  induction insts generalizing result with
  | nil => simp
  | cons c insts ih =>
      rw [List.foldl_cons, ih, List.mem_append, List.mem_map, List.mem_cons]
      constructor
      · rintro ((⟨y, hy, heq⟩ | hmem) | ⟨hx, hb⟩)
        · cases heq
          exact Or.inr ⟨hy, Or.inl rfl⟩
        · exact Or.inl hmem
        · exact Or.inr ⟨hx, Or.inr hb⟩
      · rintro (hmem | ⟨hx, rfl | hb⟩)
        · exact Or.inl (Or.inr hmem)
        · exact Or.inl (Or.inl ⟨x, hx, rfl⟩)
        · exact Or.inr ⟨hx, hb⟩

/-- The pairs after a module was visited. -/
theorem mem_visit {state : List String × List (String × String)} {m : String × List String}
    {x b : String} :
    (x, b) ∈ (visit state m).2 ↔
      (x = m.1 ∧ b = m.1 ∨ (x, b) ∈ state.2) ∨ (x = m.1 ∨ x ∈ state.1) ∧ b ∈ m.2 := by
  rw [visit, mem_foldl_insts, List.mem_cons, List.mem_cons, Prod.mk.injEq]

/-- The pairs of a walk: the ones there were, each module with itself, and the instances of
each module for the module, those before it and those that the walk started with. -/
theorem mem_foldl_visit {w : List (String × List String)}
    {state : List String × List (String × String)} {x b : String} :
    (x, b) ∈ (w.foldl visit state).2 ↔
      (x, b) ∈ state.2 ∨ (x = b ∧ x ∈ w.map Prod.fst) ∨
        (x ∈ state.1 ∧ ∃ m ∈ w, b ∈ m.2) ∨ Attributed w x b := by
  induction w generalizing state with
  | nil =>
      have hnone : ¬ Attributed [] x b := by
        rintro ⟨m, rest, hsuffix, -⟩
        cases List.suffix_nil.mp hsuffix
      simp [hnone]
  | cons m w ih =>
      rw [List.foldl_cons, ih, attributed_cons_iff, mem_visit, List.map_cons, List.mem_cons]
      have hstate : (visit state m).1 = m.1 :: state.1 := rfl
      rw [hstate, List.mem_cons]
      simp only [List.mem_cons, exists_eq_or_imp]
      grind

/-- The walks over the modules of a table, one for each. -/
def AttributedIn (symtable : SymbolTable) (x b : String) : Prop :=
  ∃ entry ∈ symtable.entries, Attributed (walkDef entry.1 entry.2) x b

/-- The uses model pairs a module with itself and with what is attributed to it. -/
theorem mem_getModuleUsesModel_iff {symtable : SymbolTable} {x b : String} :
    (x, b) ∈ getModuleUsesModel symtable ↔
      (x = b ∧ ∃ entry ∈ symtable.entries, x ∈ (walkDef entry.1 entry.2).map Prod.fst) ∨
        AttributedIn symtable x b := by
  have hfold : ∀ (entries : List (String × Symbol)) (result : List (String × String)),
      (x, b) ∈ entries.foldl (fun result entry => (findDef entry.1 entry.2 ([], result)).2)
          result ↔
        (x, b) ∈ result ∨ (x = b ∧ ∃ entry ∈ entries, x ∈ (walkDef entry.1 entry.2).map Prod.fst) ∨
          ∃ entry ∈ entries, Attributed (walkDef entry.1 entry.2) x b := by
    intro entries
    induction entries with
    | nil => simp
    | cons entry entries ih =>
        intro result
        rw [List.foldl_cons, ih, findDef_eq, mem_foldl_visit]
        simp only [List.mem_cons, exists_eq_or_imp, List.not_mem_nil, false_and, false_or]
        grind
  rw [getModuleUsesModel, hfold]
  simp [AttributedIn]

/-! ## The modules of a table -/

/-- A module that a table or one of its modules defines. -/
inductive Defines : List (String × Symbol) → String → List (String × Symbol) → Prop where
  | here {symtable : List (String × Symbol)} {name : String} {mdef : List (String × Symbol)} :
      (name, .moduleDef mdef) ∈ symtable → Defines symtable name mdef
  | nested {symtable : List (String × Symbol)} {outer name : String}
      {around mdef : List (String × Symbol)} :
      (outer, .moduleDef around) ∈ symtable → Defines around name mdef →
        Defines symtable name mdef

/-- The name is that of a module. -/
def IsModule (symtable : SymbolTable) (name : String) : Prop :=
  ∃ mdef, Defines symtable.entries name mdef

/-- A module uses what it, or a module nested in it, declares an instance of. -/
def Uses (symtable : SymbolTable) (x b : String) : Prop :=
  ∃ mdef, Defines symtable.entries x mdef ∧
    (b ∈ instancesOf mdef ∨ ∃ name inner, Defines mdef name inner ∧ b ∈ instancesOf inner)

/-- The walk visits the definitions of every entry. -/
theorem mem_walk_iff {symtable : List (String × Symbol)} {m : String × List String} :
    m ∈ walk symtable ↔ ∃ entry ∈ symtable, m ∈ walkDef entry.1 entry.2 := by
  induction symtable with
  | nil => simp [walk]
  | cons entry rest ih =>
      obtain ⟨mname, sym⟩ := entry
      rw [walk, List.mem_append, ih]
      simp

/-- The modules of one entry are visited together. -/
theorem walkDef_infix_walk {symtable : List (String × Symbol)} {entry : String × Symbol}
    (h : entry ∈ symtable) : walkDef entry.1 entry.2 <:+: walk symtable := by
  induction symtable with
  | nil => cases h
  | cons first rest ih =>
      obtain ⟨mname, sym⟩ := first
      rw [walk]
      rcases List.mem_cons.mp h with rfl | h
      · exact (List.prefix_append _ _).isInfix
      · exact (ih h).trans (List.suffix_append _ _).isInfix

/-- The walk comes to a module right before the modules nested in it. -/
theorem infix_walk_of_defines {symtable : List (String × Symbol)} {name : String}
    {mdef : List (String × Symbol)} (h : Defines symtable name mdef) :
    ∃ entry ∈ symtable, (name, instancesOf mdef) :: walk mdef <:+: walkDef entry.1 entry.2 := by
  induction h with
  | @here symtable name mdef hmem =>
      refine ⟨(name, .moduleDef mdef), hmem, ?_⟩
      rw [walkDef]
  | @nested symtable outer name around mdef hmem _ ih =>
      obtain ⟨entry, hentry, hinside⟩ := ih
      refine ⟨(outer, .moduleDef around), hmem, ?_⟩
      rw [walkDef]
      exact (hinside.trans (walkDef_infix_walk hentry)).trans (List.suffix_cons _ _).isInfix

mutual

/-- A module visited in an entry is defined there. -/
theorem defines_of_mem_walkDef {mname : String} (sym : Symbol) {m : String × List String}
    (h : m ∈ walkDef mname sym) :
    ∃ mdef, m.2 = instancesOf mdef ∧ Defines [(mname, sym)] m.1 mdef := by
  cases sym with
  | moduleDef mdef =>
      rw [walkDef] at h
      rcases List.mem_cons.mp h with rfl | h
      · exact ⟨mdef, rfl, .here List.mem_cons_self⟩
      · obtain ⟨inner, hm, hdef⟩ := defines_of_mem_walk mdef h
        exact ⟨inner, hm, .nested List.mem_cons_self hdef⟩
  | _ =>
      rw [walkDef] at h
      · cases h
      · intro mdef heq
        cases heq

/-- A module visited is defined. -/
theorem defines_of_mem_walk (symtable : List (String × Symbol)) {m : String × List String}
    (h : m ∈ walk symtable) :
    ∃ mdef, m.2 = instancesOf mdef ∧ Defines symtable m.1 mdef := by
  match symtable with
  | [] => rw [walk] at h; cases h
  | (mname, sym) :: rest =>
      rw [walk, List.mem_append] at h
      rcases h with h | h
      · obtain ⟨mdef, hm, hdef⟩ := defines_of_mem_walkDef sym h
        refine ⟨mdef, hm, ?_⟩
        cases hdef with
        | here hmem => exact .here (List.mem_cons.mpr (Or.inl (List.mem_singleton.mp hmem)))
        | nested hmem hinner =>
            exact .nested (List.mem_cons.mpr (Or.inl (List.mem_singleton.mp hmem))) hinner
      · obtain ⟨mdef, hm, hdef⟩ := defines_of_mem_walk rest h
        refine ⟨mdef, hm, ?_⟩
        cases hdef with
        | here hmem => exact .here (List.mem_cons_of_mem _ hmem)
        | nested hmem hinner => exact .nested (List.mem_cons_of_mem _ hmem) hinner

end

/-- What a module uses, the walk attributes to it. -/
theorem attributedIn_of_uses {symtable : SymbolTable} {x b : String} (h : Uses symtable x b) :
    AttributedIn symtable x b := by
  obtain ⟨mdef, hdef, hb⟩ := h
  obtain ⟨entry, hentry, l₁, l₂, hwalk⟩ := infix_walk_of_defines hdef
  refine ⟨entry, hentry, (x, instancesOf mdef), walk mdef ++ l₂, ⟨l₁, ?_⟩, rfl, ?_⟩
  · rw [← hwalk, List.append_assoc, List.cons_append]
  · rcases hb with hb | ⟨name, inner, hinner, hb⟩
    · exact ⟨_, List.mem_cons_self, hb⟩
    · obtain ⟨entry', hentry', hinside⟩ := infix_walk_of_defines hinner
      refine ⟨(name, instancesOf inner), ?_, hb⟩
      have hmem : (name, instancesOf inner) ∈ walk mdef :=
        mem_walk_iff.mpr ⟨entry', hentry', hinside.subset List.mem_cons_self⟩
      exact List.mem_cons_of_mem _ (List.mem_append_left _ hmem)

/-- The modules are those visited. -/
theorem isModule_iff {symtable : SymbolTable} {name : String} :
    IsModule symtable name ↔
      ∃ entry ∈ symtable.entries, name ∈ (walkDef entry.1 entry.2).map Prod.fst := by
  constructor
  · rintro ⟨mdef, hdef⟩
    obtain ⟨entry, hentry, hinside⟩ := infix_walk_of_defines hdef
    exact ⟨entry, hentry, List.mem_map_of_mem (hinside.subset List.mem_cons_self)⟩
  · rintro ⟨entry, hentry, hname⟩
    obtain ⟨m, hm, rfl⟩ := List.mem_map.mp hname
    obtain ⟨mdef, -, hdef⟩ :=
      defines_of_mem_walk symtable.entries (mem_walk_iff.mpr ⟨entry, hentry, hm⟩)
    exact ⟨mdef, hdef⟩

/-- Whoever uses a module is one. -/
theorem Uses.isModule {symtable : SymbolTable} {x b : String} (h : Uses symtable x b) :
    IsModule symtable x :=
  ⟨h.choose, h.choose_spec.1⟩

section

variable (symtable : SymbolTable)

/-- The pairs of modules are the reflexive and transitive closure of the direct uses. -/
def ModuleUsesClosure : Prop :=
  ∀ x b, IsModule symtable x → IsModule symtable b →
    ((x, b) ∈ getModuleUsesModel symtable ↔ x = b ∨ Relation.TransGen (Uses symtable) x b)

/-- In each walk a module reaches whatever module one after it declares an instance of. -/
def ReachesLater : Prop :=
  ∀ entry ∈ symtable.entries, ∀ m rest, m :: rest <:+ walkDef entry.1 entry.2 →
    ∀ m' ∈ rest, ∀ b ∈ m'.2, IsModule symtable b →
      m.1 = b ∨ Relation.TransGen (Uses symtable) m.1 b

/-- What the modules use that are attributed to a module is attributed to it as well. -/
def AttributesUses : Prop :=
  ∀ x b c, IsModule symtable x → IsModule symtable c →
    x = b ∨ AttributedIn symtable x b → Uses symtable b c → x = c ∨ AttributedIn symtable x c

/-- The walk finds the closure exactly when it attributes to each module what it reaches, and
nothing else. -/
theorem moduleUses_closure_iff :
    ModuleUsesClosure symtable ↔ ReachesLater symtable ∧ AttributesUses symtable := by
  have hpairs : ∀ x b, IsModule symtable x → ((x, b) ∈ getModuleUsesModel symtable ↔
      x = b ∨ AttributedIn symtable x b) := by
    intro x b hx
    rw [mem_getModuleUsesModel_iff, ← isModule_iff, and_iff_left hx]
  constructor
  · intro h
    constructor
    · intro entry hentry m rest hsuffix m' hm' b hb hmodule
      have hm : IsModule symtable m.1 :=
        isModule_iff.mpr ⟨entry, hentry, List.mem_map_of_mem (hsuffix.subset List.mem_cons_self)⟩
      refine (h m.1 b hm hmodule).mp ((hpairs m.1 b hm).mpr (Or.inr ?_))
      exact ⟨entry, hentry, m, rest, hsuffix, rfl, m', List.mem_cons_of_mem _ hm', hb⟩
    · intro x b c hx hc hxb hbc
      have hreach := (h x b hx hbc.isModule).mp ((hpairs x b hx).mpr hxb)
      refine (hpairs x c hx).mp ((h x c hx hc).mpr (Or.inr ?_))
      rcases hreach with rfl | hreach
      · exact Relation.TransGen.single hbc
      · exact hreach.tail hbc
  · rintro ⟨hlater, huses⟩ x b hx hb
    rw [hpairs x b hx]
    constructor
    · rintro (rfl | ⟨entry, hentry, m, rest, hsuffix, rfl, m', hm', hmb⟩)
      · exact Or.inl rfl
      · rcases List.mem_cons.mp hm' with rfl | hm'
        · have hmem : m' ∈ walk symtable.entries :=
            mem_walk_iff.mpr ⟨entry, hentry, hsuffix.subset List.mem_cons_self⟩
          obtain ⟨mdef, hinsts, hdef⟩ := defines_of_mem_walk symtable.entries hmem
          exact Or.inr (Relation.TransGen.single ⟨mdef, hdef, Or.inl (hinsts ▸ hmb)⟩)
        · exact hlater entry hentry m rest hsuffix m' hm' b hmb hb
    · rintro (rfl | hreach)
      · exact Or.inl rfl
      · clear hpairs
        -- the last use is added to what the uses before it were attributed to
        induction hreach with
        | single hxb => exact huses x x _ hx hb (Or.inl rfl) hxb
        | tail _ hbc ih => exact huses x _ _ hx hb (ih hbc.isModule) hbc

end

/-- {lit}`A` has an instance of {lit}`B`, which has one of {lit}`C`. -/
def chainOfModules : Program where
  modDefList :=
    [{ modulename := "C", isstaticmodule := false, programdef := {} },
     { modulename := "B", isstaticmodule := false,
       programdef := { modInstList := [{ modsourcename := "C", modinstname := "c" }] } },
     { modulename := "A", isstaticmodule := false,
       programdef := { modInstList := [{ modsourcename := "B", modinstname := "b" }] } }]

/-- The symbol table of these modules. -/
def chainTable : SymbolTable :=
  (SymbolTable.addProgram (SortedMap.empty, 1) chainOfModules).1

/-- The entries of the example. -/
theorem chainTable_entries : chainTable.entries =
    [("A", .moduleDef [("b", .moduleInst ⟨"B"⟩)]), ("B", .moduleDef [("c", .moduleInst ⟨"C"⟩)]),
      ("C", .moduleDef [])] :=
  rfl

/-- The walk does not relate {lit}`A` to {lit}`C`. -/
theorem not_moduleUsesClosure_chainTable : ¬ ModuleUsesClosure chainTable := by
  intro h
  have hA : Defines chainTable.entries "A" [("b", .moduleInst ⟨"B"⟩)] :=
    .here (by rw [chainTable_entries]; exact List.mem_cons_self)
  have hB : Defines chainTable.entries "B" [("c", .moduleInst ⟨"C"⟩)] :=
    .here (by rw [chainTable_entries]; exact List.mem_cons_of_mem _ List.mem_cons_self)
  have hC : Defines chainTable.entries "C" [] :=
    .here (by rw [chainTable_entries]; simp)
  have hAB : Uses chainTable "A" "B" := ⟨_, hA, Or.inl List.mem_cons_self⟩
  have hBC : Uses chainTable "B" "C" := ⟨_, hB, Or.inl List.mem_cons_self⟩
  have hmem := (h "A" "C" ⟨_, hA⟩ ⟨_, hC⟩).mpr
    (Or.inr ((Relation.TransGen.single hAB).tail hBC))
  rw [getModuleUsesModel, chainTable_entries] at hmem
  revert hmem
  decide

end UsesModel
end Frontend
end OFlux
