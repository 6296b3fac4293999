import OFlux.Frontend.Flatten

/-!
# Uninterpreted arguments

The key and the condition of a guard reference are C++ text that the compiler does not parse.  It
only marks the tokens that are parameters of the node, and those that are local names of its guard
references.  The runs of other tokens are put together.

Main results:

- Theorem {lit}`Fragments.join_text`: fragments have the text of the tokens.
- Theorem {lit}`cleanCppUninterpreted_fragments`: each token is in a fragment of its kind.
- Theorem {lit}`gargs_toGuardRef`: the guards that a reference mentions, from its tokens.
-/

namespace OFlux
namespace Frontend

/-- A guard reference as it is parsed, with its texts as lists of tokens. -/
structure ParsedGuardRef where
  guardname : String
  arguments : List (List String) := []
  modifiers : List GuardMod := []
  localgname : Option String := none
  guardcond : List String := []

namespace UninterpretedCpp

/-! ## The fragments of a text -/

/-- The names of the parameters. -/
def strargs (args : List DeclFormal) : List String :=
  args.map DeclFormal.name

/-- The local names of the guards that may be mentioned. -/
def strgargs (grefs : List ParsedGuardRef) : List String :=
  "self" :: grefs.map fun gr => gr.localgname.getD gr.guardname

section

variable (strargs strgargs : List String)

/-- What a token is. -/
def fragment (isarg isgarg : Bool) (x : String) : UninterpExpr :=
  if isarg then .arg x else if isgarg then .gArg x else .context x

/-- {lit}`on_str_list'`, on a list that has a first token. -/
def onStrList' (firstisarg firstisgarg : Bool) (h1 : String) : List String → List UninterpExpr
  | h2 :: tl =>
      let h2isarg := decide (h2 ∈ strargs)
      let h2isgarg := !h2isarg && decide (h2 ∈ strgargs)
      if firstisarg || firstisgarg || h2isarg || h2isgarg then
        fragment firstisarg firstisgarg h1 :: onStrList' h2isarg h2isgarg h2 tl
      else onStrList' false false (h1 ++ h2) tl
  | [] => [fragment firstisarg firstisgarg h1]

/-- The fragments of a text, without an empty one in front. -/
def onStrList (strl : List String) : List UninterpExpr :=
  match onStrList' strargs strgargs false false "" strl with
  | .context "" :: tl => tl
  | res => res

end

/-- The fragments of a text of a guard reference. -/
def cleanCppUninterpreted (args : List DeclFormal) (grefs : List ParsedGuardRef)
    (strl : List String) : List UninterpExpr :=
  onStrList (strargs args) (strgargs grefs) strl

/-- The guard reference of the declared node. -/
def toGuardRef (args : List DeclFormal) (grefs : List ParsedGuardRef) (gr : ParsedGuardRef) :
    GuardRef where
  guardname := gr.guardname
  arguments := gr.arguments.map (cleanCppUninterpreted args grefs)
  modifiers := gr.modifiers
  localgname := gr.localgname
  guardcond := cleanCppUninterpreted args grefs gr.guardcond

/-! ## What the fragments are -/

/-- The text of a fragment. -/
def text : UninterpExpr → String
  | .arg x => x
  | .gArg x => x
  | .context x => x

variable {args gargs : List String}

/-- A token that is neither a parameter nor a guard. -/
def Plain (args gargs : List String) (t : String) : Prop :=
  t ∉ args ∧ t ∉ gargs

/-- Parameters and guards have fragments of their own, and the other tokens are in the longest
runs. -/
inductive Fragments (args gargs : List String) : List String → List UninterpExpr → Prop where
  | nil : Fragments args gargs [] []
  | arg {t : String} {toks : List String} {frs : List UninterpExpr} :
      t ∈ args → Fragments args gargs toks frs → Fragments args gargs (t :: toks) (.arg t :: frs)
  | gArg {t : String} {toks : List String} {frs : List UninterpExpr} :
      t ∉ args → t ∈ gargs → Fragments args gargs toks frs →
      Fragments args gargs (t :: toks) (.gArg t :: frs)
  | context {run toks : List String} {frs : List UninterpExpr} :
      run ≠ [] → (∀ t ∈ run, Plain args gargs t) → (∀ t ∈ toks.head?, ¬ Plain args gargs t) →
      Fragments args gargs toks frs →
      Fragments args gargs (run ++ toks) (.context (String.join run) :: frs)

/-- The fragments have the text of the tokens. -/
theorem Fragments.join_text {toks : List String} {frs : List UninterpExpr}
    (h : Fragments args gargs toks frs) : String.join (frs.map text) = String.join toks := by
  induction h with
  | nil => rfl
  | arg _ _ ih => rw [List.map_cons, String.join_cons, String.join_cons, ih, text]
  | gArg _ _ _ ih => rw [List.map_cons, String.join_cons, String.join_cons, ih, text]
  | context _ _ _ _ ih => rw [List.map_cons, String.join_cons, String.join_append, ih, text]

/-- The tokens that are guards, in their order. -/
theorem Fragments.filterMap_gArg {toks : List String} {frs : List UninterpExpr}
    (h : Fragments args gargs toks frs) :
    (frs.filterMap fun | .gArg ga => some ga | _ => none) =
      toks.filter fun t => decide (t ∉ args ∧ t ∈ gargs) := by
  induction h with
  | nil => rfl
  | arg ht _ ih => simpa [ht] using ih
  | gArg hargs hgargs _ ih => simpa [hargs, hgargs] using ih
  | @context run toks frs _ hplain _ _ ih =>
      have hrun : (run.filter fun t => decide (t ∉ args ∧ t ∈ gargs)) = [] :=
        List.filter_eq_nil_iff.mpr fun t ht => by simp [(hplain t ht).2]
      rw [List.filter_append, hrun, List.nil_append, ← ih]
      rfl

/-! ## The rewriting -/

/-- The flags of a token. -/
theorem flags_eq_false_iff {t : String} :
    (decide (t ∈ args) || !decide (t ∈ args) && decide (t ∈ gargs)) = false ↔
      Plain args gargs t := by
  by_cases hargs : t ∈ args <;> simp [Plain, hargs]

theorem Fragments.cons {t : String} {toks : List String} {frs : List UninterpExpr}
    (ht : ¬ Plain args gargs t) (h : Fragments args gargs toks frs) :
    Fragments args gargs (t :: toks)
      (fragment (decide (t ∈ args)) (!decide (t ∈ args) && decide (t ∈ gargs)) t :: frs) := by
  by_cases hargs : t ∈ args
  · simpa [fragment, hargs] using h.arg hargs
  · have hgargs : t ∈ gargs := by
      by_contra hgargs
      exact ht ⟨hargs, hgargs⟩
    simpa [fragment, hargs, hgargs] using h.gArg hargs hgargs

/-- The rest of a text behind a token, which is a parameter or a guard or belongs to a run. -/
structure Rewritten (args gargs toks : List String) : Prop where
  marked : ∀ t, ¬ Plain args gargs t → Fragments args gargs (t :: toks)
    (onStrList' args gargs (decide (t ∈ args)) (!decide (t ∈ args) && decide (t ∈ gargs)) t toks)
  plain : ∀ sofar, ∃ run rest frs, toks = run ++ rest ∧ (∀ t ∈ run, Plain args gargs t) ∧
    (∀ t ∈ rest.head?, ¬ Plain args gargs t) ∧ Fragments args gargs rest frs ∧
    onStrList' args gargs false false sofar toks = .context (sofar ++ String.join run) :: frs

/-- The fragments from a token on, with its flags. -/
theorem Rewritten.fragments {toks : List String} (h : Rewritten args gargs toks) (t : String) :
    Fragments args gargs (t :: toks) (onStrList' args gargs (decide (t ∈ args))
      (!decide (t ∈ args) && decide (t ∈ gargs)) t toks) := by
  by_cases ht : Plain args gargs t
  · obtain ⟨run, rest, frs, rfl, hrun, hrest, hfrs, heq⟩ := h.plain t
    have hflags : decide (t ∈ args) = false ∧ decide (t ∈ gargs) = false :=
      ⟨decide_eq_false ht.1, decide_eq_false ht.2⟩
    rw [hflags.1, hflags.2, Bool.and_false, heq, ← String.join_cons]
    exact .context (List.cons_ne_nil t run) (List.forall_mem_cons.mpr ⟨ht, hrun⟩) hrest hfrs
  · exact h.marked t ht

/-- Tokens can be rewritten. -/
theorem rewritten (args gargs toks : List String) : Rewritten args gargs toks := by
  induction toks with
  | nil =>
      refine ⟨fun t ht => ?_, fun sofar => ⟨[], [], [], rfl, ?_, ?_, .nil, ?_⟩⟩
      · exact Fragments.nil.cons ht
      · exact fun _ h => nomatch h
      · exact fun _ h => nomatch h
      · rw [String.join_nil, String.append_empty]
        rfl
  | cons h2 tl ih =>
      refine ⟨fun t ht => ?_, fun sofar => ?_⟩
      · have hflags := Bool.eq_true_of_not_eq_false (mt flags_eq_false_iff.mp ht)
        rw [onStrList', Bool.or_assoc, hflags]
        exact (ih.fragments h2).cons ht
      · by_cases hplain : Plain args gargs h2
        · -- the token is put behind those before it
          obtain ⟨run, rest, frs, rfl, hrun, hrest, hfrs, heq⟩ := ih.plain (sofar ++ h2)
          refine ⟨h2 :: run, rest, frs, rfl, List.forall_mem_cons.mpr ⟨hplain, hrun⟩, hrest, hfrs,
            ?_⟩
          rw [onStrList', Bool.or_assoc, flags_eq_false_iff.mpr hplain, String.join_cons,
            ← String.append_assoc, ← heq]
          rfl
        · refine ⟨[], h2 :: tl, _, rfl, ?_, ?_, ih.fragments h2, ?_⟩
          · exact fun _ h => nomatch h
          · rintro t ht
            obtain rfl := Option.some.inj ht
            exact hplain
          · have hflags := Bool.eq_true_of_not_eq_false (mt flags_eq_false_iff.mp hplain)
            rw [onStrList', Bool.or_assoc, hflags, String.join_nil, String.append_empty]
            rfl

/-- The rewritten list is one of fragments. -/
theorem fragments_onStrList {strl : List String} (hne : ∀ t ∈ strl, t ≠ "") :
    Fragments args gargs strl (onStrList args gargs strl) := by
  obtain ⟨run, rest, frs, rfl, hrun, hrest, hfrs, heq⟩ := (rewritten args gargs strl).plain ""
  rw [String.empty_append] at heq
  cases run with
  | nil =>
      -- the empty text in front of a marked token is dropped
      rw [onStrList, heq]
      exact hfrs
  | cons t run =>
      have htext : String.join (t :: run) ≠ "" := by
        rw [String.join_cons, Ne, String.append_eq_empty_iff]
        exact fun h => hne t List.mem_cons_self h.1
      have hkept : onStrList args gargs (t :: run ++ rest) =
          .context (String.join (t :: run)) :: frs := by
        rw [onStrList, heq]
        split
        next h => exact absurd (UninterpExpr.context.inj (List.cons.inj h).1) htext
        next => rfl
      rw [hkept]
      exact .context (List.cons_ne_nil t run) hrun hrest hfrs

/-- The text is kept, parameters and guards have fragments of their own, and the rest is context. -/
theorem cleanCppUninterpreted_fragments (args : List DeclFormal) (grefs : List ParsedGuardRef)
    (strl : List String) (hne : ∀ t ∈ strl, t ≠ "") :
    String.join ((cleanCppUninterpreted args grefs strl).map text) = String.join strl ∧
      Fragments (strargs args) (strgargs grefs) strl (cleanCppUninterpreted args grefs strl) :=
  ⟨(fragments_onStrList hne).join_text, fragments_onStrList hne⟩

/-- A key with a parameter and a guard of its node. -/
theorem cleanCppUninterpreted_fragments_key :
    String.join ((cleanCppUninterpreted [{ ctypemod := "", ctype := "int", name := "x" }]
        [{ guardname := "Lock", localgname := some "lock" }]
        ["hash", "(", "x", ")", "+", "lock", "->", "id"]).map text) =
      String.join ["hash", "(", "x", ")", "+", "lock", "->", "id"] ∧
    Fragments ["x"] ["self", "lock"] ["hash", "(", "x", ")", "+", "lock", "->", "id"]
      (cleanCppUninterpreted [{ ctypemod := "", ctype := "int", name := "x" }]
        [{ guardname := "Lock", localgname := some "lock" }]
        ["hash", "(", "x", ")", "+", "lock", "->", "id"]) :=
  cleanCppUninterpreted_fragments _ _ _ (by decide)

example :
    onStrList ["x"] ["self", "lock"] ["hash", "(", "x", ")", "+", "lock", "->", "id"] =
      [.context "hash(", .arg "x", .context ")+", .gArg "lock", .context "->id"] := by
  decide

/-- The guards that a reference mentions are the tokens that are local names of guards, and no
parameters. -/
theorem gargs_toGuardRef (args : List DeclFormal) (grefs : List ParsedGuardRef)
    {gr : ParsedGuardRef} (hne : ∀ strl ∈ gr.guardcond :: gr.arguments, ∀ t ∈ strl, t ≠ "") :
    Flatten.GuardRef.gargs (toGuardRef args grefs gr) =
      (gr.guardcond :: gr.arguments).flatten.filter fun t =>
        decide (t ∉ strargs args ∧ t ∈ strgargs grefs) := by
  have hmap : (toGuardRef args grefs gr).guardcond :: (toGuardRef args grefs gr).arguments =
      (gr.guardcond :: gr.arguments).map (cleanCppUninterpreted args grefs) := rfl
  rw [Flatten.GuardRef.gargs, hmap]
  generalize gr.guardcond :: gr.arguments = texts at hne
  induction texts with
  | nil => rfl
  | cons strl rest ih =>
      rw [List.forall_mem_cons] at hne
      rw [List.map_cons, List.flatten_cons, List.filterMap_append, List.flatten_cons,
        List.filter_append, ih hne.2]
      exact congrArg (· ++ _) (fragments_onStrList hne.1).filterMap_gArg

end UninterpretedCpp
end Frontend
end OFlux
