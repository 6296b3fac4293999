import Mathlib.Data.List.Infix
import Mathlib.Data.List.Sort
import OFlux.Library.Acyclic
import OFlux.Library.Fallible
import OFlux.Reader.Reading

/-!
# Reading a directory of plugins

A plugin file declares a library, the plugins that it depends on, and nodes.  The files that it
depends on are read in the middle of it, before its library and its nodes are added.  A file that is
read for a dependency is entered into a record of its own; that a file has been read shows in the
libraries of the flow.

Main results:

- Theorem {lit}`PluginSource.readxmldir_stable`: the recursion is not deeper than there are files.
- Theorem {lit}`PluginSource.readsFile_readxmlfile`: what a reading that succeeds adds, and in which
  order.
- Theorem {lit}`PluginSource.exists_of_readxmlfile_eq_error`: a reading fails only for a cycle.
- Theorem {lit}`PluginSource.readsRight`: when a directory is read right.
-/

namespace OFlux
namespace Reader

open Library

/-! ## Files -/

/-- The characters of a string that ends with a null. -/
abbrev CString := List Char

/-- The C library search for a substring. -/
def strstr (haystack needle : CString) : Bool := decide (needle <:+: haystack)

/-- A plugin file, which has the name of its library.  The elements {lit}`depend` stand inside of
the library, the nodes behind it. -/
structure PluginFile where
  library : CString
  depends : List CString
  nodes : List Node
deriving DecidableEq

/-- A directory with the files in the order in which {lit}`nextXmlFile` lists them.  There is one
file of each name. -/
structure PluginSource where
  dir : CString
  files : List PluginFile
  nodup : (files.map PluginFile.library).Nodup

/-- The ending of a plugin file. -/
def dotXml : CString := ['.', 'x', 'm', 'l']

/-- Why reading stops: a {lit}`ReaderException`, the exception of a {lit}`std::string` that is made
of a null pointer, or that the recursion is too deep for the model. -/
inductive LoadFailure where
  | readerException (mesg : ReaderException)
  | logicError
  | outOfFuel
deriving DecidableEq

/-- The record of the {lit}`DependencyTracker`, and the libraries and nodes of the flow. -/
structure Loading where
  dependsSet : List CString := []
  libraries : List CString := []
  flow : Flow

/-- Get rid of a leading {lit}`./`. -/
def canonize : CString → CString
  | '.' :: '/' :: rest => rest
  | filename => filename

namespace Loading

/-- Adds a file to the dependencies, under its canonical name. -/
def addDependency (s : Loading) (fl : CString) : Loading :=
  { s with dependsSet := canonize fl :: s.dependsSet }

/-- Some plugin depends on the file. -/
def isDependency (s : Loading) (fl : CString) : Bool :=
  decide (canonize fl ∈ s.dependsSet)

/-- A library of this name is loaded. -/
def haveLibrary (s : Loading) (name : CString) : Bool :=
  decide (name ∈ s.libraries)

/-- Adds the nodes of a file to the flow. -/
def addNodes (flow : Flow) (file : PluginFile) : Flow :=
  file.nodes.foldl Flow.addNode flow

/-- The library and the nodes of a file are added. -/
def addContents (s : Loading) (file : PluginFile) : Loading :=
  { s with
    libraries := s.libraries ++ [file.library]
    flow := addNodes s.flow file }

end Loading

namespace PluginSource

variable (source : PluginSource)

/-- The path of a file in the directory. -/
def path (file : PluginFile) : CString := source.dir ++ '/' :: (file.library ++ dotXml)

/-- The first file whose path has the name of the plugin in it. -/
def candidate (pluginName : CString) : Option PluginFile :=
  source.files.find? fun file => strstr (source.path file) ('/' :: (pluginName ++ dotXml))

/-- {lit}`readPluginIfUnread`, with what reads a file. -/
def readPluginIfUnread (readxmlfile : Loading → PluginFile → Except LoadFailure Loading)
    (s : Loading) (pluginName : CString) : Except LoadFailure Loading :=
  match source.candidate pluginName with
  | none => .error .logicError
  | some depxml =>
      if s.haveLibrary pluginName then .ok s
      else if s.isDependency (source.path depxml) then
        .error (.readerException (String.ofList (source.path depxml) ++
          " circular dependency -- already loading"))
      else readxmlfile (s.addDependency (source.path depxml)) depxml

/-- {lit}`readxmlfile` for a plugin file, to a depth of recursion. -/
def readxmlfile : Nat → Loading → PluginFile → Except LoadFailure Loading
  | 0, _, _ => .error .outOfFuel
  | fuel + 1, s, file => do
      let s ← file.depends.foldlM (source.readPluginIfUnread (readxmlfile fuel)) s
      pure (s.addContents file)

/-- The files of the set, in the order of their paths. -/
def sortedFiles : List PluginFile :=
  source.files.insertionSort fun a b => source.path a ≤ source.path b

/-- The loop of {lit}`readxmldir`, for the files from one on. -/
def readFiles (fuel : Nat) (s : Loading) (files : List PluginFile) : Except LoadFailure Loading :=
  files.foldlM (fun s file =>
    if s.isDependency (source.path file) then pure s else source.readxmlfile fuel s file) s

/-- Reads the files of the directory in the order of their names. -/
def readxmldir (fuel : Nat) (s : Loading) : Except LoadFailure Loading :=
  source.readFiles fuel s source.sortedFiles

/-- What is there after the file of the flow was read. -/
def start (filename : CString) (flow : Flow) : Loading :=
  ({ flow := flow } : Loading).addDependency filename

/-! ## Termination -/

/-- The files that are not yet entered as dependencies. -/
def unvisited (s : Loading) : List PluginFile :=
  source.files.filter fun file => !s.isDependency (source.path file)

variable {source} {s s' : Loading} {file : PluginFile} {fuel : Nat}

/-- The file looked for is one of the directory. -/
theorem candidate_mem {pluginName : CString} (h : source.candidate pluginName = some file) :
    file ∈ source.files :=
  List.mem_of_find?_eq_some h

section ReadPluginIfUnread

variable {read : Loading → PluginFile → Except LoadFailure Loading} {pluginName : CString}
  {depxml : PluginFile}

/-- A plugin without a file is a logic error. -/
theorem readPluginIfUnread_of_none (h : source.candidate pluginName = none) :
    source.readPluginIfUnread read s pluginName = .error .logicError := by
  rw [readPluginIfUnread, h]

section Candidate

variable (h : source.candidate pluginName = some depxml)
include h

/-- A loaded plugin is not read again. -/
theorem readPluginIfUnread_of_have (hlibrary : s.haveLibrary pluginName = true) :
    source.readPluginIfUnread read s pluginName = .ok s := by
  rw [readPluginIfUnread, h]
  exact if_pos hlibrary

/-- A plugin that is being loaded is refused. -/
theorem readPluginIfUnread_of_dependency (hlibrary : s.haveLibrary pluginName = false)
    (hdep : s.isDependency (source.path depxml) = true) :
    source.readPluginIfUnread read s pluginName =
      .error (.readerException (String.ofList (source.path depxml) ++
        " circular dependency -- already loading")) := by
  rw [readPluginIfUnread, h]
  exact (if_neg (by rw [hlibrary]; exact Bool.false_ne_true)).trans (if_pos hdep)

/-- Any other plugin is read. -/
theorem readPluginIfUnread_of_unread (hlibrary : s.haveLibrary pluginName = false)
    (hdep : s.isDependency (source.path depxml) = false) :
    source.readPluginIfUnread read s pluginName =
      read (s.addDependency (source.path depxml)) depxml := by
  rw [readPluginIfUnread, h]
  exact (if_neg (by rw [hlibrary]; exact Bool.false_ne_true)).trans
    (if_neg (by rw [hdep]; exact Bool.false_ne_true))

end Candidate

/-- What {lit}`readPluginIfUnread` comes to when it succeeds. -/
theorem exists_of_readPluginIfUnread_eq_ok
    (h : source.readPluginIfUnread read s pluginName = .ok s') :
    ∃ depxml, source.candidate pluginName = some depxml ∧
      (s.haveLibrary pluginName = true ∧ s' = s ∨
        s.haveLibrary pluginName = false ∧ s.isDependency (source.path depxml) = false ∧
          read (s.addDependency (source.path depxml)) depxml = .ok s') := by
  cases hcandidate : source.candidate pluginName with
  | none =>
      rw [readPluginIfUnread_of_none hcandidate] at h
      cases h
  | some depxml =>
      refine ⟨depxml, rfl, ?_⟩
      cases hlibrary : s.haveLibrary pluginName with
      | true =>
          rw [readPluginIfUnread_of_have hcandidate hlibrary] at h
          cases h
          exact Or.inl ⟨rfl, rfl⟩
      | false =>
          cases hdep : s.isDependency (source.path depxml) with
          | true =>
              rw [readPluginIfUnread_of_dependency hcandidate hlibrary hdep] at h
              cases h
          | false =>
              rw [readPluginIfUnread_of_unread hcandidate hlibrary hdep] at h
              exact Or.inr ⟨rfl, rfl, h⟩

/-- How {lit}`readPluginIfUnread` fails. -/
theorem exists_of_readPluginIfUnread_eq_error {e : LoadFailure}
    (h : source.readPluginIfUnread read s pluginName = .error e) :
    source.candidate pluginName = none ∧ e = .logicError ∨
      ∃ depxml, source.candidate pluginName = some depxml ∧ s.haveLibrary pluginName = false ∧
        (s.isDependency (source.path depxml) = true ∧ (∃ mesg, e = .readerException mesg) ∨
          s.isDependency (source.path depxml) = false ∧
            read (s.addDependency (source.path depxml)) depxml = .error e) := by
  cases hcandidate : source.candidate pluginName with
  | none =>
      rw [readPluginIfUnread_of_none hcandidate] at h
      cases h
      exact Or.inl ⟨rfl, rfl⟩
  | some depxml =>
      refine Or.inr ⟨depxml, rfl, ?_⟩
      cases hlibrary : s.haveLibrary pluginName with
      | true =>
          rw [readPluginIfUnread_of_have hcandidate hlibrary] at h
          cases h
      | false =>
          refine ⟨rfl, ?_⟩
          cases hdep : s.isDependency (source.path depxml) with
          | true =>
              rw [readPluginIfUnread_of_dependency hcandidate hlibrary hdep] at h
              cases h
              exact Or.inl ⟨rfl, _, rfl⟩
          | false =>
              rw [readPluginIfUnread_of_unread hcandidate hlibrary hdep] at h
              exact Or.inr ⟨rfl, h⟩

end ReadPluginIfUnread

/-- A file is read when its dependencies are, and then its own contents. -/
theorem readxmlfile_eq_ok :
    source.readxmlfile (fuel + 1) s file = .ok s' ↔
      ∃ t, file.depends.foldlM (source.readPluginIfUnread (source.readxmlfile fuel)) s = .ok t ∧
        s' = t.addContents file := by
  rw [readxmlfile, Fallible.bind_eq_ok]
  refine exists_congr fun t => and_congr_right fun _ => ?_
  exact ⟨fun h => (Except.ok.inj h).symm, fun h => congrArg Except.ok h.symm⟩

/-- Reading a file fails as its dependencies fail. -/
theorem readxmlfile_eq_error {e : LoadFailure} :
    source.readxmlfile (fuel + 1) s file = .error e ↔
      file.depends.foldlM (source.readPluginIfUnread (source.readxmlfile fuel)) s = .error e := by
  rw [readxmlfile]
  cases file.depends.foldlM (source.readPluginIfUnread (source.readxmlfile fuel)) s with
  | error e' => rfl
  | ok t => exact ⟨fun h => (nomatch h), fun h => (nomatch h)⟩

/-- Entries stay. -/
theorem dependsSet_subset_of_readxmlfile (h : source.readxmlfile fuel s file = .ok s') :
    s.dependsSet ⊆ s'.dependsSet := by
  induction fuel generalizing s s' file with
  | zero => cases h
  | succ fuel ih =>
      obtain ⟨t, hloop, rfl⟩ := readxmlfile_eq_ok.mp h
      refine Fallible.foldlM_invariant (P := fun t => s.dependsSet ⊆ t.dependsSet) hloop
        (List.Subset.refl _) fun pluginName _ u u' hu hread => ?_
      obtain ⟨depxml, -, ⟨-, rfl⟩ | ⟨-, -, hread⟩⟩ := exists_of_readPluginIfUnread_eq_ok hread
      · exact hu
      · exact fun fl hfl => ih hread (List.mem_cons_of_mem _ (hu hfl))

/-- Reading a plugin forgets no dependency. -/
theorem dependsSet_subset_of_readPluginIfUnread {pluginName : CString}
    (h : source.readPluginIfUnread (source.readxmlfile fuel) s pluginName = .ok s') :
    s.dependsSet ⊆ s'.dependsSet := by
  obtain ⟨depxml, -, ⟨-, rfl⟩ | ⟨-, -, hread⟩⟩ := exists_of_readPluginIfUnread_eq_ok h
  · exact List.Subset.refl _
  · exact fun fl hfl => dependsSet_subset_of_readxmlfile hread (List.mem_cons_of_mem _ hfl)

/-- More dependencies leave fewer files unvisited. -/
theorem length_unvisited_le (h : s.dependsSet ⊆ s'.dependsSet) :
    (source.unvisited s').length ≤ (source.unvisited s).length := by
  refine (List.monotone_filter_right _ fun file hfile => ?_).length_le
  simp only [Loading.isDependency, Bool.not_eq_true', decide_eq_false_iff_not] at hfile ⊢
  exact fun hmem => hfile (h hmem)

/-- One file less is left. -/
theorem length_unvisited_lt (hfile : file ∈ source.files)
    (h : s.isDependency (source.path file) = false) :
    (source.unvisited (s.addDependency (source.path file))).length <
      (source.unvisited s).length := by
  have hfilter : source.unvisited (s.addDependency (source.path file)) =
      (source.unvisited s).filter fun file' =>
        !(s.addDependency (source.path file)).isDependency (source.path file') := by
    rw [unvisited, unvisited, List.filter_filter]
    refine List.filter_congr fun file' _ => ?_
    simp [Loading.isDependency, Loading.addDependency]
  rw [hfilter, List.length_filter_lt_length_iff_exists]
  refine ⟨file, ?_, ?_⟩
  · simp [unvisited, hfile, h]
  · simp [Loading.isDependency, Loading.addDependency]

/-- More fuel than files are left changes nothing. -/
theorem readxmlfile_stable (extra : Nat) (h : (source.unvisited s).length < fuel) :
    source.readxmlfile (fuel + extra) s file = source.readxmlfile fuel s file ∧
      source.readxmlfile fuel s file ≠ .error .outOfFuel := by
  induction fuel generalizing s file with
  | zero => exact absurd h (Nat.not_lt_zero _)
  | succ fuel ih =>
      have hle : (source.unvisited s).length ≤ fuel := Nat.le_of_lt_succ h
      have hkept : ∀ pluginName ∈ file.depends, ∀ t t',
          (source.unvisited t).length ≤ fuel →
          source.readPluginIfUnread (source.readxmlfile fuel) t pluginName = .ok t' →
          (source.unvisited t').length ≤ fuel :=
        fun _ _ t t' ht hread =>
          (length_unvisited_le (dependsSet_subset_of_readPluginIfUnread hread)).trans ht
      -- the file that is read next has been entered before
      have hnext : ∀ {t depxml pluginName}, (source.unvisited t).length ≤ fuel →
          source.candidate pluginName = some depxml →
          t.isDependency (source.path depxml) = false →
          (source.unvisited (t.addDependency (source.path depxml))).length < fuel :=
        fun ht hmem hdep => (length_unvisited_lt (candidate_mem hmem) hdep).trans_le ht
      have hloop : file.depends.foldlM (source.readPluginIfUnread (source.readxmlfile fuel)) s =
          file.depends.foldlM
            (source.readPluginIfUnread (source.readxmlfile (fuel + extra))) s := by
        refine Fallible.foldlM_congr hle hkept fun pluginName _ t ht => ?_
        cases hcandidate : source.candidate pluginName with
        | none =>
            rw [readPluginIfUnread_of_none hcandidate, readPluginIfUnread_of_none hcandidate]
        | some depxml =>
            cases hlibrary : t.haveLibrary pluginName with
            | true =>
                rw [readPluginIfUnread_of_have hcandidate hlibrary,
                  readPluginIfUnread_of_have hcandidate hlibrary]
            | false =>
                cases hdep : t.isDependency (source.path depxml) with
                | true =>
                    rw [readPluginIfUnread_of_dependency hcandidate hlibrary hdep,
                      readPluginIfUnread_of_dependency hcandidate hlibrary hdep]
                | false =>
                    rw [readPluginIfUnread_of_unread hcandidate hlibrary hdep,
                      readPluginIfUnread_of_unread hcandidate hlibrary hdep,
                      (ih (hnext ht hcandidate hdep)).1]
      refine ⟨by rw [Nat.add_right_comm, readxmlfile, readxmlfile, hloop], fun hfail => ?_⟩
      obtain ⟨pluginName, -, t, ht, hread⟩ :=
        Fallible.exists_of_foldlM_eq_error (readxmlfile_eq_error.mp hfail) hle hkept
      rcases exists_of_readPluginIfUnread_eq_error hread with
        ⟨-, he⟩ | ⟨depxml, hcandidate, -, ⟨-, mesg, he⟩ | ⟨hdep, hread⟩⟩
      · cases he
      · cases he
      · exact (ih (hnext ht hcandidate hdep)).2 hread

/-- The loop over the files of the directory ends, with one result for every fuel that is enough. -/
theorem readxmldir_stable (source : PluginSource) (s : Loading) :
    ∃ r, r ≠ .error .outOfFuel ∧
      ∀ fuel, source.files.length < fuel → source.readxmldir fuel s = r := by
  have hall : ∀ s : Loading, (source.unvisited s).length < source.files.length + 1 :=
    fun s => Nat.lt_succ_of_le (List.length_filter_le _ _)
  refine ⟨source.readxmldir (source.files.length + 1) s, fun hfail => ?_, fun fuel hfuel => ?_⟩
  · obtain ⟨-, file, -, t, -, -, hread⟩ := Fallible.exists_append_of_foldlM_eq_error hfail
    split at hread
    · cases hread
    · exact (readxmlfile_stable 0 (hall t)).2 hread
  · obtain ⟨extra, rfl⟩ : ∃ extra, fuel = source.files.length + 1 + extra :=
      Nat.exists_eq_add_of_le hfuel
    refine Fallible.foldlM_congr (P := fun _ => True) trivial (fun _ _ _ _ _ _ => trivial)
      fun file _ t _ => ?_
    rw [(readxmlfile_stable extra (hall t)).1]

/-! ## Files and their names -/

/-- The second file depends on the first one. -/
def Needed (source : PluginSource) (b a : PluginFile) : Prop :=
  b ∈ source.files ∧ a ∈ source.files ∧ b.library ∈ a.depends

/-- Every plugin that a file depends on is there. -/
def Present (source : PluginSource) : Prop :=
  ∀ a ∈ source.files, ∀ name ∈ a.depends, ∃ b ∈ source.files, b.library = name

/-- The plugin of the name does not need a cycle. -/
def Clear (source : PluginSource) (name : CString) : Prop :=
  ∀ b ∈ source.files, b.library = name → ClearTo source.Needed b

/-- The files that are there to be read before a cycle is met: in the order of their paths, and for
the dependencies in the order in which they stand. -/
inductive Reached (source : PluginSource) : PluginFile → Prop
  | listed {a : PluginFile} (hmem : a ∈ source.files)
      (hbefore : ∀ b ∈ source.files, source.path b < source.path a → source.Clear b.library) :
      Reached source a
  | needed {a b : PluginFile} {done rest : List CString} (ha : Reached source a)
      (hdepends : a.depends = done ++ b.library :: rest)
      (hdone : ∀ name ∈ done, source.Clear name) (hmem : b ∈ source.files) : Reached source b

/-- A name that is there to be looked for before a cycle is met. -/
def LooksFor (source : PluginSource) (a : PluginFile) (name : CString) : Prop :=
  ∃ done rest, source.Reached a ∧ a.depends = done ++ name :: rest ∧
    ∀ earlier ∈ done, source.Clear earlier

/-- The file that is found is the one of the plugin. -/
def Resolves (source : PluginSource) : Prop :=
  ∀ a name, source.LooksFor a name → ∃ b, source.candidate name = some b ∧ b.library = name

/-- A file reached is one of the directory. -/
theorem Reached.mem (h : source.Reached file) : file ∈ source.files := by
  cases h with
  | listed hmem _ => exact hmem
  | needed _ _ _ hmem => exact hmem

/-- A file is looked for by a dependency of a file. -/
theorem LooksFor.mem {name : CString} (h : source.LooksFor file name) :
    file ∈ source.files ∧ name ∈ file.depends := by
  obtain ⟨done, rest, hfile, hdepends, -⟩ := h
  rw [hdepends]
  exact ⟨hfile.mem, List.mem_append_right _ List.mem_cons_self⟩

/-- Dependencies resolve when each is present and found under its own name. -/
theorem resolves_of_present
    (hpresent : ∀ a name, source.LooksFor a name → ∃ b ∈ source.files, b.library = name)
    (hfinds : ∀ a name, source.LooksFor a name →
      ∀ b, source.candidate name = some b → b.library = name) : source.Resolves := by
  intro a name hname
  obtain ⟨b, hb, rfl⟩ := hpresent a name hname
  have hpath : strstr (source.path b) ('/' :: (b.library ++ dotXml)) = true :=
    decide_eq_true (List.suffix_append _ _).isInfix
  cases hcandidate : source.candidate b.library with
  | none => exact absurd hpath (List.find?_eq_none.mp hcandidate b hb)
  | some c => exact ⟨c, rfl, hfinds a _ hname c hcandidate⟩

theorem eq_of_library_eq {a b : PluginFile} (ha : a ∈ source.files) (hb : b ∈ source.files)
    (h : a.library = b.library) : a = b :=
  List.inj_on_of_nodup_map source.nodup ha hb h

/-- A leading {lit}`./` belongs to the directory. -/
theorem exists_canonize_append (dir : CString) :
    ∃ q, ∀ x, canonize (dir ++ '/' :: x) = q ++ x := by
  rcases dir with _ | ⟨c, _ | ⟨d, rest⟩⟩
  · exact ⟨['/'], fun x => rfl⟩
  · by_cases hc : c = '.'
    · subst hc
      exact ⟨[], fun x => rfl⟩
    · refine ⟨[c, '/'], fun x => ?_⟩
      simp [canonize, hc]
  · by_cases hcd : c = '.' ∧ d = '/'
    · obtain ⟨rfl, rfl⟩ := hcd
      exact ⟨rest ++ ['/'], fun x => by simp [canonize]⟩
    · refine ⟨c :: d :: (rest ++ ['/']), fun x => ?_⟩
      simp only [List.cons_append, List.append_assoc, List.nil_append]
      rw [canonize]
      rintro rest' heq
      cases heq
      exact hcd ⟨rfl, rfl⟩

theorem library_eq_of_canonize_path_eq {a b : PluginFile}
    (h : canonize (source.path a) = canonize (source.path b)) : a.library = b.library := by
  obtain ⟨q, hq⟩ := exists_canonize_append source.dir
  rw [path, path, hq, hq] at h
  exact List.append_cancel_right (List.append_cancel_left h)

/-- The dependencies after one was added. -/
theorem isDependency_addDependency_iff {a b : PluginFile} (ha : a ∈ source.files)
    (hb : b ∈ source.files) :
    (s.addDependency (source.path b)).isDependency (source.path a) = true ↔
      a = b ∨ s.isDependency (source.path a) = true := by
  rw [Loading.isDependency, Loading.isDependency, decide_eq_true_iff, decide_eq_true_iff]
  refine List.mem_cons.trans (or_congr_left ⟨fun h => ?_, fun h => h ▸ rfl⟩)
  exact eq_of_library_eq ha hb (library_eq_of_canonize_path_eq h)

/-! ## What a reading adds -/

/-- Files are entered, and the contents of files are added behind those that they depend on. -/
inductive Adds (source : PluginSource) (s : Loading) : List PluginFile → Loading → Prop
  | refl : Adds source s [] s
  | enter {more : List PluginFile} {t : Loading} (fl : CString) (h : Adds source s more t) :
      Adds source s more (t.addDependency fl)
  | add {more : List PluginFile} {t : Loading} {a : PluginFile} (h : Adds source s more t)
      (hmem : a ∈ source.files) (hdepends : ∀ name ∈ a.depends, name ∈ t.libraries)
      (hnew : a.library ∉ t.libraries) : Adds source s (more ++ [a]) (t.addContents a)

/-- No plugin that is there needs a cycle. -/
def AllClear (source : PluginSource) (s : Loading) : Prop :=
  ∀ name ∈ s.libraries, source.Clear name

/-- A file whose dependencies are loaded reaches no cycle. -/
theorem clearTo_of_depends (hs : source.AllClear s)
    (hdepends : ∀ name ∈ file.depends, name ∈ s.libraries) : ClearTo source.Needed file :=
  clearTo_of_forall fun b hb => hs b.library (hdepends _ hb.2.2) b hb.1 rfl

namespace Adds

variable {more more' : List PluginFile} {t u : Loading}

theorem trans (h : source.Adds s more t) (h' : source.Adds t more' u) :
    source.Adds s (more ++ more') u := by
  induction h' with
  | refl =>
      rw [List.append_nil]
      exact h
  | enter fl _ ih => exact ih.enter fl
  | add _ hmem hdepends hnew ih =>
      rw [← List.append_assoc]
      exact ih.add hmem hdepends hnew

/-- Only files of the directory are added. -/
theorem mem_files (h : source.Adds s more t) : ∀ a ∈ more, a ∈ source.files := by
  induction h with
  | refl => exact fun a ha => absurd ha List.not_mem_nil
  | enter _ _ ih => exact ih
  | add _ hmem _ _ ih =>
      rw [List.forall_mem_append, List.forall_mem_singleton]
      exact ⟨ih, hmem⟩

theorem libraries_eq (h : source.Adds s more t) :
    t.libraries = s.libraries ++ more.map PluginFile.library := by
  induction h with
  | refl => exact (List.append_nil _).symm
  | enter _ _ ih => exact ih
  | add _ _ _ _ ih =>
      rw [Loading.addContents, ih, List.map_append, List.append_assoc]
      rfl

theorem flow_eq (h : source.Adds s more t) : t.flow = more.foldl Loading.addNodes s.flow := by
  induction h with
  | refl => rfl
  | enter _ _ ih => exact ih
  | add _ _ _ _ ih =>
      rw [Loading.addContents, ih, List.foldl_append]
      rfl

theorem nodup (h : source.Adds s more t) (hs : s.libraries.Nodup) : t.libraries.Nodup := by
  induction h with
  | refl => exact hs
  | enter _ _ ih => exact ih
  | add _ _ _ hnew ih => exact List.nodup_append_comm.mp (List.nodup_cons.mpr ⟨hnew, ih⟩)

/-- No file added reaches a cycle. -/
theorem allClear (h : source.Adds s more t) (hs : source.AllClear s) : source.AllClear t := by
  induction h with
  | refl => exact hs
  | enter _ _ ih => exact ih
  | add _ hmem hdepends _ ih =>
      refine List.forall_mem_append.mpr ⟨ih, List.forall_mem_singleton.mpr fun b hb heq => ?_⟩
      rw [eq_of_library_eq hb hmem heq]
      exact clearTo_of_depends ih hdepends

/-- A file that is there was read. -/
theorem mem_of_library_mem (h : source.Adds s more t) (hs : s.libraries = [])
    (hfile : file ∈ source.files) (hlibrary : file.library ∈ t.libraries) : file ∈ more := by
  rw [h.libraries_eq, hs, List.nil_append, List.mem_map] at hlibrary
  obtain ⟨a, ha, heq⟩ := hlibrary
  rw [eq_of_library_eq hfile (h.mem_files a ha) heq.symm]
  exact ha

/-- An added file is loaded. -/
theorem library_mem (h : source.Adds s more t) (hfile : file ∈ more) :
    file.library ∈ t.libraries := by
  rw [h.libraries_eq]
  exact List.mem_append_right _ (List.mem_map_of_mem hfile)

/-- Each file is added behind the files that it needs. -/
theorem inOrder (h : source.Adds s more t) (hs : s.libraries = []) :
    InOrder source.Needed more := by
  induction h with
  | refl => exact inOrder_nil
  | enter _ _ ih => exact ih
  | add h _ hdepends _ ih =>
      exact ih.concat fun b hb => h.mem_of_library_mem hs hb.1 (hdepends _ hb.2.2)

end Adds

/-! ## Dependencies that are read -/

/-- What reading names that a file depends on does. -/
structure ReadsDepends (source : PluginSource) (a : PluginFile) (names : List CString)
    (s : Loading) (more : List PluginFile) (t : Loading) : Prop where
  adds : source.Adds s more t
  entered : ∀ b ∈ source.files, t.isDependency (source.path b) = true ↔
    s.isDependency (source.path b) = true ∨ b ∈ more
  libraries : ∀ name ∈ names, name ∈ t.libraries
  below : ∀ b ∈ more, Relation.TransGen source.Needed b a

namespace ReadsDepends

variable {a b : PluginFile} {names names' : List CString} {more more' : List PluginFile}
  {t u : Loading}

theorem nil : source.ReadsDepends a [] s [] s where
  adds := Adds.refl
  entered := fun _ _ => (or_iff_left List.not_mem_nil).symm
  libraries := fun _ hname => absurd hname List.not_mem_nil
  below := fun _ hb => absurd hb List.not_mem_nil

theorem append (h : source.ReadsDepends a names s more t)
    (h' : source.ReadsDepends a names' t more' u) :
    source.ReadsDepends a (names ++ names') s (more ++ more') u where
  adds := h.adds.trans h'.adds
  entered := fun b hb => by
    rw [h'.entered b hb, h.entered b hb, List.mem_append, or_assoc]
  libraries := by
    refine List.forall_mem_append.mpr ⟨fun name hname => ?_, h'.libraries⟩
    rw [h'.adds.libraries_eq]
    exact List.mem_append_left _ (h.libraries name hname)
  below := List.forall_mem_append.mpr ⟨h.below, h'.below⟩

/-- A plugin that is there already. -/
theorem of_mem {name : CString} (h : name ∈ s.libraries) : source.ReadsDepends a [name] s [] s :=
  { nil with libraries := List.forall_mem_singleton.mpr h }

/-- A file whose dependencies were all read reaches no cycle. -/
theorem clearTo (h : source.ReadsDepends a a.depends s more t) (hs : source.AllClear s) :
    ClearTo source.Needed a :=
  clearTo_of_depends (h.adds.allClear hs) h.libraries

/-- The file itself is not read in the middle of it. -/
theorem library_notMem (h : source.ReadsDepends a a.depends s more t) (hs : source.AllClear s)
    (ha : a ∈ source.files) (hnew : a.library ∉ s.libraries) : a.library ∉ t.libraries := by
  rw [h.adds.libraries_eq, List.mem_append, not_or]
  refine ⟨hnew, fun hmem => ?_⟩
  obtain ⟨c, hc, heq⟩ := List.mem_map.mp hmem
  obtain rfl := eq_of_library_eq (h.adds.mem_files c hc) ha heq
  exact h.clearTo hs c Relation.ReflTransGen.refl (h.below c hc)

/-- A dependency that is read from start to end. -/
theorem addContents (h : source.ReadsDepends b b.depends (s.addDependency (source.path b)) more t)
    (hs : source.AllClear s) (hb : source.Needed b a) (hnew : b.library ∉ s.libraries) :
    source.ReadsDepends a [b.library] s (more ++ [b]) (t.addContents b) where
  adds := ((Adds.refl.enter (source.path b)).trans h.adds).add hb.1 h.libraries
    (h.library_notMem hs hb.1 hnew)
  entered := fun c hc => by
    refine (h.entered c hc).trans ?_
    rw [isDependency_addDependency_iff hc hb.1, List.mem_append, List.mem_singleton, or_assoc,
      or_comm, or_assoc]
  libraries := List.forall_mem_singleton.mpr (List.mem_append_right _ (List.mem_singleton_self _))
  below := List.forall_mem_append.mpr
    ⟨fun c hc => (h.below c hc).tail hb,
      List.forall_mem_singleton.mpr (Relation.TransGen.single hb)⟩

end ReadsDepends

/-- Reading a file succeeds only as it should. -/
def ReadsFile (source : PluginSource)
    (read : Loading → PluginFile → Except LoadFailure Loading) : Prop :=
  ∀ a s s', source.Reached a → source.AllClear s → read s a = .ok s' →
    ∃ more t, source.ReadsDepends a a.depends s more t ∧ s' = t.addContents a

section Loop

variable {read : Loading → PluginFile → Except LoadFailure Loading} {a : PluginFile}
  {done names rest : List CString} {name : CString}
  (hresolves : source.Resolves) (hread : source.ReadsFile read) (ha : source.Reached a)
  (hdone : ∀ name ∈ done, source.Clear name) (hs : source.AllClear s)
include hresolves hread ha hdone hs

/-- Reading one dependency reads the files behind it. -/
theorem readsDepends_of_readPluginIfUnread (hdepends : a.depends = done ++ name :: rest)
    (h : source.readPluginIfUnread read s name = .ok s') :
    ∃ more, source.ReadsDepends a [name] s more s' := by
  obtain ⟨b, hcandidate, hcase⟩ := exists_of_readPluginIfUnread_eq_ok h
  obtain ⟨b', hcandidate', hlibrary⟩ := hresolves a name ⟨done, rest, ha, hdepends, hdone⟩
  cases hcandidate.symm.trans hcandidate'
  subst hlibrary
  have hmem := candidate_mem hcandidate
  rcases hcase with ⟨hhave, rfl⟩ | ⟨hhave, -, h⟩
  · exact ⟨[], ReadsDepends.of_mem (of_decide_eq_true hhave)⟩
  · obtain ⟨more, t, hloop, rfl⟩ := hread b (s.addDependency (source.path b)) s'
      (ha.needed hdepends hdone hmem) hs h
    have hneeded : source.Needed b a := by
      refine ⟨hmem, ha.mem, ?_⟩
      rw [hdepends]
      exact List.mem_append_right _ List.mem_cons_self
    exact ⟨_, hloop.addContents hs hneeded (of_decide_eq_false hhave)⟩

/-- The loop over the names that a file depends on, or the rest of it. -/
theorem readsDepends_of_foldlM (hdepends : a.depends = done ++ (names ++ rest))
    (h : names.foldlM (source.readPluginIfUnread read) s = .ok s') :
    ∃ more, source.ReadsDepends a names s more s' := by
  induction names generalizing done s with
  | nil =>
      cases h
      exact ⟨[], ReadsDepends.nil⟩
  | cons name names ih =>
      obtain ⟨t, hfirst, h⟩ := Fallible.foldlM_cons_eq_ok.mp h
      obtain ⟨more, hfirst⟩ :=
        readsDepends_of_readPluginIfUnread hresolves hread ha hdone hs hdepends hfirst
      have ht := hfirst.adds.allClear hs
      have hclear := ht name (hfirst.libraries name (List.mem_singleton_self _))
      have hdone' : ∀ earlier ∈ done ++ [name], source.Clear earlier :=
        List.forall_mem_append.mpr ⟨hdone, List.forall_mem_singleton.mpr hclear⟩
      obtain ⟨more', hrest⟩ := ih hdone' ht (by rw [hdepends, List.append_assoc]; rfl) h
      exact ⟨_, hfirst.append hrest⟩

end Loop

/-- Reading a file, with any fuel, reads its dependencies and the file. -/
theorem readsFile_readxmlfile (hresolves : source.Resolves) (fuel : Nat) :
    source.ReadsFile (source.readxmlfile fuel) := by
  induction fuel with
  | zero => exact fun _ _ _ _ _ h => nomatch h
  | succ fuel ih =>
      intro a s s' ha hs h
      obtain ⟨t, hloop, rfl⟩ := readxmlfile_eq_ok.mp h
      have hdepends : a.depends = [] ++ (a.depends ++ []) := (List.append_nil _).symm
      obtain ⟨more, hloop⟩ := readsDepends_of_foldlM hresolves ih ha
        (fun _ hname => absurd hname List.not_mem_nil) hs hdepends hloop
      exact ⟨more, t, hloop, rfl⟩

/-! ## Failures -/

/-- The files that are being read need the one that is read next. -/
def Pending (source : PluginSource) (s : Loading) (a : PluginFile) : Prop :=
  ∀ b ∈ source.files, s.isDependency (source.path b) = true → b.library ∉ s.libraries →
    Relation.ReflTransGen source.Needed a b

/-- A file that is being loaded still is while others are read. -/
theorem Pending.of_readsDepends {a b : PluginFile} {names : List CString} {more : List PluginFile}
    (h : source.Pending s a) (hread : source.ReadsDepends b names s more s') :
    source.Pending s' a := by
  intro c hc hentered hnew
  rcases (hread.entered c hc).mp hentered with hentered | hmem
  · refine h c hc hentered fun hold => hnew ?_
    rw [hread.adds.libraries_eq]
    exact List.mem_append_left _ hold
  · exact absurd (hread.adds.library_mem hmem) hnew

/-- The files behind a file being loaded are pending too. -/
theorem Pending.addDependency {a b : PluginFile} (h : source.Pending s a)
    (hb : source.Needed b a) : source.Pending (s.addDependency (source.path b)) b := by
  intro c hc hentered hnew
  rcases (isDependency_addDependency_iff hc hb.1).mp hentered with rfl | hentered
  · exact Relation.ReflTransGen.refl
  · exact (h c hc hentered hnew).head hb

/-- A file that cannot be read for its dependencies leads to a cycle. -/
theorem exists_of_readxmlfile_eq_error {e : LoadFailure} {a : PluginFile}
    (hresolves : source.Resolves) (ha : source.Reached a) (hs : source.AllClear s)
    (hpending : source.Pending s a) (h : source.readxmlfile fuel s a = .error e)
    (hfuel : e ≠ .outOfFuel) :
    (∃ mesg, e = .readerException mesg) ∧ ¬ Acyclic source.Needed := by
  induction fuel generalizing s a with
  | zero =>
      cases h
      exact absurd rfl hfuel
  | succ fuel ih =>
      obtain ⟨done, name, rest, t, hdepends, hloop, h⟩ :=
        Fallible.exists_append_of_foldlM_eq_error (readxmlfile_eq_error.mp h)
      have hnone : ∀ earlier ∈ ([] : List CString), source.Clear earlier :=
        fun _ hmem => absurd hmem List.not_mem_nil
      obtain ⟨more, hloop⟩ := readsDepends_of_foldlM hresolves
        (readsFile_readxmlfile hresolves fuel) ha hnone hs hdepends hloop
      have ht := hloop.adds.allClear hs
      have hdone : ∀ earlier ∈ done, source.Clear earlier :=
        fun earlier hmem => ht earlier (hloop.libraries earlier hmem)
      obtain ⟨b, hcandidate, rfl⟩ := hresolves a name ⟨done, rest, ha, hdepends, hdone⟩
      have hmem := candidate_mem hcandidate
      have hneeded : source.Needed b a := by
        refine ⟨hmem, ha.mem, ?_⟩
        rw [hdepends]
        exact List.mem_append_right _ List.mem_cons_self
      have hpending := hpending.of_readsDepends hloop
      rcases exists_of_readPluginIfUnread_eq_error h with
        ⟨hnone, -⟩ | ⟨b', hcandidate', hhave, hcase⟩
      · cases hcandidate.symm.trans hnone
      · cases hcandidate.symm.trans hcandidate'
        rcases hcase with ⟨hentered, hmesg⟩ | ⟨-, h⟩
        · refine ⟨hmesg, fun hacyclic => hacyclic b ?_⟩
          exact Relation.TransGen.head' hneeded
            (hpending b hmem hentered (of_decide_eq_false hhave))
        · exact ih (s := t.addDependency (source.path b)) (ha.needed hdepends hdone hmem) ht
            (hpending.addDependency hneeded) h

/-! ## The directory -/

/-- Sorting loses no file. -/
theorem mem_sortedFiles {a : PluginFile} : a ∈ source.sortedFiles ↔ a ∈ source.files :=
  (List.perm_insertionSort _ _).mem_iff

/-- A directory has a file once. -/
theorem nodup_files (source : PluginSource) : source.files.Nodup :=
  List.Nodup.of_map _ source.nodup

/-- Sorting repeats no file. -/
theorem nodup_sortedFiles (source : PluginSource) : source.sortedFiles.Nodup :=
  (List.perm_insertionSort _ _).nodup_iff.mpr source.nodup_files

/-- The files are in the order of their paths. -/
theorem pairwise_sortedFiles (source : PluginSource) :
    source.sortedFiles.Pairwise fun a b => source.path a ≤ source.path b :=
  List.pairwise_insertionSort (fun a b => source.path a ≤ source.path b) _

/-- What is there between the files of the directory, of which some are done. -/
structure ReadsDirectory (source : PluginSource) (s₀ : Loading) (done order : List PluginFile)
    (s : Loading) : Prop where
  adds : source.Adds s₀ order s
  entered : ∀ a ∈ source.files, s.isDependency (source.path a) = true → a ∈ order
  read : ∀ a ∈ order, s.isDependency (source.path a) = true ∨ a ∈ done
  done : ∀ a ∈ done, a ∈ order

section Directory

variable {s₀ : Loading} {done files rest order : List PluginFile} (hs₀ : s₀.libraries = [])
include hs₀

/-- No file read so far reaches a cycle. -/
theorem ReadsDirectory.allClear (h : source.ReadsDirectory s₀ done order s) :
    source.AllClear s :=
  h.adds.allClear fun _ hname => absurd (hs₀ ▸ hname) List.not_mem_nil

/-- The files in front of the next one do not lead to cycles. -/
theorem ReadsDirectory.reached (h : source.ReadsDirectory s₀ done order s)
    (hsorted : source.sortedFiles = done ++ file :: rest) : source.Reached file := by
  have hpairwise := source.pairwise_sortedFiles
  rw [hsorted, List.pairwise_append, List.pairwise_cons] at hpairwise
  refine Reached.listed (mem_sortedFiles.mp ?_) fun b hb hlt => ?_
  · rw [hsorted]
    exact List.mem_append_right _ List.mem_cons_self
  · have hmem := mem_sortedFiles.mpr hb
    rw [hsorted, List.mem_append, List.mem_cons] at hmem
    rcases hmem with hmem | rfl | hmem
    · exact h.allClear hs₀ _ (h.adds.library_mem (h.done b hmem))
    · exact absurd hlt (lt_irrefl _)
    · exact absurd (hpairwise.2.1.1 b hmem) (not_le_of_gt hlt)

/-- One more file of the directory is read. -/
theorem ReadsDirectory.readxmlfile (h : source.ReadsDirectory s₀ done order s)
    (hresolves : source.Resolves) (hsorted : source.sortedFiles = done ++ file :: rest)
    (hunread : s.isDependency (source.path file) = false)
    (hread : source.readxmlfile fuel s file = .ok s') :
    ∃ order', source.ReadsDirectory s₀ (done ++ [file]) order' s' := by
  have hreached := h.reached hs₀ hsorted
  have hs := h.allClear hs₀
  obtain ⟨more, t, hloop, rfl⟩ := readsFile_readxmlfile hresolves fuel file s _ hreached hs hread
  have hfile : file ∉ order := by
    intro hmem
    have hnodup := source.nodup_sortedFiles
    rw [hsorted] at hnodup
    rcases h.read file hmem with hentered | hmem
    · cases hunread.symm.trans hentered
    · exact (List.nodup_append.mp hnodup).2.2 file hmem file List.mem_cons_self rfl
  have hnew : file.library ∉ s.libraries :=
    fun hmem => hfile (h.adds.mem_of_library_mem hs₀ hreached.mem hmem)
  refine ⟨(order ++ more) ++ [file], (h.adds.trans hloop.adds).add hreached.mem hloop.libraries
    (hloop.library_notMem hs hreached.mem hnew), fun a ha hentered => ?_, ?_, ?_⟩
  · refine List.mem_append_left _ (List.mem_append.mpr ?_)
    exact ((hloop.entered a ha).mp hentered).imp_left (h.entered a ha)
  · have hkept : ∀ a ∈ source.files, s.isDependency (source.path a) = true ∨ a ∈ more →
        t.isDependency (source.path a) = true := fun a ha => (hloop.entered a ha).mpr
    refine List.forall_mem_append.mpr ⟨List.forall_mem_append.mpr ⟨fun a ha => ?_, fun a ha => ?_⟩,
      List.forall_mem_singleton.mpr (Or.inr (List.mem_append_right _ (List.mem_singleton_self _)))⟩
    · exact (h.read a ha).imp (fun h' => hkept a (h.adds.mem_files a ha) (Or.inl h'))
        (List.mem_append_left _)
    · exact Or.inl (hkept a (hloop.adds.mem_files a ha) (Or.inr ha))
  · refine List.forall_mem_append.mpr ⟨fun a ha => ?_,
      List.forall_mem_singleton.mpr (List.mem_append_right _ (List.mem_singleton_self _))⟩
    exact List.mem_append_left _ (List.mem_append_left _ (h.done a ha))

/-- The loop over the files, or a part of it. -/
theorem ReadsDirectory.readFiles (h : source.ReadsDirectory s₀ done order s)
    (hresolves : source.Resolves) (hsorted : source.sortedFiles = done ++ (files ++ rest))
    (hread : source.readFiles fuel s files = .ok s') :
    ∃ order', source.ReadsDirectory s₀ (done ++ files) order' s' := by
  induction files generalizing done order s with
  | nil =>
      cases hread
      rw [List.append_nil]
      exact ⟨order, h⟩
  | cons file files ih =>
      obtain ⟨t, hfirst, hread⟩ := Fallible.foldlM_cons_eq_ok.mp hread
      have hnext : ∃ order', source.ReadsDirectory s₀ (done ++ [file]) order' t := by
        cases hdep : s.isDependency (source.path file) with
        | true =>
            rw [hdep] at hfirst
            cases hfirst
            have hmem : file ∈ source.files := mem_sortedFiles.mp (by
              rw [hsorted]
              exact List.mem_append_right _ List.mem_cons_self)
            refine ⟨order, h.adds, h.entered,
              fun a ha => (h.read a ha).imp_right (List.mem_append_left _), ?_⟩
            exact List.forall_mem_append.mpr
              ⟨h.done, List.forall_mem_singleton.mpr (h.entered file hmem hdep)⟩
        | false =>
            rw [hdep] at hfirst
            exact h.readxmlfile hs₀ hresolves hsorted hdep hfirst
      obtain ⟨order', hnext⟩ := hnext
      rw [List.append_cons]
      exact ih hnext (by rw [hsorted, List.append_assoc]; rfl) hread

variable (hentered : ∀ a ∈ source.files, s₀.isDependency (source.path a) = false)
  (hresolves : source.Resolves)
include hentered hresolves

omit hs₀ hresolves in
/-- The directory before any file is read. -/
theorem readsDirectory_start : source.ReadsDirectory s₀ [] [] s₀ where
  adds := Adds.refl
  entered := fun a ha h => absurd h (by rw [hentered a ha]; exact Bool.false_ne_true)
  read := fun _ ha => absurd ha List.not_mem_nil
  done := fun _ ha => ha

/-- Reading that succeeds puts all files into order. -/
theorem exists_of_readxmldir_eq_ok (h : source.readxmldir fuel s₀ = .ok s') :
    ∃ order, order.Perm source.files ∧ InOrder source.Needed order ∧
      s'.libraries = order.map PluginFile.library ∧
      s'.flow = order.foldl Loading.addNodes s₀.flow := by
  have hsorted : source.sortedFiles = [] ++ (source.sortedFiles ++ []) := (List.append_nil _).symm
  obtain ⟨order, hend⟩ := (readsDirectory_start hentered).readFiles hs₀ hresolves hsorted h
  have hlibraries := hend.adds.libraries_eq
  rw [hs₀, List.nil_append] at hlibraries
  have hnodup : order.Nodup := by
    refine List.Nodup.of_map PluginFile.library (hlibraries ▸ hend.adds.nodup ?_)
    rw [hs₀]
    exact List.nodup_nil
  refine ⟨order, (List.perm_ext_iff_of_nodup hnodup source.nodup_files).mpr fun a => ?_,
    hend.adds.inOrder hs₀, hlibraries, hend.adds.flow_eq⟩
  exact ⟨hend.adds.mem_files a, fun ha => hend.done a (mem_sortedFiles.mpr ha)⟩

/-- Reading that fails has met a cycle. -/
theorem exists_of_readxmldir_eq_error {e : LoadFailure} (h : source.readxmldir fuel s₀ = .error e)
    (hfuel : e ≠ .outOfFuel) :
    (∃ mesg, e = .readerException mesg) ∧ ¬ Acyclic source.Needed := by
  obtain ⟨done, file, rest, s, hsorted, hloop, h⟩ := Fallible.exists_append_of_foldlM_eq_error h
  obtain ⟨order, hdone⟩ := (readsDirectory_start hentered).readFiles hs₀ hresolves
    hsorted hloop
  cases hdep : s.isDependency (source.path file) with
  | true =>
      rw [hdep] at h
      cases h
  | false =>
      rw [hdep] at h
      refine exists_of_readxmlfile_eq_error hresolves (hdone.reached hs₀ hsorted)
        (hdone.allClear hs₀) (fun b hb hentered hnew => ?_) h hfuel
      exact absurd (hdone.adds.library_mem (hdone.entered b hb hentered)) hnew

end Directory

/-- A directory is read to the end.  Without cycles and with everything there, the libraries and
the nodes of all files are added once, behind those that they depend on; with a cycle, a
{lit}`ReaderException` is thrown. -/
def ReadsRight (source : PluginSource) (filename : CString) (flow : Flow) : Prop :=
  ∃ r, r ≠ .error .outOfFuel ∧
    (∀ fuel, source.files.length < fuel → source.readxmldir fuel (start filename flow) = r) ∧
    (Acyclic source.Needed → source.Present →
      ∃ order s, r = .ok s ∧ order.Perm source.files ∧ InOrder source.Needed order ∧
        s.libraries = order.map PluginFile.library ∧
        s.flow = order.foldl Loading.addNodes flow) ∧
    (¬ Acyclic source.Needed → ∃ mesg, r = .error (.readerException mesg))

/-- A directory is read right when each name finds its own file, and when nothing is missing in
front of a cycle. -/
theorem readsRight {filename : CString} {flow : Flow}
    (hmain : ∀ a ∈ source.files, canonize (source.path a) ≠ canonize filename)
    (hfinds : ∀ a name, source.LooksFor a name →
      ∀ b, source.candidate name = some b → b.library = name)
    (hpresent : ¬ Acyclic source.Needed →
      ∀ a name, source.LooksFor a name → ∃ b ∈ source.files, b.library = name) :
    source.ReadsRight filename flow := by
  have hentered : ∀ a ∈ source.files,
      (start filename flow).isDependency (source.path a) = false :=
    fun a ha => decide_eq_false fun hmem => hmain a ha (List.mem_singleton.mp hmem)
  obtain ⟨r, hfuel, hr⟩ := source.readxmldir_stable (start filename flow)
  have hlast := hr _ (Nat.lt_succ_self _)
  refine ⟨r, hfuel, hr, fun hacyclic hall => ?_, fun hcycle => ?_⟩
  · have hresolves := resolves_of_present
      (fun a name hname => hall a hname.mem.1 name hname.mem.2) hfinds
    cases r with
    | error e =>
        exact absurd hacyclic (exists_of_readxmldir_eq_error rfl hentered hresolves hlast
          fun he => hfuel (he ▸ rfl)).2
    | ok s =>
        obtain ⟨order, horder⟩ := exists_of_readxmldir_eq_ok rfl hentered hresolves hlast
        exact ⟨order, s, rfl, horder⟩
  · have hresolves := resolves_of_present (hpresent hcycle) hfinds
    cases r with
    | error e =>
        obtain ⟨⟨mesg, rfl⟩, -⟩ := exists_of_readxmldir_eq_error rfl hentered hresolves hlast
          fun he => hfuel (he ▸ rfl)
        exact ⟨mesg, rfl⟩
    | ok s =>
        obtain ⟨order, hperm, horder, -⟩ := exists_of_readxmldir_eq_ok rfl hentered hresolves hlast
        exact absurd (acyclic_of_inOrder horder fun a b hab => hperm.mem_iff.mpr hab.2.1) hcycle

/-- Two plugins that depend on one, and one that depends on both. -/
def diamond : PluginSource where
  dir := ['p']
  files := [⟨['a'], [['b'], ['c']], []⟩, ⟨['b'], [['d']], []⟩, ⟨['c'], [['d']], []⟩,
    ⟨['d'], [], []⟩]
  nodup := by decide

/-- Two plugins that depend on each other, and behind them one that depends on a missing one. -/
def twoCycle : PluginSource where
  dir := ['p']
  files := [⟨['a'], [['b']], []⟩, ⟨['b'], [['a']], []⟩, ⟨['c'], [['d']], []⟩]
  nodup := by decide

/-- Two plugins that depend on each other form a cycle. -/
theorem not_clear_twoCycle : ¬ twoCycle.Clear ['a'] := by
  intro h
  have hba : twoCycle.Needed ⟨['b'], [['a']], []⟩ ⟨['a'], [['b']], []⟩ := by
    unfold Needed
    decide
  have hab : twoCycle.Needed ⟨['a'], [['b']], []⟩ ⟨['b'], [['a']], []⟩ := by
    unfold Needed
    decide
  exact h ⟨['a'], [['b']], []⟩ (by decide) rfl _ Relation.ReflTransGen.refl
    ((Relation.TransGen.single hab).tail hba)

/-- Reading does not come to the last file. -/
theorem library_ne_of_looksFor_twoCycle {a : PluginFile} {name : CString}
    (h : twoCycle.LooksFor a name) : a.library ≠ ['c'] := by
  obtain ⟨_, _, ha, -, -⟩ := h
  intro hlibrary
  cases ha with
  | listed hmem hbefore =>
      refine not_clear_twoCycle (hbefore ⟨['a'], [['b']], []⟩ (by decide) ?_)
      rw [path, path, hlibrary]
      decide
  | @needed c _ _ _ hc hdepends _ _ =>
      have hnot : ∀ a ∈ twoCycle.files, ['c'] ∉ a.depends := by decide
      refine hnot c hc.mem ?_
      rw [hdepends, hlibrary]
      exact List.mem_append_right _ List.mem_cons_self

theorem readsRight_diamond_twoCycle :
    diamond.ReadsRight ['f'] Flow.empty ∧ twoCycle.ReadsRight ['f'] Flow.empty := by
  constructor
  · refine readsRight (by decide) (fun a name hname b hb => ?_) fun _ a name hname => ?_
    · have hfound : ∀ a ∈ diamond.files, ∀ name ∈ a.depends,
          (diamond.candidate name).map PluginFile.library = some name := by decide
      have h := hfound a hname.mem.1 name hname.mem.2
      rw [hb] at h
      exact Option.some.inj h
    · have hpresent : ∀ a ∈ diamond.files, ∀ name ∈ a.depends,
          ∃ b ∈ diamond.files, b.library = name := by decide
      exact hpresent a hname.mem.1 name hname.mem.2
  · have hfound : ∀ a ∈ twoCycle.files, a.library ≠ ['c'] → ∀ name ∈ a.depends,
        (twoCycle.candidate name).map PluginFile.library = some name := by decide
    refine readsRight (by decide) (fun a name hname b hb => ?_) fun _ a name hname => ?_
    · have h := hfound a hname.mem.1 (library_ne_of_looksFor_twoCycle hname) name hname.mem.2
      rw [hb] at h
      exact Option.some.inj h
    · have h := hfound a hname.mem.1 (library_ne_of_looksFor_twoCycle hname) name hname.mem.2
      obtain ⟨b, hb, hlibrary⟩ := Option.map_eq_some_iff.mp h
      exact ⟨b, candidate_mem hb, hlibrary⟩

/-- A directory with the name of a plugin in its own path. -/
def directoryOfPlugin : PluginSource where
  dir := ['p', '/', 'a', '.', 'x', 'm', 'l', '.', 'd']
  files := [⟨['0'], [['a']], []⟩, ⟨['a'], [], []⟩]
  nodup := by decide

/-- The first file is found in place of the second one, and looks like a circular dependency. -/
theorem exists_not_readsRight : ∃ (source : PluginSource) (filename : CString) (flow : Flow),
    (∀ a ∈ source.files, canonize (source.path a) ≠ canonize filename) ∧
      ¬ source.ReadsRight filename flow := by
  refine ⟨directoryOfPlugin, ['f'], Flow.empty, by decide, fun ⟨r, _, hr, hright, _⟩ => ?_⟩
  have hordered : InOrder directoryOfPlugin.Needed [⟨['a'], [], []⟩, ⟨['0'], [['a']], []⟩] := by
    have hfirst : ∀ b ∈ directoryOfPlugin.files, b.library ∉ ([] : List CString) := by decide
    have hlast : ∀ b ∈ directoryOfPlugin.files, b.library ∈ [['a']] →
        b ∈ [(⟨['a'], [], []⟩ : PluginFile)] := by decide
    refine (inOrder_nil.concat fun b hb => ?_).concat fun b hb => ?_
    · exact absurd hb.2.2 (hfirst b hb.1)
    · exact hlast b hb.1 hb.2.2
  have hlisted : ∀ b ∈ directoryOfPlugin.files,
      b ∈ [(⟨['a'], [], []⟩ : PluginFile), ⟨['0'], [['a']], []⟩] := by decide
  have hacyclic := acyclic_of_inOrder hordered fun a b hab => hlisted b hab.2.1
  have hpresent : directoryOfPlugin.Present := by
    unfold Present
    decide
  obtain ⟨order, s, rfl, -⟩ := hright hacyclic hpresent
  have hrun : (directoryOfPlugin.readxmldir 3 (start ['f'] Flow.empty)).toBool = false := by
    decide
  rw [hr 3 (by decide)] at hrun
  cases hrun

end PluginSource

end Reader
end OFlux
