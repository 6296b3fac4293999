import Mathlib.Data.List.Basic

/-!
# Lists of alternatives tried side by side

Several lists of guarded alternatives are tried side by side, each of them in order: of each list
the first alternative whose guard holds is taken.  Lists can be merged place by place; if at most
one of the merged parts has an alternative whose guard holds, the merge takes what that part
takes.

Main results:

- Theorem {lit}`taken_append`: more lists.
- Theorem {lit}`taken_foldl_mergeBefore`: lists merged place by place.
-/

namespace OFlux
namespace Library
namespace FirstMatch

universe u

variable {α : Type u}

/-! ## Merging place by place -/

/-- Combine two lists place by place; what is left of the longer one stays as it is. -/
def zipLongest (f : α → α → α) : List α → List α → List α
  | h1 :: t1, h2 :: t2 => f h1 h2 :: zipLongest f t1 t2
  | [], l => l
  | l, [] => l

@[simp]
theorem zipLongest_nil_left (f : α → α → α) (l : List α) : zipLongest f [] l = l := by
  rw [zipLongest]

@[simp]
theorem zipLongest_nil_right (f : α → α → α) (l : List α) : zipLongest f l [] = l := by
  cases l <;> rw [zipLongest]
  simp

@[simp]
theorem zipLongest_cons (f : α → α → α) (a b : α) (l m : List α) :
    zipLongest f (a :: l) (b :: m) = f a b :: zipLongest f l m := by
  rw [zipLongest]

/-- The result is as long as the longer list. -/
theorem length_zipLongest (f : α → α → α) (l m : List α) :
    (zipLongest f l m).length = max l.length m.length := by
  induction l generalizing m with
  | nil => simp
  | cons a l ih =>
      cases m with
      | nil => simp
      | cons b m => simp [ih, Nat.succ_max_succ]

/-! ## What is taken -/

/-- One of the lists takes the alternative. -/
def Taken (p : α → Bool) (ls : List (List α)) (a : α) : Prop :=
  ∃ l ∈ ls, l.find? p = some a

/-- No guard holds. -/
def Idle (p : α → Bool) (ls : List (List α)) : Prop :=
  ∀ l ∈ ls, l.find? p = none

variable {p : α → Bool} {ls ms : List (List α)} {l m : List α} {a : α}

theorem idle_nil : Idle p [] := by
  simp [Idle]

theorem not_taken_nil : ¬ Taken p [] a := by
  simp [Taken]

/-- From idle lists nothing is taken. -/
theorem Idle.not_taken (h : Idle p ls) : ¬ Taken p ls a := by
  rintro ⟨l, hl, ha⟩
  rw [h l hl] at ha
  cases ha

/-- Lists from which nothing is taken are idle. -/
theorem idle_of_not_taken (h : ∀ a, ¬ Taken p ls a) : Idle p ls := by
  intro l hl
  cases hfind : l.find? p with
  | none => rfl
  | some a => exact absurd ⟨l, hl, hfind⟩ (h a)

theorem idle_cons : Idle p (l :: ls) ↔ l.find? p = none ∧ Idle p ls :=
  List.forall_mem_cons

theorem taken_cons : Taken p (l :: ls) a ↔ l.find? p = some a ∨ Taken p ls a := by
  simp [Taken]

theorem taken_append : Taken p (ls ++ ms) a ↔ Taken p ls a ∨ Taken p ms a := by
  simp [Taken, or_and_right, exists_or]

/-- Parts are idle when each is. -/
theorem idle_flatten {lss : List (List (List α))} :
    Idle p lss.flatten ↔ ∀ ls ∈ lss, Idle p ls := by
  simp only [Idle, List.mem_flatten]
  exact ⟨fun h ls hls l hl => h l ⟨ls, hls, hl⟩, fun h l ⟨ls, hls, hl⟩ => h ls hls l hl⟩

/-! ## Merged lists -/

/-- The alternatives of the second list come first. -/
abbrev mergeBefore : List (List α) → List (List α) → List (List α) :=
  zipLongest fun l m => m ++ l

/-- Merging idle lists gives idle lists. -/
theorem idle_mergeBefore (hls : Idle p ls) (hms : Idle p ms) : Idle p (mergeBefore ls ms) := by
  induction ls generalizing ms with
  | nil => simpa using hms
  | cons l ls ih =>
      cases ms with
      | nil => simpa using hls
      | cons m ms =>
          rw [idle_cons] at hls hms
          rw [mergeBefore, zipLongest_cons, idle_cons, List.find?_append, hls.1, hms.1]
          exact ⟨rfl, ih hls.2 hms.2⟩

/-- Idle lists in front hide nothing. -/
theorem taken_mergeBefore_of_idle_left (hls : Idle p ls) :
    Taken p (mergeBefore ls ms) a ↔ Taken p ms a := by
  induction ls generalizing ms with
  | nil => simp [mergeBefore]
  | cons l ls ih =>
      cases ms with
      | nil => simpa [mergeBefore, not_taken_nil] using hls.not_taken
      | cons m ms =>
          rw [idle_cons] at hls
          rw [mergeBefore, zipLongest_cons, taken_cons, taken_cons, List.find?_append, hls.1,
            Option.or_none]
          exact or_congr_right (ih hls.2)

/-- Idle lists behind add nothing. -/
theorem taken_mergeBefore_of_idle_right (hms : Idle p ms) :
    Taken p (mergeBefore ls ms) a ↔ Taken p ls a := by
  induction ls generalizing ms with
  | nil => simpa [mergeBefore, not_taken_nil] using hms.not_taken
  | cons l ls ih =>
      cases ms with
      | nil => simp [mergeBefore]
      | cons m ms =>
          rw [idle_cons] at hms
          rw [mergeBefore, zipLongest_cons, taken_cons, taken_cons, List.find?_append, hms.1,
            Option.none_or]
          exact or_congr_right (ih hms.2)

/-- If at most one part has an alternative whose guard holds, the merge of all of them takes
what one of them takes. -/
theorem taken_foldl_mergeBefore {lss : List (List (List α))}
    (h : (ls :: lss).Pairwise fun ls ms => Idle p ls ∨ Idle p ms) :
    Taken p (lss.foldl mergeBefore ls) a ↔ Taken p ls a ∨ ∃ ms ∈ lss, Taken p ms a := by
  induction lss generalizing ls with
  | nil => simp
  | cons ms lss ih =>
      obtain ⟨hls, hms, hlss⟩ := List.pairwise_cons.mp h |>.imp id List.pairwise_cons.mp
      have hboth := hls ms List.mem_cons_self
      have hmerged : Taken p (mergeBefore ls ms) a ↔ Taken p ls a ∨ Taken p ms a := by
        rcases hboth with hidle | hidle
        · rw [taken_mergeBefore_of_idle_left hidle]
          exact (or_iff_right hidle.not_taken).symm
        · rw [taken_mergeBefore_of_idle_right hidle]
          exact (or_iff_left hidle.not_taken).symm
      have hpairwise : (mergeBefore ls ms :: lss).Pairwise fun ls ms => Idle p ls ∨ Idle p ms := by
        refine List.pairwise_cons.mpr ⟨fun ns hns => ?_, hlss⟩
        rcases hls ns (List.mem_cons_of_mem _ hns) with hidle | hidle
        · rcases hms ns hns with hidle' | hidle'
          · exact Or.inl (idle_mergeBefore hidle hidle')
          · exact Or.inr hidle'
        · exact Or.inr hidle
      rw [List.foldl_cons, ih hpairwise, hmerged, or_assoc]
      simp

/-- Merging many idle lists gives idle lists. -/
theorem idle_foldl_mergeBefore {lss : List (List (List α))} (hls : Idle p ls)
    (h : ∀ ms ∈ lss, Idle p ms) : Idle p (lss.foldl mergeBefore ls) := by
  induction lss generalizing ls with
  | nil => exact hls
  | cons ms lss ih =>
      rw [List.forall_mem_cons] at h
      exact ih (idle_mergeBefore hls h.1) h.2

end FirstMatch
end Library
end OFlux
