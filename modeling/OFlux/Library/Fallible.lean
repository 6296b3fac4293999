import Mathlib.Data.List.Forall2

/-!
# Computations that may fail

What it means that a sequence of computations with exceptions succeeds: each of them does,
one after the other.

Main results:

- Theorem {lit}`bind_eq_ok`: a sequence of two.
- Theorem {lit}`foldlM_invariant`: an invariant of a loop.
- Theorem {lit}`foldlM_iff_loopMeets`: what a loop preserves under a condition on its steps.
- Theorem {lit}`foldlM_reverse_loopMeets`: two conditions on the steps of a loop.
- Theorem {lit}`exists_foldlM_range_eq_ok`: a counted loop in which each step prepares the next.
- Theorem {lit}`exists_append_of_foldlM_eq_error`: where a loop fails.
- Theorem {lit}`mapM_eq_ok_iff`: the same computation on every item of a list.
-/

namespace OFlux
namespace Library
namespace Fallible

universe u v

variable {ε : Type u} {α β : Type v}

/-- A sequence succeeds if and only if its parts do. -/
theorem bind_eq_ok {x : Except ε α} {f : α → Except ε β} {b : β} :
    (x >>= f) = .ok b ↔ ∃ a, x = .ok a ∧ f a = .ok b := by
  cases x with
  | error e =>
      constructor
      · intro h
        cases h
      · rintro ⟨a, h, -⟩
        cases h
  | ok a =>
      constructor
      · exact fun h => ⟨a, rfl, h⟩
      · rintro ⟨a', h, hf⟩
        cases h
        exact hf

/-- A success is no error. -/
theorem ok_ne_error {a : α} {e : ε} : (.ok a : Except ε α) ≠ .error e := by
  intro h
  cases h

/-- There is one result. -/
theorem forall_eq_ok_iff {x : Except ε α} {a : α} (h : x = .ok a) {P : α → Prop} :
    (∀ a', x = .ok a' → P a') ↔ P a := by
  constructor
  · exact fun hall => hall a h
  · intro ha a' h'
    cases h.symm.trans h'
    exact ha

/-- What a function makes of the result. -/
theorem map_eq_ok {x : Except ε α} {f : α → β} {b : β} :
    x.map f = .ok b ↔ ∃ a, x = .ok a ∧ f a = b := by
  cases x with
  | error e =>
      constructor
      · intro h
        cases h
      · rintro ⟨a, h, -⟩
        cases h
  | ok a =>
      constructor
      · exact fun h => ⟨a, rfl, Except.ok.inj h⟩
      · rintro ⟨a', h, rfl⟩
        cases h
        rfl

/-- A sequence in which neither part fails so. -/
theorem bind_ne_error {x : Except ε α} {f : α → Except ε β} {e : ε} (hx : x ≠ .error e)
    (hf : ∀ a, x = .ok a → f a ≠ .error e) : (x >>= f) ≠ .error e := by
  cases x with
  | error e' =>
      intro h
      cases h
      exact hx rfl
  | ok a => exact hf a rfl

/-- A loop over one more item. -/
theorem foldlM_cons_eq_ok {f : β → α → Except ε β} {a : α} {l : List α} {s t : β} :
    (a :: l).foldlM f s = .ok t ↔ ∃ s', f s a = .ok s' ∧ l.foldlM f s' = .ok t := by
  rw [List.foldlM_cons, bind_eq_ok]

/-- What every step of a loop preserves, the loop preserves. -/
theorem foldlM_invariant {P : β → Prop} {f : β → α → Except ε β} {l : List α} {s t : β}
    (h : l.foldlM f s = .ok t) (hs : P s)
    (hstep : ∀ a ∈ l, ∀ s s', P s → f s a = .ok s' → P s') : P t := by
  induction l generalizing s with
  | nil =>
      cases h
      exact hs
  | cons a l ih =>
      obtain ⟨s', hs', h⟩ := foldlM_cons_eq_ok.mp h
      rw [List.forall_mem_cons] at hstep
      exact ih h (hstep.1 s s' hs hs') hstep.2

/-- Each step of a loop starts in a state that meets the condition on it. -/
def LoopMeets (f : β → α → Except ε β) (C : β → α → Prop) : β → List α → Prop
  | _, [] => True
  | s, a :: l => C s a ∧ ∀ s', f s a = .ok s' → LoopMeets f C s' l

/-- What each step preserves exactly under its condition, the loop preserves exactly if all its
steps meet theirs. -/
theorem foldlM_iff_loopMeets {I P : β → Prop} {C : β → α → Prop} {f : β → α → Except ε β}
    {l : List α} {s t : β} (h : l.foldlM f s = .ok t) (hs : I s)
    (hI : ∀ a ∈ l, ∀ s s', I s → f s a = .ok s' → I s')
    (hstep : ∀ a ∈ l, ∀ s s', I s → f s a = .ok s' → (P s' ↔ P s ∧ C s a)) :
    P t ↔ P s ∧ LoopMeets f C s l := by
  induction l generalizing s with
  | nil =>
      cases h
      exact (and_iff_left trivial).symm
  | cons a l ih =>
      obtain ⟨s', hs', h⟩ := foldlM_cons_eq_ok.mp h
      rw [List.forall_mem_cons] at hI hstep
      rw [ih h (hI.1 s s' hs hs') hI.2 hstep.2, hstep.1 s s' hs hs', LoopMeets,
        forall_eq_ok_iff hs', and_assoc]

/-- A step for an item establishes something that the other steps keep. -/
theorem foldlM_forall_mem {P : β → Prop} {Q : α → β → Prop} {f : β → α → Except ε β}
    {l : List α} {s t : β} (h : l.foldlM f s = .ok t) (hs : P s)
    (hP : ∀ a ∈ l, ∀ s s', P s → f s a = .ok s' → P s')
    (hQ : ∀ a ∈ l, ∀ s s', P s → f s a = .ok s' → Q a s')
    (hkeep : ∀ a ∈ l, ∀ b s s', P s → Q b s → f s a = .ok s' → Q b s') : ∀ a ∈ l, Q a t := by
  induction l generalizing s with
  | nil => exact List.forall_mem_nil _
  | cons a l ih =>
      obtain ⟨s', hs', h⟩ := foldlM_cons_eq_ok.mp h
      rw [List.forall_mem_cons] at hP hQ hkeep
      have hP' := hP.1 s s' hs hs'
      have hall := foldlM_invariant (P := fun s => P s ∧ Q a s) h ⟨hP', hQ.1 s s' hs hs'⟩
        fun b hb s s' hboth hstep =>
          ⟨hP.2 b hb s s' hboth.1 hstep, hkeep.2 b hb a s s' hboth.1 hboth.2 hstep⟩
      exact List.forall_mem_cons.mpr ⟨hall.2, ih h hP' hP.2 hQ.2 hkeep.2⟩

/-- A loop that fails does so in one of its steps. -/
theorem exists_append_of_foldlM_eq_error {f : β → α → Except ε β} {l : List α} {s : β} {e : ε}
    (h : l.foldlM f s = .error e) :
    ∃ done a rest s', l = done ++ a :: rest ∧ done.foldlM f s = .ok s' ∧ f s' a = .error e := by
  induction l generalizing s with
  | nil => cases h
  | cons a l ih =>
      rw [List.foldlM_cons] at h
      cases hfirst : f s a with
      | error e' =>
          rw [hfirst] at h
          cases h
          exact ⟨[], a, l, s, rfl, rfl, hfirst⟩
      | ok s' =>
          rw [hfirst] at h
          obtain ⟨done, b, rest, t, rfl, hdone, hfail⟩ := ih h
          exact ⟨a :: done, b, rest, t, rfl, foldlM_cons_eq_ok.mpr ⟨s', hfirst, hdone⟩, hfail⟩

/-- A counted loop in which each step succeeds and establishes what the next one needs. -/
theorem exists_foldlM_range_eq_ok {P : Nat → β → Prop} {f : β → Nat → Except ε β} {n : Nat} {s : β}
    (hs : P 0 s) (hstep : ∀ k < n, ∀ s, P k s → ∃ s', f s k = .ok s' ∧ P (k + 1) s') :
    ∃ t, (List.range n).foldlM f s = .ok t ∧ P n t := by
  induction n with
  | zero => exact ⟨s, rfl, hs⟩
  | succ n ih =>
      obtain ⟨t, ht, hP⟩ := ih fun k hk => hstep k (Nat.lt_succ_of_lt hk)
      obtain ⟨t', ht', hP'⟩ := hstep n (Nat.lt_succ_self n) t hP
      refine ⟨t', ?_, hP'⟩
      rw [List.range_succ, List.foldlM_append, ht]
      change [n].foldlM f t = .ok t'
      rw [List.foldlM_cons, ht']
      rfl

/-- It fails from a state with what the steps preserve. -/
theorem exists_of_foldlM_eq_error {P : β → Prop} {f : β → α → Except ε β} {l : List α} {s : β}
    {e : ε} (h : l.foldlM f s = .error e) (hs : P s)
    (hstep : ∀ a ∈ l, ∀ s s', P s → f s a = .ok s' → P s') :
    ∃ a ∈ l, ∃ s', P s' ∧ f s' a = .error e := by
  obtain ⟨done, a, rest, s', rfl, hdone, hfail⟩ := exists_append_of_foldlM_eq_error h
  refine ⟨a, List.mem_append_right _ List.mem_cons_self, s', ?_, hfail⟩
  exact foldlM_invariant hdone hs fun b hb => hstep b (List.mem_append_left _ hb)

/-- Two loops with the same steps from the states with what the steps preserve. -/
theorem foldlM_congr {P : β → Prop} {f g : β → α → Except ε β} {l : List α} {s : β} (hs : P s)
    (hstep : ∀ a ∈ l, ∀ s s', P s → f s a = .ok s' → P s')
    (hfg : ∀ a ∈ l, ∀ s, P s → f s a = g s a) : l.foldlM f s = l.foldlM g s := by
  induction l generalizing s with
  | nil => rfl
  | cons a l ih =>
      rw [List.forall_mem_cons] at hstep hfg
      rw [List.foldlM_cons, List.foldlM_cons, ← hfg.1 s hs]
      cases hfirst : f s a with
      | error e => rfl
      | ok s' => exact ih (hstep.1 s s' hs hfirst) hstep.2 hfg.2

/-- A loop over two lists. -/
theorem foldlM_append_eq_ok {f : β → α → Except ε β} {l l' : List α} {s t : β} :
    (l ++ l').foldlM f s = .ok t ↔ ∃ s', l.foldlM f s = .ok s' ∧ l'.foldlM f s' = .ok t := by
  rw [List.foldlM_append, bind_eq_ok]

/-- A loop goes on behind its first part. -/
theorem foldlM_append_of_ok {f : β → α → Except ε β} {l l' : List α} {s t : β}
    (h : l.foldlM f s = .ok t) : (l ++ l').foldlM f s = l'.foldlM f t := by
  rw [List.foldlM_append, h]
  rfl

/-- A condition on a loop with one more turn. -/
theorem loopMeets_append_singleton {f : β → α → Except ε β} {C : β → α → Prop} {l : List α}
    {a : α} {s t : β} (h : l.foldlM f s = .ok t) :
    LoopMeets f C s (l ++ [a]) ↔ LoopMeets f C s l ∧ C t a := by
  induction l generalizing s with
  | nil =>
      cases h
      exact ⟨fun hC => ⟨trivial, hC.1⟩, fun hC => ⟨hC.2, fun _ _ => trivial⟩⟩
  | cons b l ih =>
      obtain ⟨s', hs', h⟩ := foldlM_cons_eq_ok.mp h
      rw [List.cons_append, LoopMeets, LoopMeets, forall_eq_ok_iff hs', forall_eq_ok_iff hs', ih h,
        and_assoc]

/-- A loop from the last item to the first one.  Two conditions on its steps are the same while an
invariant holds that speaks about the items seen so far, and that they preserve. -/
theorem foldlM_reverse_loopMeets {I : List α → β → Prop} {C D : β → α → Prop}
    {f : β → α → Except ε β} {l : List α} {s t : β} (h : l.reverse.foldlM f s = .ok t)
    (hs : I [] s)
    (hstep : ∀ a l s s', I l s → f s a = .ok s' → (C s a ↔ D s a) ∧ (D s a → I (a :: l) s')) :
    (LoopMeets f C s l.reverse ↔ LoopMeets f D s l.reverse) ∧
      (LoopMeets f D s l.reverse → I l t) := by
  induction l generalizing t with
  | nil =>
      cases h
      exact ⟨Iff.rfl, fun _ => hs⟩
  | cons a l ih =>
      rw [List.reverse_cons] at h ⊢
      obtain ⟨s', hs', h⟩ := foldlM_append_eq_ok.mp h
      obtain ⟨t', ht', h⟩ := foldlM_cons_eq_ok.mp h
      cases h
      obtain ⟨hiff, hkeep⟩ := ih hs'
      rw [loopMeets_append_singleton hs', loopMeets_append_singleton hs', hiff]
      refine ⟨and_congr_right fun hD => (hstep a l s' t (hkeep hD) ht').1, fun hD => ?_⟩
      exact (hstep a l s' t (hkeep hD.1) ht').2 hD.2

/-- A loop with steps that all succeed. -/
theorem foldlM_eq_ok {f : β → α → Except ε β} {g : β → α → β} {l : List α}
    (h : ∀ a ∈ l, ∀ s, f s a = .ok (g s a)) (s : β) : l.foldlM f s = .ok (l.foldl g s) := by
  induction l generalizing s with
  | nil => rfl
  | cons a l ih =>
      rw [List.forall_mem_cons] at h
      rw [List.foldlM_cons, h.1 s, List.foldl_cons]
      exact ih h.2 (g s a)

theorem foldlM_eq_self {f : β → α → Except ε β} {l : List α} {s : β}
    (h : ∀ a ∈ l, f s a = .ok s) : l.foldlM f s = .ok s := by
  induction l with
  | nil => rfl
  | cons a l ih =>
      rw [List.forall_mem_cons] at h
      rw [List.foldlM_cons, h.1]
      exact ih h.2

/-- Each step either changes nothing, or establishes something that the other steps keep. -/
theorem foldlM_eq_self_or {f : β → α → Except ε β} {A : α → Prop} {Q : β → Prop} {l : List α}
    {s t : β} (h : l.foldlM f s = .ok t)
    (hone : ∀ a ∈ l, ∀ s', f s a = .ok s' → s' = s ∧ A a ∨ Q s')
    (hkeep : ∀ a ∈ l, ∀ s₁ s₂, Q s₁ → f s₁ a = .ok s₂ → Q s₂) :
    (t = s ∧ ∀ a ∈ l, A a) ∨ Q t := by
  induction l with
  | nil =>
      cases h
      exact Or.inl ⟨rfl, List.forall_mem_nil _⟩
  | cons a l ih =>
      obtain ⟨s', hs', hrest⟩ := foldlM_cons_eq_ok.mp h
      rw [List.forall_mem_cons] at hone hkeep
      rcases hone.1 s' hs' with ⟨rfl, ha⟩ | hQ
      · refine (ih hrest hone.2 hkeep.2).imp_left fun hl => ⟨hl.1, ?_⟩
        exact List.forall_mem_cons.mpr ⟨ha, hl.2⟩
      · exact Or.inr (foldlM_invariant hrest hQ hkeep.2)

/-- An item on which the step fails always fails the loop. -/
theorem exists_foldlM_eq_error_of_mem {f : β → α → Except ε β} {l : List α} {a : α}
    (ha : a ∈ l) (h : ∀ s, ∃ e, f s a = .error e) (s : β) : ∃ e, l.foldlM f s = .error e := by
  induction l generalizing s with
  | nil => cases ha
  | cons b l ih =>
      rw [List.foldlM_cons]
      cases hb : f s b with
      | error e => exact ⟨e, rfl⟩
      | ok s' =>
          rcases List.mem_cons.mp ha with rfl | ha
          · obtain ⟨e, he⟩ := h s
            rw [he] at hb
            cases hb
          · exact ih ha s'

/-- A loop with steps that succeed where those of another one do, and as they do. -/
theorem foldlM_mono {f g : β → α → Except ε β} {l : List α} {s t : β}
    (hstep : ∀ s a s', f s a = .ok s' → g s a = .ok s') (h : l.foldlM f s = .ok t) :
    l.foldlM g s = .ok t := by
  induction l generalizing s with
  | nil => exact h
  | cons a l ih =>
      obtain ⟨s', hs', h⟩ := foldlM_cons_eq_ok.mp h
      exact foldlM_cons_eq_ok.mpr ⟨s', hstep _ _ _ hs', ih h⟩

/-- A loop of checks that succeeds checked everything. -/
theorem forM_eq_ok {f : α → Except ε PUnit} {l : List α} (h : l.forM f = .ok ⟨⟩) :
    ∀ a ∈ l, f a = .ok ⟨⟩ := by
  induction l with
  | nil => exact fun a ha => absurd ha List.not_mem_nil
  | cons a l ih =>
      rw [List.forM_eq_forM, List.forM_cons] at h
      obtain ⟨_, hfirst, h⟩ := bind_eq_ok.mp h
      exact List.forall_mem_cons.mpr ⟨hfirst, ih h⟩

/-- A map succeeds with the results of its turns. -/
theorem mapM_eq_ok_iff {f : α → Except ε β} {l : List α} {l' : List β} :
    l.mapM f = .ok l' ↔ List.Forall₂ (fun a b => f a = .ok b) l l' := by
  induction l generalizing l' with
  | nil =>
      rw [List.mapM_nil, List.forall₂_nil_left_iff]
      exact ⟨fun h => by cases h; rfl, fun h => h ▸ rfl⟩
  | cons a l ih =>
      rw [List.mapM_cons, bind_eq_ok]
      constructor
      · rintro ⟨b, hb, h⟩
        obtain ⟨bs, hbs, h⟩ := bind_eq_ok.mp h
        cases h
        exact List.Forall₂.cons hb (ih.mp hbs)
      · rintro (_ | ⟨hb, h⟩)
        exact ⟨_, hb, bind_eq_ok.mpr ⟨_, ih.mpr h, rfl⟩⟩

/-- Results of one item at a time. -/
theorem exists_forall₂ {R : α → β → Prop} {l : List α} (h : ∀ a ∈ l, ∃ b, R a b) :
    ∃ l', List.Forall₂ R l l' := by
  induction l with
  | nil => exact ⟨[], List.Forall₂.nil⟩
  | cons a l ih =>
      obtain ⟨⟨b, hb⟩, hl⟩ := List.forall_mem_cons.mp h
      obtain ⟨bs, hbs⟩ := ih hl
      exact ⟨b :: bs, List.Forall₂.cons hb hbs⟩

/-- The same computation on every item fails on one of them. -/
theorem exists_of_mapM_eq_error {f : α → Except ε β} {l : List α} {e : ε}
    (h : l.mapM f = .error e) : ∃ a ∈ l, f a = .error e := by
  induction l with
  | nil => cases h
  | cons a l ih =>
      rw [List.mapM_cons] at h
      cases hfirst : f a with
      | error e' =>
          rw [hfirst] at h
          cases h
          exact ⟨a, List.mem_cons_self, hfirst⟩
      | ok b =>
          rw [hfirst] at h
          cases hrest : l.mapM f with
          | error e' =>
              rw [hrest] at h
              cases h
              obtain ⟨a', ha', hfail⟩ := ih hrest
              exact ⟨a', List.mem_cons_of_mem _ ha', hfail⟩
          | ok bs =>
              rw [hrest] at h
              cases h

/-- The result of every item is among the results. -/
theorem exists_mem_of_mapM {f : α → Except ε β} {l : List α} {l' : List β}
    (h : l.mapM f = .ok l') : ∀ a ∈ l, ∃ b ∈ l', f a = .ok b := by
  induction mapM_eq_ok_iff.mp h with
  | nil => simp
  | cons hb hrest ih =>
      rw [List.forall_mem_cons]
      refine ⟨⟨_, List.mem_cons_self, hb⟩, fun a ha => ?_⟩
      obtain ⟨b, hmem, hb⟩ := ih (mapM_eq_ok_iff.mpr hrest) a ha
      exact ⟨b, List.mem_cons_of_mem _ hmem, hb⟩

end Fallible
end Library
end OFlux
