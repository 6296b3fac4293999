import OFlux.Library.TransitionSystem

/-!
# Machines that answer calls

A machine is a state on which calls are made one after another.  A call that returns
gives an answer and leaves a state; a call need not return.

Main results:

- Theorem {lit}`Machine.Bisimulation.trace_iff`: two machines whose calls match, in both
  directions, give the same answers to every sequence of calls.
- Theorem {lit}`Machine.Bisimulation.beside_step`: side by side they stay related.
- Theorem {lit}`Machine.exists_trace_iff`: when a machine answers a sequence of calls as a function
  does.
- Theorem {lit}`Machine.Trace.accumulate`: what the calls bring in is what they hand out
  and what is left.
- Theorem {lit}`Machine.During.append`: what was the case between two calls stays so.
-/

namespace OFlux
namespace Library

universe u v w x y

/-- The initial states, and the calls that return. -/
structure Machine (σ : Type u) (κ : Type v) (α : Type w) where
  init : σ → Prop
  call : σ → κ → α → σ → Prop

namespace Machine

variable {σ : Type u} {τ : Type x} {κ : Type v} {α : Type w}

/-- A sequence of calls with their answers, from one state to another one. -/
inductive Trace (M : Machine σ κ α) : σ → List (κ × α) → σ → Prop where
  | nil (s : σ) : Trace M s [] s
  | cons {s t u : σ} {k : κ} {a : α} {rest : List (κ × α)} :
      M.call s k a t → Trace M t rest u → Trace M s ((k, a) :: rest) u

/-- What every call keeps holds after every sequence of calls. -/
theorem Trace.invariant {M : Machine σ κ α} {I : σ → Prop}
    (hI : ∀ s k a t, I s → M.call s k a t → I t) {s t : σ} {trace : List (κ × α)}
    (hs : I s) (h : M.Trace s trace t) : I t := by
  induction h with
  | nil s => exact hs
  | cons hcall _ ih => exact ih (hI _ _ _ _ hs hcall)

/-- What each call puts behind a list and takes from its front. -/
theorem Trace.accumulate {M : Machine σ κ α} {β : Type y} {I : σ → Prop}
    {now : σ → List β} {asked given : κ × α → List β}
    (hI : ∀ s k a t, I s → M.call s k a t → I t)
    (hcall : ∀ s k a t, I s → M.call s k a t → now s ++ asked (k, a) = given (k, a) ++ now t)
    {s t : σ} {trace : List (κ × α)} (hs : I s) (h : M.Trace s trace t) :
    now s ++ trace.flatMap asked = trace.flatMap given ++ now t := by
  induction h with
  | nil s => simp
  | cons hfirst _ ih =>
      have hrest := ih (hI _ _ _ _ hs hfirst)
      simp only [List.flatMap_cons]
      rw [← List.append_assoc, hcall _ _ _ _ hs hfirst, List.append_assoc, hrest,
        List.append_assoc]

theorem Trace.snoc {M : Machine σ κ α} {s t u : σ} {trace : List (κ × α)} {k : κ} {a : α}
    (h : M.Trace s trace t) (hcall : M.call t k a u) : M.Trace s (trace ++ [(k, a)]) u := by
  induction h with
  | nil s => exact .cons hcall (.nil u)
  | cons hfirst _ ih => exact .cons hfirst (ih hcall)

/-- After some of the calls, no fewer than {lit}`since` and no more than {lit}`till`, the machine was
in a state with a property. -/
def During (M : Machine σ κ α) (s : σ) (trace : List (κ × α)) (since till : Nat) (P : σ → Prop) :
    Prop :=
  till ≤ trace.length ∧ ∃ n t, since ≤ n ∧ n ≤ till ∧ M.Trace s (trace.take n) t ∧ P t

section

variable {M : Machine σ κ α} {s t : σ} {trace : List (κ × α)} {since till : Nat} {P : σ → Prop}

/-- What holds at the end holds during the last stretch. -/
theorem Trace.during (h : M.Trace s trace t) (hP : P t) (hsince : since ≤ trace.length) :
    M.During s trace since trace.length P :=
  ⟨Nat.le_refl _, trace.length, t, hsince, Nat.le_refl _, trace.take_length.symm ▸ h, hP⟩

/-- A weaker property holds during the same stretch. -/
theorem During.imp {Q : σ → Prop} (h : M.During s trace since till P) (hPQ : ∀ t, P t → Q t) :
    M.During s trace since till Q := by
  obtain ⟨htill, n, t, hsince, hn, htrace, hP⟩ := h
  exact ⟨htill, n, t, hsince, hn, htrace, hPQ t hP⟩

/-- Further calls change nothing about those before them. -/
theorem During.append (h : M.During s trace since till P) (more : List (κ × α)) {till' : Nat}
    (hle : till ≤ till') (hlen : till' ≤ (trace ++ more).length) :
    M.During s (trace ++ more) since till' P := by
  obtain ⟨htill, n, t, hsince, hn, htrace, hP⟩ := h
  refine ⟨hlen, n, t, hsince, Nat.le_trans hn hle, ?_, hP⟩
  rwa [List.take_append_of_le_length (Nat.le_trans hn htill)]

end

/-- When every call has a match on another machine, so has every sequence of calls. -/
theorem Trace.simulate {C : Machine σ κ α} {A : Machine τ κ α} {R : σ → τ → Prop}
    (hforth : ∀ {s a k ans s'}, R s a → C.call s k ans s' → ∃ a', A.call a k ans a' ∧ R s' a')
    {s s' : σ} {a : τ} {trace : List (κ × α)} (hR : R s a) (h : C.Trace s trace s') :
    ∃ a', A.Trace a trace a' ∧ R s' a' := by
  induction h generalizing a with
  | nil s => exact ⟨a, .nil a, hR⟩
  | cons hcall _ ih =>
      obtain ⟨a1, hcall', hR1⟩ := hforth hR hcall
      obtain ⟨a2, hrest, hR2⟩ := ih hR1
      exact ⟨a2, .cons hcall' hrest, hR2⟩

/-- Calls of the two machines match: each call that returns on one side returns on the
other one, with the same answer. -/
structure Bisimulation (C : Machine σ κ α) (A : Machine τ κ α) (R : σ → τ → Prop) : Prop where
  forth : ∀ {s a k ans s'}, R s a → C.call s k ans s' → ∃ a', A.call a k ans a' ∧ R s' a'
  back : ∀ {s a k ans a'}, R s a → A.call a k ans a' → ∃ s', C.call s k ans s' ∧ R s' a'

namespace Bisimulation

variable {C : Machine σ κ α} {A : Machine τ κ α} {R : σ → τ → Prop}

/-- The traces of the first machine are traces of the second. -/
theorem forth_trace (h : Bisimulation C A R) {s s' : σ} {a : τ} {trace : List (κ × α)}
    (hR : R s a) (htrace : C.Trace s trace s') : ∃ a', A.Trace a trace a' ∧ R s' a' :=
  htrace.simulate h.forth hR

/-- The traces of the second machine are traces of the first. -/
theorem back_trace (h : Bisimulation C A R) {s : σ} {a a' : τ} {trace : List (κ × α)}
    (hR : R s a) (htrace : A.Trace a trace a') : ∃ s', C.Trace s trace s' ∧ R s' a' :=
  htrace.simulate (fun {a _ _ _ _} hR hcall => h.back (a := a) hR hcall) hR

/-- Related states have the same traces. -/
theorem trace_iff (h : Bisimulation C A R) {s : σ} {a : τ} (hR : R s a)
    (trace : List (κ × α)) :
    (∃ s', C.Trace s trace s') ↔ ∃ a', A.Trace a trace a' := by
  constructor
  · rintro ⟨s', htrace⟩
    obtain ⟨a', htrace', -⟩ := h.forth_trace hR htrace
    exact ⟨a', htrace'⟩
  · rintro ⟨a', htrace⟩
    obtain ⟨s', htrace', -⟩ := h.back_trace hR htrace
    exact ⟨s', htrace'⟩

end Bisimulation

/-- A call has one answer and one state after it. -/
def Deterministic (A : Machine τ κ α) : Prop :=
  ∀ {s k a b t u}, A.call s k a t → A.call s k b u → a = b ∧ t = u

/-! ## What a function answers -/

/-- The calls with the answers of a function. -/
def traceOf (next : τ → κ → α × τ) (a : τ) : List κ → List (κ × α)
  | [] => []
  | k :: calls => (k, (next a k).1) :: traceOf next (next a k).2 calls

/-- The machine that answers as a function does. -/
def ofNext (init : τ → Prop) (next : τ → κ → α × τ) : Machine τ κ α where
  init := init
  call s k a t := next s k = (a, t)

/-- If a call is answered as the function says exactly when it fits, a sequence of calls is answered
so exactly when each of them fits in its turn.  What relates the states may use up a budget. -/
theorem exists_trace_iff {C : Machine σ κ α} {next : τ → κ → α × τ} {R : Nat → σ → τ → Prop}
    {Fits : τ → κ → Prop} (hC : C.Deterministic)
    (hforth : ∀ {n s a k}, R (n + 1) s a → Fits a k →
      ∃ t, C.call s k (next a k).1 t ∧ R n t (next a k).2)
    (hnot : ∀ {n s a k t}, R (n + 1) s a → ¬ Fits a k → ¬ C.call s k (next a k).1 t)
    {n : Nat} {s : σ} {a : τ} (hR : R n s a) {calls : List κ} (hn : calls.length ≤ n) :
    (∃ t, C.Trace s (traceOf next a calls) t) ↔
      TransitionSystem.AllAllowed Fits (fun a k => (next a k).2) a calls := by
  induction calls generalizing n s a with
  | nil => exact iff_of_true ⟨s, .nil s⟩ trivial
  | cons k calls ih =>
      obtain ⟨n, rfl⟩ : ∃ m, n = m + 1 := Nat.exists_eq_add_of_le' (Nat.one_le_of_lt hn)
      have hn' : calls.length ≤ n := Nat.le_of_succ_le_succ hn
      constructor
      · rintro ⟨u, htrace⟩
        cases htrace with
        | cons hcall hrest =>
            have hfits : Fits a k := by
              by_contra hno
              exact hnot hR hno hcall
            obtain ⟨t, hcall', hR'⟩ := hforth hR hfits
            obtain ⟨-, rfl⟩ := hC hcall hcall'
            exact ⟨hfits, (ih hR' hn').mp ⟨u, hrest⟩⟩
      · rintro ⟨hfits, hrest⟩
        obtain ⟨t, hcall, hR'⟩ := hforth hR hfits
        obtain ⟨u, htrace⟩ := (ih hR' hn').mpr hrest
        exact ⟨u, .cons hcall htrace⟩

/-- What relates the states and is kept by each call relates those after a sequence of calls. -/
theorem Trace.related {C : Machine σ κ α} {next : τ → κ → α × τ} {R : σ → τ → Prop}
    (hkeep : ∀ {s a k t}, R s a → C.call s k (next a k).1 t → R t (next a k).2) {s t : σ} {a : τ}
    {calls : List κ} (hR : R s a) (h : C.Trace s (traceOf next a calls) t) :
    R t (calls.foldl (fun a k => (next a k).2) a) := by
  induction calls generalizing s a with
  | nil =>
      cases h
      exact hR
  | cons k calls ih =>
      cases h with
      | cons hcall hrest => exact ih (hkeep hR hcall) hrest

/-! ## Two machines side by side -/

/-- The states of two machines, and what they answered to the last call. -/
structure Beside (σ : Type u) (τ : Type x) (α : Type w) where
  left : σ
  right : τ
  answers : Option (α × α) := none

/-- The same calls on both machines. -/
def beside (C : Machine σ κ α) (A : Machine τ κ α) : TransitionSystem (Beside σ τ α) κ where
  init s := C.init s.left ∧ A.init s.right ∧ s.answers = none
  step s k t := ∃ c a, C.call s.left k c t.left ∧ A.call s.right k a t.right ∧
    t.answers = some (c, a)

/-- Both machines have given the same answers. -/
def Beside.SameAnswers (s : Beside σ τ α) : Prop :=
  ∀ p ∈ s.answers, p.1 = p.2

namespace Bisimulation

variable {C : Machine σ κ α} {A : Machine τ κ α} {R : σ → τ → Prop} {s t : Beside σ τ α} {k : κ}

/-- Related states stay related, and give the same answers. -/
theorem beside_step (h : Bisimulation C A R) (hA : A.Deterministic) (hR : R s.left s.right)
    (hstep : (C.beside A).step s k t) : R t.left t.right ∧ t.SameAnswers := by
  obtain ⟨c, a, hc, ha, hanswers⟩ := hstep
  obtain ⟨t', ha', hR'⟩ := h.forth hR hc
  obtain ⟨hcall, hstate⟩ := hA ha' ha
  refine ⟨hstate ▸ hR', ?_⟩
  intro p hp
  rw [hanswers, Option.mem_some_iff] at hp
  rw [← hp, hcall]

/-- A call on the second machine can be made on both. -/
theorem exists_beside_step (h : Bisimulation C A R) (hR : R s.left s.right) {a : α} {u : τ}
    (ha : A.call s.right k a u) :
    ∃ t, (C.beside A).step s k t ∧ t.right = u ∧ R t.left t.right := by
  obtain ⟨t', hc, hR'⟩ := h.back hR ha
  exact ⟨⟨t', u, some (a, a)⟩, ⟨a, a, hc, ha, rfl⟩, rfl, hR'⟩

end Bisimulation

end Machine

end Library
end OFlux
