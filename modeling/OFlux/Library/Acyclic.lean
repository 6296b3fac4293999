import Mathlib.Data.List.Basic
import Mathlib.Data.Set.Card
import Mathlib.Logic.Relation
import Mathlib.Order.Defs.Unbundled

/-!
# Acyclic relations

Main results:

- Theorem {lit}`acyclic_of_rank`: a rank that grows from each source to the next one
  rules out cycles.
- Theorem {lit}`clearTo_of_forall`: what only clear points lead to is clear.
- Theorem {lit}`acyclic_of_inOrder`: a relation whose field can be put into order has no cycles.
- Theorem {lit}`acyclic_addEdge_iff`: what one more edge does.
- Theorem {lit}`acyclic_replace_iff`: what other edges from one point do.
- Theorem {lit}`Acyclic.wellFounded`: a finite relation without cycles is well-founded.
-/

namespace OFlux
namespace Library

universe u v

variable {α : Type u} {r : α → α → Prop}

/-- No path leads back to where it starts. -/
def Acyclic (r : α → α → Prop) : Prop :=
  ∀ a, ¬ Relation.TransGen r a a

/-! ## Ranks -/

variable {β : Type v} {lt : β → β → Prop} [IsStrictOrder β lt]

/-- Along a path the rank grows. -/
theorem rank_lt_of_transGen {source : α → Prop} {rank : α → β}
    (hsource : ∀ a b, r a b → source a)
    (hrank : ∀ a b, r a b → source b → lt (rank a) (rank b)) {a b : α}
    (h : Relation.TransGen r a b) (hb : source b) : lt (rank a) (rank b) := by
  induction h with
  | single hab => exact hrank _ _ hab hb
  | tail _ hbc ih => exact IsTrans.trans _ _ _ (ih (hsource _ _ hbc)) (hrank _ _ hbc hb)

/-- The rank has to grow only where the path goes on. -/
theorem acyclic_of_rank (lt : β → β → Prop) [IsStrictOrder β lt] (source : α → Prop)
    (rank : α → β)
    (hsource : ∀ a b, r a b → source a)
    (hrank : ∀ a b, r a b → source b → lt (rank a) (rank b)) : Acyclic r := by
  intro a hcycle
  have ha : source a := by
    rcases Relation.TransGen.head'_iff.mp hcycle with ⟨b, hab, -⟩
    exact hsource a b hab
  exact Std.Irrefl.irrefl _ (rank_lt_of_transGen hsource hrank hcycle ha)

/-! ## Without a cycle up to one point -/

/-- No path to this point passes a cycle. -/
def ClearTo (r : α → α → Prop) (a : α) : Prop :=
  ∀ b, Relation.ReflTransGen r b a → ¬ Relation.TransGen r b b

/-- A point is clear when all points before it are. -/
theorem clearTo_of_forall {a : α} (h : ∀ b, r b a → ClearTo r b) : ClearTo r a := by
  intro c hca hcycle
  rcases Relation.ReflTransGen.cases_tail hca with rfl | ⟨b, hcb, hba⟩
  · obtain ⟨b, hab, hba⟩ := Relation.TransGen.tail'_iff.mp hcycle
    exact h b hba b Relation.ReflTransGen.refl (Relation.TransGen.head' hba hab)
  · exact h b hba c hcb hcycle

/-- Without a cycle every point is clear. -/
theorem Acyclic.clearTo (h : Acyclic r) (a : α) : ClearTo r a :=
  fun b _ => h b

/-! ## Lists in order -/

/-- Everything in the list comes after all that is before it in the relation. -/
def InOrder (r : α → α → Prop) (xs : List α) : Prop :=
  ∀ l a l', xs = l ++ a :: l' → ∀ b, r b a → b ∈ l

theorem inOrder_nil : InOrder r [] :=
  fun l a l' heq => absurd heq.symm (List.append_ne_nil_of_right_ne_nil l (List.cons_ne_nil a l'))

/-- A point may follow all that come before it. -/
theorem InOrder.concat {xs : List α} {a : α} (h : InOrder r xs) (ha : ∀ b, r b a → b ∈ xs) :
    InOrder r (xs ++ [a]) := by
  intro l c l' heq b hbc
  rcases List.eq_nil_or_concat l' with rfl | ⟨l'', d, rfl⟩
  · obtain ⟨rfl, hac⟩ := List.append_inj' heq rfl
    cases hac
    exact ha b hbc
  · rw [List.concat_eq_append, ← List.cons_append, ← List.append_assoc] at heq
    exact h l c l'' (List.append_inj' heq rfl).1 b hbc

/-- A relation whose field fits into a list in order has no cycle. -/
theorem acyclic_of_inOrder [DecidableEq α] {xs : List α} (h : InOrder r xs)
    (hmem : ∀ a b, r a b → b ∈ xs) : Acyclic r := by
  refine acyclic_of_rank (· < ·) (fun _ => True) (fun a => xs.idxOf a) (fun _ _ _ => trivial)
    fun b a hba _ => ?_
  -- the part in front of the first occurrence
  have ha := List.idxOf_lt_length_of_mem (hmem b a hba)
  have hsplit : xs = xs.take (xs.idxOf a) ++ a :: xs.drop (xs.idxOf a + 1) := by
    have hdrop := List.drop_eq_getElem_cons ha
    rw [List.getElem_idxOf ha] at hdrop
    rw [← hdrop, List.take_append_drop]
  have hb := h _ _ _ hsplit b hba
  exact (List.mem_take_iff_idxOf_lt (List.mem_of_mem_take hb)).mp hb

/-! ## One more edge -/

/-- The relation with an edge from {lit}`x` to {lit}`y`. -/
def AddEdge (r : α → α → Prop) (x y : α) (a b : α) : Prop :=
  r a b ∨ a = x ∧ b = y

/-- A path with one more edge is an old path, or passes the new edge. -/
theorem transGen_addEdge {x y a b : α} (h : Relation.TransGen (AddEdge r x y) a b) :
    Relation.TransGen r a b ∨
      Relation.ReflTransGen r a x ∧ Relation.ReflTransGen r y b := by
  induction h with
  | single hab =>
      rcases hab with hab | ⟨rfl, rfl⟩
      · exact Or.inl (Relation.TransGen.single hab)
      · exact Or.inr ⟨Relation.ReflTransGen.refl, Relation.ReflTransGen.refl⟩
  | tail _ hbc ih =>
      rcases hbc with hbc | ⟨rfl, rfl⟩
      · rcases ih with hab | ⟨hax, hyb⟩
        · exact Or.inl (hab.tail hbc)
        · exact Or.inr ⟨hax, hyb.tail hbc⟩
      · rcases ih with hab | ⟨hax, -⟩
        · exact Or.inr ⟨hab.to_reflTransGen, Relation.ReflTransGen.refl⟩
        · exact Or.inr ⟨hax, Relation.ReflTransGen.refl⟩

/-- One more edge keeps a relation acyclic exactly when its end does not lead to its
start. -/
theorem acyclic_addEdge_iff {x y : α} :
    Acyclic (AddEdge r x y) ↔ Acyclic r ∧ ¬ Relation.ReflTransGen r y x := by
  have hold : ∀ {a b}, r a b → AddEdge r x y a b := fun h => Or.inl h
  constructor
  · intro h
    refine ⟨fun a hcycle => h a (hcycle.lift id fun _ _ => hold), fun hpath => h x ?_⟩
    exact Relation.TransGen.head' (Or.inr ⟨rfl, rfl⟩) (hpath.lift id fun _ _ => hold)
  · intro ⟨h, hpath⟩ a hcycle
    rcases transGen_addEdge hcycle with hr | ⟨hax, hya⟩
    · exact h a hr
    · exact hpath (hya.trans hax)

theorem Acyclic.mono {r' : α → α → Prop} (h : Acyclic r) (hle : ∀ a b, r' a b → r a b) :
    Acyclic r' :=
  fun a hcycle => h a (hcycle.lift id hle)

/-- A cycle can be run backwards. -/
theorem acyclic_swap_iff : Acyclic (Function.swap r) ↔ Acyclic r := by
  refine forall_congr' fun a => not_congr ?_
  rw [Relation.transGen_swap]

/-! ## The edges of one point -/

/-- The relation without the edges from {lit}`x`. -/
def Off (x : α) (r : α → α → Prop) (a b : α) : Prop :=
  a ≠ x ∧ r a b

/-- A path to {lit}`x` up to its first arrival. -/
theorem reflTransGen_off {a x : α} (h : Relation.ReflTransGen r a x) :
    Relation.ReflTransGen (Off x r) a x := by
  induction h using Relation.ReflTransGen.head_induction_on with
  | refl => exact .refl
  | @head a b hab _ ih =>
      by_cases ha : a = x
      · rw [ha]
      · exact .head ⟨ha, hab⟩ ih

/-- A path avoids the edges of {lit}`x`, or passes one of them. -/
theorem transGen_off (x : α) {a b : α} (h : Relation.TransGen r a b) :
    Relation.TransGen (Off x r) a b ∨
      Relation.ReflTransGen r a x ∧ Relation.TransGen r x b := by
  induction h with
  | @single b hab =>
      by_cases ha : a = x
      · exact Or.inr ⟨ha ▸ .refl, ha ▸ .single hab⟩
      · exact Or.inl (.single ⟨ha, hab⟩)
  | @tail b c hab hbc ih =>
      rcases ih with hoff | ⟨hax, hxb⟩
      · by_cases hb : b = x
        · exact Or.inr ⟨hb ▸ hab.to_reflTransGen, hb ▸ .single hbc⟩
        · exact Or.inl (hoff.tail ⟨hb, hbc⟩)
      · exact Or.inr ⟨hax, hxb.tail hbc⟩

/-- A relation is acyclic exactly when it is so without the edges of a point, and none of these
leads back. -/
theorem acyclic_iff_off (x : α) :
    Acyclic r ↔ Acyclic (Off x r) ∧ ∀ b, r x b → ¬ Relation.ReflTransGen r b x := by
  constructor
  · intro h
    refine ⟨fun a hcycle => h a (hcycle.lift id fun _ _ => And.right), fun b hxb hbx => ?_⟩
    exact h x (Relation.TransGen.head' hxb hbx)
  · rintro ⟨hoff, hback⟩ a hcycle
    rcases transGen_off x hcycle with hcycle | ⟨hax, hxa⟩
    · exact hoff a hcycle
    · obtain ⟨b, hxb, hba⟩ := Relation.TransGen.head'_iff.mp hxa
      exact hback b hxb (hba.trans hax)

theorem off_congr {x : α} {r' : α → α → Prop} (h : ∀ a b, a ≠ x → (r' a b ↔ r a b)) :
    Off x r' = Off x r := by
  funext a b
  exact propext (and_congr_right fun ha => h a b ha)

/-- The edges of one point are replaced: some are added, and what goes leads nowhere. -/
theorem acyclic_replace_iff {x : α} {r' : α → α → Prop} {S : α → Prop}
    (hoff : ∀ a b, a ≠ x → (r' a b ↔ r a b)) (hnew : ∀ b, r' x b → r x b ∨ S b)
    (hadded : ∀ b, S b → r' x b) (hgone : ∀ b, r x b → r' x b ∨ ∀ c, ¬ r b c) :
    Acyclic r' ↔ Acyclic r ∧ ∀ b, S b → ¬ Relation.ReflTransGen r b x := by
  have hback : ∀ b, Relation.ReflTransGen r' b x ↔ Relation.ReflTransGen r b x := by
    intro b
    constructor
    · intro h
      have hpath := reflTransGen_off h
      rw [off_congr hoff] at hpath
      exact hpath.lift id fun _ _ => And.right
    · intro h
      have hpath := reflTransGen_off h
      rw [← off_congr hoff] at hpath
      exact hpath.lift id fun _ _ => And.right
  have hdead : ∀ b, r x b → ¬ r' x b → ¬ Relation.ReflTransGen r b x := by
    intro b hxb hgoes hbx
    have hleads := (hgone b hxb).resolve_left hgoes
    rcases Relation.ReflTransGen.cases_head hbx with rfl | ⟨c, hbc, -⟩
    · exact hleads _ hxb
    · exact hleads c hbc
  rw [acyclic_iff_off x, acyclic_iff_off (r := r) x, off_congr hoff]
  simp only [hback]
  constructor
  · rintro ⟨hrest, h⟩
    refine ⟨⟨hrest, fun b hxb => ?_⟩, fun b hb => h b (hadded b hb)⟩
    by_cases hkept : r' x b
    · exact h b hkept
    · exact hdead b hxb hkept
  · rintro ⟨⟨hrest, h⟩, hS⟩
    exact ⟨hrest, fun b hxb => (hnew b hxb).elim (h b) (hS b)⟩

/-! ## Finite relations -/

/-- What leads to {lit}`b` is more than what leads to one that comes before it. -/
theorem Acyclic.wellFounded (h : Acyclic r) (hfinite : {a | ∃ b, r a b}.Finite) :
    WellFounded r := by
  let before : α → Set α := fun b => {a | Relation.TransGen r a b}
  have hbefore : ∀ b, (before b).Finite := by
    refine fun b => hfinite.subset fun a ha => ?_
    obtain ⟨c, hac, -⟩ := Relation.TransGen.head'_iff.mp ha
    exact ⟨c, hac⟩
  refine Subrelation.wf (r := InvImage (· < ·) fun b => (before b).ncard) ?_
    (InvImage.wf _ Nat.lt_wfRel.wf)
  intro a b hab
  refine Set.ncard_lt_ncard ((Set.ssubset_iff_of_subset ?_).mpr ⟨a, ?_, h a⟩) (hbefore b)
  · exact fun c hc => Relation.TransGen.tail hc hab
  · exact Relation.TransGen.single hab

end Library
end OFlux
