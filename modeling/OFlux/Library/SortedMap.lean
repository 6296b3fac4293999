import Mathlib.Data.List.Sort
import Mathlib.Data.Prod.Lex

/-!
# Maps as sorted lists

A finite map from the keys of a linear order, kept as the list of its entries with ascending
keys.  An insertion replaces the entry of its key.

Main results:

- Theorem {lit}`find_add`: what is found after an insertion.
- Theorem {lit}`mem_entries_iff`: the entries are what is found.
- Theorem {lit}`mem_fold`: what a fold that adds to a list collects.
-/

namespace OFlux
namespace Library

universe u v w

/-- A finite map whose entries stand in the order of their keys. -/
structure SortedMap (κ : Type u) (β : Type v) [LinearOrder κ] where
  entries : List (κ × β)
  ascending : entries.Pairwise fun x y => x.1 < y.1

namespace SortedMap

variable {κ : Type u} {β : Type v} [LinearOrder κ]

/-- The map without entries. -/
def empty : SortedMap κ β where
  entries := []
  ascending := List.Pairwise.nil

/-- Put an entry where its key belongs. -/
def addEntry (k : κ) (b : β) : List (κ × β) → List (κ × β)
  | [] => [(k, b)]
  | (k', b') :: rest =>
      if k < k' then (k, b) :: (k', b') :: rest
      else if k = k' then (k, b) :: rest
      else (k', b') :: addEntry k b rest

/-- An addition adds one entry. -/
theorem mem_addEntry_key {k : κ} {b : β} {l : List (κ × β)} {x : κ × β}
    (h : x ∈ addEntry k b l) : x = (k, b) ∨ x ∈ l := by
  induction l with
  | nil => exact Or.inl (List.mem_singleton.mp h)
  | cons y l ih =>
      unfold addEntry at h
      split at h
      · exact List.mem_cons.mp h
      · split at h
        · exact (List.mem_cons.mp h).imp_right (List.mem_cons_of_mem _)
        · rcases List.mem_cons.mp h with rfl | h
          · exact Or.inr List.mem_cons_self
          · exact (ih h).imp_right (List.mem_cons_of_mem _)

/-- An addition keeps the keys in order. -/
theorem ascending_addEntry (k : κ) (b : β) {l : List (κ × β)}
    (h : l.Pairwise fun x y => x.1 < y.1) :
    (addEntry k b l).Pairwise fun x y => x.1 < y.1 := by
  induction l with
  | nil => simp [addEntry]
  | cons y l ih =>
      obtain ⟨hy, hl⟩ := List.pairwise_cons.mp h
      unfold addEntry
      split
      next hlt =>
        refine List.pairwise_cons.mpr ⟨fun x hx => ?_, h⟩
        rcases List.mem_cons.mp hx with rfl | hx
        · exact hlt
        · exact hlt.trans (hy x hx)
      next hlt =>
        split
        next heq => exact List.pairwise_cons.mpr ⟨fun x hx => heq ▸ hy x hx, hl⟩
        next hne =>
          refine List.pairwise_cons.mpr ⟨fun x hx => ?_, ih hl⟩
          rcases mem_addEntry_key hx with rfl | hx
          · exact lt_of_le_of_ne (not_lt.mp hlt) (Ne.symm hne)
          · exact hy x hx

/-- Enter a value; one that is there under the key is replaced. -/
def add (k : κ) (b : β) (m : SortedMap κ β) : SortedMap κ β where
  entries := addEntry k b m.entries
  ascending := ascending_addEntry k b m.ascending

/-- The value under a key. -/
def find (k : κ) (m : SortedMap κ β) : Option β :=
  m.entries.lookup k

/-- Fold over the entries, the smallest key first. -/
def fold {σ : Type w} (f : κ → β → σ → σ) (m : SortedMap κ β) (w : σ) : σ :=
  m.entries.foldl (fun w entry => f entry.1 entry.2 w) w

/-! ## What is found -/

@[simp]
theorem find_empty (k : κ) : (empty : SortedMap κ β).find k = none :=
  rfl

theorem lookup_cons {α : Type u} [DecidableEq α] [BEq α] [LawfulBEq α] (k : α)
    (entry : α × β) (l : List (α × β)) :
    (entry :: l).lookup k = if k = entry.1 then some entry.2 else l.lookup k := by
  obtain ⟨key, b⟩ := entry
  rw [List.lookup_cons]
  by_cases h : k = key
  · rw [if_pos h, beq_iff_eq.mpr h]
  · rw [if_neg h, beq_eq_false_iff_ne.mpr h]

/-- The entries after one was added. -/
theorem lookup_addEntry (k k' : κ) (b : β) {l : List (κ × β)}
    (h : l.Pairwise fun x y => x.1 < y.1) :
    (addEntry k b l).lookup k' = if k' = k then some b else l.lookup k' := by
  induction l with
  | nil => exact lookup_cons k' (k, b) []
  | cons y l ih =>
      unfold addEntry
      split
      next => exact lookup_cons k' (k, b) (y :: l)
      next =>
        split
        next heq =>
          rw [lookup_cons, lookup_cons, heq]
          split <;> rfl
        next hne =>
          rw [lookup_cons, lookup_cons, ih (List.pairwise_cons.mp h).2]
          split
          next hk => rw [if_neg fun heq => hne (heq.symm.trans hk)]
          next => rfl

/-- The map after one binding was added. -/
theorem find_add (k k' : κ) (b : β) (m : SortedMap κ β) :
    (m.add k b).find k' = if k' = k then some b else m.find k' :=
  lookup_addEntry k k' b m.ascending

/-- An entry is one that is looked up. -/
theorem mem_iff_lookup {l : List (κ × β)} (h : l.Pairwise fun x y => x.1 < y.1) {k : κ} {b : β} :
    (k, b) ∈ l ↔ l.lookup k = some b := by
  induction l with
  | nil => simp
  | cons y l ih =>
      obtain ⟨hy, hl⟩ := List.pairwise_cons.mp h
      rw [List.mem_cons, lookup_cons]
      split
      next hk =>
        have hnot : (k, b) ∉ l := fun hmem => absurd (hy _ hmem) (by simp [hk])
        rw [or_iff_left hnot, Prod.ext_iff, Option.some.injEq]
        exact ⟨fun heq => heq.2.symm, fun heq => ⟨hk, heq.symm⟩⟩
      next hk => simp [hk, Prod.ext_iff, ih hl]

/-- The entries are what is found. -/
theorem mem_entries_iff {m : SortedMap κ β} {k : κ} {b : β} :
    (k, b) ∈ m.entries ↔ m.find k = some b :=
  mem_iff_lookup m.ascending

/-- What a fold that adds to a list has in the end. -/
theorem mem_fold {α : Type w} {f : κ → β → List α → List α} {P : κ → β → α → Prop}
    (hf : ∀ k b l x, x ∈ f k b l ↔ x ∈ l ∨ P k b x) {m : SortedMap κ β} {l : List α} {x : α} :
    x ∈ m.fold f l ↔ x ∈ l ∨ ∃ k b, m.find k = some b ∧ P k b x := by
  simp only [← mem_entries_iff]
  unfold fold
  generalize m.entries = entries
  induction entries generalizing l with
  | nil => simp
  | cons entry entries ih =>
      rw [List.foldl_cons, ih, hf, or_assoc]
      refine or_congr_right ⟨?_, ?_⟩
      · rintro (hx | ⟨k, b, hmem, hx⟩)
        · exact ⟨entry.1, entry.2, List.mem_cons_self, hx⟩
        · exact ⟨k, b, List.mem_cons_of_mem _ hmem, hx⟩
      · rintro ⟨k, b, hmem, hx⟩
        rcases List.mem_cons.mp hmem with heq | hmem
        · exact Or.inl (heq ▸ hx)
        · exact Or.inr ⟨k, b, hmem, hx⟩

end SortedMap
end Library
end OFlux
