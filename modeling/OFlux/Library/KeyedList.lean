import Mathlib.Data.List.Nodup
import Mathlib.Data.List.Perm.Basic

/-!
# Lists with keys

A list of items that are told apart by a key, as a map from the keys to the items: an
insertion that keeps what is stored, and the replacement of an item by another one with its
key.

Main results:

- Theorem {lit}`foldl_insert`: insertions under keys that are not stored append.
- Theorem {lit}`mem_foldl_replace`: what is stored after a run of replacements.
-/

namespace OFlux
namespace Library
namespace KeyedList

universe u v

variable {α : Type u} {κ : Type v} [DecidableEq κ] (key : α → κ)

/-- The item stored under a key. -/
def find (k : κ) (l : List α) : Option α :=
  l.find? fun x => key x = k

/-- Store an item, unless its key is in use. -/
def insert (l : List α) (x : α) : List α :=
  if key x ∈ l.map key then l else l ++ [x]

/-- Store an item in place of the one with its key. -/
def replace : List α → α → List α
  | [], _ => []
  | y :: l, x => if key y = key x then x :: l else y :: replace l x

variable {key} {l : List α} {x y : α} {k : κ}

/-! ## Items that are found -/

/-- What is found is in the list, with that key. -/
theorem find_eq_some (h : find key k l = some x) : x ∈ l ∧ key x = k :=
  ⟨List.mem_of_find?_eq_some h, by simpa using List.find?_some h⟩

/-- With different keys every element is found. -/
theorem find_of_mem (key : α → κ) (hnodup : (l.map key).Nodup) (hx : x ∈ l) :
    find key (key x) l = some x := by
  cases hfind : find key (key x) l with
  | none =>
      have hnone := List.find?_eq_none.mp hfind x hx
      simp at hnone
  | some y =>
      obtain ⟨hy, hkey⟩ := find_eq_some hfind
      rw [List.inj_on_of_nodup_map hnodup hy hx hkey]

/-- A key is found when some element has it. -/
theorem find_isSome_iff : (find key k l).isSome ↔ k ∈ l.map key := by
  simp [find, List.find?_isSome]

theorem find_append_cons (key : α → κ) {l₁ l₂ : List α} (h : ∀ z ∈ l₁, key z ≠ key y) :
    find key (key y) (l₁ ++ y :: l₂) = some y := by
  unfold find
  rw [List.find?_append, List.find?_eq_none.mpr fun z hz => by simpa using h z hz, Option.none_or,
    List.find?_cons_of_pos (by simp)]

/-! ## Insertions -/

/-- A new key is inserted at the end. -/
theorem insert_of_not_mem (h : key x ∉ l.map key) : insert key l x = l ++ [x] :=
  if_neg h

/-- Insertions under keys that are not stored append. -/
theorem foldl_insert {xs : List α} (h : ((l ++ xs).map key).Nodup) :
    xs.foldl (insert key) l = l ++ xs := by
  induction xs generalizing l with
  | nil => rw [List.foldl_nil, List.append_nil]
  | cons x xs ih =>
      have hfresh : key x ∉ l.map key := by
        rw [List.map_append, List.map_cons, List.nodup_middle, List.nodup_cons] at h
        exact fun hmem => h.1 (List.mem_append_left _ hmem)
      have hsplit : l ++ x :: xs = l ++ [x] ++ xs := by simp
      rw [List.foldl_cons, insert_of_not_mem hfresh, hsplit]
      rw [hsplit] at h
      exact ih h

/-! ## Replacements -/

@[simp]
theorem map_key_replace (l : List α) (x : α) : (replace key l x).map key = l.map key := by
  induction l with
  | nil => rfl
  | cons y l ih =>
      unfold replace
      split
      next h => rw [List.map_cons, List.map_cons, h]
      next => rw [List.map_cons, List.map_cons, ih]

/-- Replacing an element by itself changes nothing. -/
theorem replace_of_find (h : find key (key x) l = some x) : replace key l x = l := by
  induction l with
  | nil => rfl
  | cons y l ih =>
      unfold find at h
      by_cases hy : key y = key x
      · rw [List.find?_cons_of_pos (by simpa using hy)] at h
        rw [replace, if_pos hy, Option.some.inj h]
      · rw [List.find?_cons_of_neg (by simpa using hy)] at h
        rw [replace, if_neg hy, ih h]

/-- The elements after one was replaced. -/
theorem mem_replace (hnodup : (l.map key).Nodup) (hx : key x ∈ l.map key) :
    y ∈ replace key l x ↔ y = x ∨ (y ∈ l ∧ key y ≠ key x) := by
  induction l with
  | nil => simp at hx
  | cons z l ih =>
      rw [List.map_cons, List.nodup_cons] at hnodup
      by_cases hz : key z = key x
      · have hrest : ∀ w ∈ l, key w ≠ key x := fun w hw heq =>
          hnodup.1 (hz.trans heq.symm ▸ List.mem_map_of_mem hw)
        rw [replace, if_pos hz, List.mem_cons]
        constructor
        · exact Or.imp_right fun hy => ⟨List.mem_cons_of_mem _ hy, hrest y hy⟩
        · refine Or.imp_right fun ⟨hy, hne⟩ => ?_
          exact (List.mem_cons.mp hy).resolve_left fun heq => hne (heq ▸ hz)
      · have hxl : key x ∈ l.map key :=
          (List.mem_cons.mp hx).resolve_left fun heq => hz heq.symm
        rw [replace, if_neg hz, List.mem_cons, ih hnodup.2 hxl, List.mem_cons]
        constructor
        · rintro (rfl | rfl | ⟨hy, hne⟩)
          · exact Or.inr ⟨Or.inl rfl, hz⟩
          · exact Or.inl rfl
          · exact Or.inr ⟨Or.inr hy, hne⟩
        · rintro (rfl | ⟨rfl | hy, hne⟩)
          · exact Or.inr (Or.inl rfl)
          · exact Or.inl rfl
          · exact Or.inr (Or.inr ⟨hy, hne⟩)

theorem find_replace_of_ne (h : k ≠ key x) : find key k (replace key l x) = find key k l := by
  induction l with
  | nil => rfl
  | cons y l ih =>
      unfold find at ih ⊢
      by_cases hy : key y = key x
      · have hyk : key y ≠ k := fun heq => h (heq.symm.trans hy)
        rw [replace, if_pos hy, List.find?_cons_of_neg (by simpa using h.symm),
          List.find?_cons_of_neg (by simpa using hyk)]
      · rw [replace, if_neg hy]
        by_cases hyk : key y = k
        · rw [List.find?_cons_of_pos (by simpa using hyk),
            List.find?_cons_of_pos (by simpa using hyk)]
        · rw [List.find?_cons_of_neg (by simpa using hyk),
            List.find?_cons_of_neg (by simpa using hyk), ih]

/-- A replacement behind items with other keys. -/
theorem replace_append_cons (key : α → κ) {l₁ l₂ : List α} (h : ∀ z ∈ l₁, key z ≠ key x)
    (hkey : key y = key x) : replace key (l₁ ++ y :: l₂) x = l₁ ++ x :: l₂ := by
  induction l₁ with
  | nil => rw [List.nil_append, List.nil_append, replace, if_pos hkey]
  | cons z l₁ ih =>
      rw [List.forall_mem_cons] at h
      rw [List.cons_append, replace, if_neg h.1, ih h.2, List.cons_append]

/-- What is stored after a run of replacements. -/
theorem mem_foldl_replace {xs : List α} (hl : (l.map key).Nodup) (hxs : (xs.map key).Nodup)
    (hkeys : ∀ x ∈ xs, key x ∈ l.map key) :
    y ∈ xs.foldl (replace key) l ↔ y ∈ xs ∨ (y ∈ l ∧ key y ∉ xs.map key) := by
  induction xs generalizing l with
  | nil => simp
  | cons x xs ih =>
      rw [List.map_cons, List.nodup_cons] at hxs
      rw [List.forall_mem_cons] at hkeys
      have hrest : ∀ z ∈ xs, key z ∈ (replace key l x).map key := by
        intro z hz
        rw [map_key_replace]
        exact hkeys.2 z hz
      have hnodup : ((replace key l x).map key).Nodup := by rwa [map_key_replace]
      rw [List.foldl_cons, ih hnodup hxs.2 hrest, mem_replace hl hkeys.1, List.mem_cons, List.map_cons,
        List.mem_cons, not_or]
      constructor
      · rintro (hy | ⟨rfl | ⟨hy, hne⟩, hnot⟩)
        · exact Or.inl (Or.inr hy)
        · exact Or.inl (Or.inl rfl)
        · exact Or.inr ⟨hy, hne, hnot⟩
      · rintro ((rfl | hy) | ⟨hy, hne, hnot⟩)
        · exact Or.inr ⟨Or.inl rfl, hxs.1⟩
        · exact Or.inl hy
        · exact Or.inr ⟨Or.inr ⟨hy, hne⟩, hnot⟩

end KeyedList
end Library
end OFlux
