import Mathlib.Data.List.Nodup

/-!
# Two-way linked lists

A node of a two-way list links forward to the next node, and backward to the variable that points
at it: the head of the list or the link of the node before.  A node is linked in or out by writing
that variable, the link of the node, and the backward link of the node behind it.

Main results:

- Theorem {lit}`TwoWayList.insert`: a node is linked in anywhere.
- Theorem {lit}`TwoWayList.remove`: a node is linked out.
-/

namespace OFlux
namespace Library

universe u

/-- A variable that points at a node: the head of a list, or the link of a node. -/
inductive LinkLocation (N : Type u) where
  | head
  | next (n : N)
deriving DecidableEq

variable {N : Type u}

/-- The last variable of a chain of nodes. -/
def LinkLocation.endOf : LinkLocation N → List N → LinkLocation N
  | loc, [] => loc
  | _, n :: l => endOf (.next n) l

/-- From a variable on, the links lead forward through the nodes, and back. -/
def Chain (links : LinkLocation N → Option N) (back : N → Option (LinkLocation N)) :
    LinkLocation N → List N → Prop
  | _, [] => True
  | loc, n :: l => links loc = some n ∧ back n = some loc ∧ Chain links back (.next n) l

open LinkLocation

section

variable {links links' : LinkLocation N → Option N} {back back' : N → Option (LinkLocation N)}
variable {loc : LinkLocation N} {l l₁ l₂ : List N} {n : N}

theorem endOf_append (loc : LinkLocation N) (l₁ l₂ : List N) :
    endOf loc (l₁ ++ l₂) = endOf (endOf loc l₁) l₂ := by
  induction l₁ generalizing loc with
  | nil => rfl
  | cons n l₁ ih => exact ih (.next n)

/-- The end behind a node is the link of a node. -/
theorem endOf_next_mem (n : N) (l : List N) : ∃ m ∈ n :: l, endOf (.next n) l = .next m := by
  induction l generalizing n with
  | nil => exact ⟨n, List.mem_singleton_self n, rfl⟩
  | cons k l ih =>
      obtain ⟨m, hm, heq⟩ := ih k
      exact ⟨m, List.mem_cons_of_mem n hm, heq⟩

/-- The last variable of a list is its head only if it is empty. -/
theorem endOf_head_eq_iff : endOf .head l = .head ↔ l = [] := by
  cases l with
  | nil => exact iff_of_true rfl rfl
  | cons n l =>
      obtain ⟨m, -, heq⟩ := endOf_next_mem n l
      simp [endOf, heq]

/-- The end is not the link of another node. -/
theorem endOf_head_ne_next (hn : n ∉ l) : endOf .head l ≠ .next n := by
  cases l with
  | nil => simp [endOf]
  | cons k l =>
      obtain ⟨m, hm, heq⟩ := endOf_next_mem k l
      simp only [endOf, heq, ne_eq, LinkLocation.next.injEq]
      rintro rfl
      exact hn hm

theorem chain_append :
    Chain links back loc (l₁ ++ l₂) ↔
      Chain links back loc l₁ ∧ Chain links back (endOf loc l₁) l₂ := by
  induction l₁ generalizing loc with
  | nil => simp [Chain, endOf]
  | cons n l₁ ih => simp only [List.cons_append, Chain, endOf, ih, and_assoc]

/-- A chain reads the variables before its end, and the backward links of its nodes. -/
theorem Chain.congr (h : Chain links back loc l) (hnodup : l.Nodup)
    (hloc : ∀ m ∈ l, loc ≠ .next m)
    (hlinks : ∀ loc', loc' ≠ endOf loc l → (loc' = loc ∨ ∃ m ∈ l, loc' = .next m) →
      links' loc' = links loc')
    (hback : ∀ m ∈ l, back' m = back m) : Chain links' back' loc l := by
  induction l generalizing loc with
  | nil => trivial
  | cons n l ih =>
      obtain ⟨hlink, hn, hrest⟩ := h
      obtain ⟨hnot, hnodup⟩ := List.nodup_cons.mp hnodup
      have hend : loc ≠ endOf loc (n :: l) := by
        obtain ⟨m, hm, heq⟩ := endOf_next_mem n l
        rw [endOf, heq]
        exact hloc m hm
      refine ⟨(hlinks loc hend (Or.inl rfl)).trans hlink,
        (hback n List.mem_cons_self).trans hn, ih hrest hnodup ?_ ?_ ?_⟩
      · rintro m hm heq
        cases heq
        exact hnot hm
      · rintro loc' hne (rfl | ⟨m, hm, rfl⟩)
        · exact hlinks _ hne (Or.inr ⟨n, List.mem_cons_self, rfl⟩)
        · exact hlinks _ hne (Or.inr ⟨m, List.mem_cons_of_mem n hm, rfl⟩)
      · exact fun m hm => hback m (List.mem_cons_of_mem n hm)

end

/-- The links of a list with these contents. -/
structure TwoWayList (links : LinkLocation N → Option N) (back : N → Option (LinkLocation N))
    (l : List N) : Prop where
  chain : Chain links back .head l
  end_eq : links (endOf .head l) = none
  nodup : l.Nodup

namespace TwoWayList

variable {links links' : LinkLocation N → Option N} {back back' : N → Option (LinkLocation N)}
variable {l l₁ l₂ : List N} {n : N}

/-- The variable between two parts of a list points at the second part. -/
theorem links_endOf (l₁ : List N) (h : TwoWayList links back (l₁ ++ l₂)) :
    links (endOf .head l₁) = l₂.head? := by
  have hend := h.end_eq
  have hchain := (chain_append.mp h.chain).2
  cases l₂ with
  | nil =>
      rw [List.append_nil] at hend
      exact hend
  | cons n l₂ => exact hchain.1

/-- A node of a list links back to the variable that points at it. -/
theorem back_eq (h : TwoWayList links back (l₁ ++ n :: l₂)) :
    back n = some (endOf .head l₁) :=
  (chain_append.mp h.chain).2.2.1

/-! ## Parts that stay the same -/

/-- The part of a list before a variable that changes. -/
theorem chain_left (h : TwoWayList links back (l₁ ++ l₂)) (hn : n ∉ l₁)
    (hlinks : ∀ loc, loc ≠ endOf .head l₁ → loc ≠ .next n → links' loc = links loc)
    (hback : ∀ m ∈ l₁, back' m = back m) : Chain links' back' .head l₁ := by
  refine (chain_append.mp h.chain).1.congr (List.nodup_append.mp h.nodup).1 (by simp) ?_ hback
  rintro loc' hne (rfl | ⟨m, hm, rfl⟩)
  · exact hlinks _ hne (by simp)
  · refine hlinks _ hne ?_
    intro heq
    cases heq
    exact hn hm

/-- The part of a list behind a node whose backward link may change. -/
theorem chain_behind {loc : LinkLocation N} {m : N} (h : Chain links back loc (m :: l))
    (hnodup : (m :: l).Nodup) (hlinks : ∀ k ∈ m :: l, links' (.next k) = links (.next k))
    (hback : ∀ k ∈ l, back' k = back k) : Chain links' back' (.next m) l := by
  obtain ⟨hm, hnodup⟩ := List.nodup_cons.mp hnodup
  refine h.2.2.congr hnodup ?_ ?_ hback
  · rintro k hk heq
    cases heq
    exact hm hk
  · rintro loc' - (rfl | ⟨k, hk, rfl⟩)
    · exact hlinks m List.mem_cons_self
    · exact hlinks k (List.mem_cons_of_mem m hk)

/-- The last link stays when the links behind do. -/
theorem end_behind {m : N} (h : links (endOf (.next m) l) = none)
    (hlinks : ∀ k ∈ m :: l, links' (.next k) = links (.next k)) :
    links' (endOf (.next m) l) = none := by
  obtain ⟨k, hk, heq⟩ := endOf_next_mem m l
  rw [heq] at h ⊢
  exact (hlinks k hk).trans h

/-- The links of the nodes in the second part of a list are not the variable between the parts. -/
theorem links_right (hdisjoint : ∀ a ∈ l₁, ∀ b ∈ l₂, a ≠ b) (hn : n ∉ l₂)
    (hlinks : ∀ loc, loc ≠ endOf .head l₁ → loc ≠ .next n → links' loc = links loc) :
    ∀ k ∈ l₂, links' (.next k) = links (.next k) := by
  intro k hk
  apply hlinks
  · exact Ne.symm (endOf_head_ne_next fun hmem => hdisjoint k hmem k hk rfl)
  · intro heq
    cases heq
    exact hn hk

/-- Only the links of the nodes in a list matter. -/
theorem congr (h : TwoWayList links back l) (hhead : links' .head = links .head)
    (hlinks : ∀ m ∈ l, links' (.next m) = links (.next m)) (hback : ∀ m ∈ l, back' m = back m) :
    TwoWayList links' back' l := by
  refine ⟨h.chain.congr h.nodup (by simp) ?_ hback, ?_, h.nodup⟩
  · rintro loc' - (rfl | ⟨m, hm, rfl⟩)
    · exact hhead
    · exact hlinks m hm
  · have hend := h.end_eq
    cases l with
    | nil => exact hhead.trans hend
    | cons m l => exact end_behind (m := m) (l := l) hend hlinks

/-! ## Linking in and out -/

/-- A node is linked in between two parts of a list. -/
theorem insert (h : TwoWayList links back (l₁ ++ l₂)) (hn : n ∉ l₁ ++ l₂)
    (hlink : links' (endOf .head l₁) = some n) (hnext : links' (.next n) = l₂.head?)
    (hlinks : ∀ loc, loc ≠ endOf .head l₁ → loc ≠ .next n → links' loc = links loc)
    (hprevious : back' n = some (endOf .head l₁))
    (hbehind : ∀ m ∈ l₂.head?, back' m = some (.next n))
    (hback : ∀ m, m ≠ n → m ∉ l₂.head? → back' m = back m) :
    TwoWayList links' back' (l₁ ++ n :: l₂) := by
  obtain ⟨hnodup₁, hnodup₂, hdisjoint⟩ := List.nodup_append.mp h.nodup
  have hn₁ : n ∉ l₁ := fun hmem => hn (List.mem_append_left _ hmem)
  have hn₂ : n ∉ l₂ := fun hmem => hn (List.mem_append_right _ hmem)
  have hleft : Chain links' back' .head l₁ := h.chain_left hn₁ hlinks fun m hm =>
    hback m (fun heq => hn₁ (heq ▸ hm)) fun hhead =>
      hdisjoint m hm m (List.mem_of_mem_head? hhead) rfl
  have hright := links_right hdisjoint hn₂ hlinks
  have hchain := (chain_append.mp h.chain).2
  have hend := h.end_eq
  rw [endOf_append] at hend
  have hnodup : (l₁ ++ n :: l₂).Nodup :=
    (List.perm_middle.nodup_iff).mpr (List.nodup_cons.mpr ⟨hn, h.nodup⟩)
  cases l₂ with
  | nil =>
      refine ⟨chain_append.mpr ⟨hleft, hlink, hprevious, trivial⟩, ?_, hnodup⟩
      rw [endOf_append]
      exact hnext
  | cons m l₂ =>
      obtain ⟨hm, -⟩ := List.nodup_cons.mp hnodup₂
      have hrest : Chain links' back' (.next m) l₂ := chain_behind hchain hnodup₂ hright
        fun k hk => hback k (fun heq => hn₂ (heq ▸ List.mem_cons_of_mem m hk)) fun hhead => by
          obtain rfl : m = k := by simpa using hhead
          exact hm hk
      refine ⟨chain_append.mpr ⟨hleft, hlink, hprevious, hnext, hbehind m rfl, hrest⟩, ?_, hnodup⟩
      rw [endOf_append]
      exact end_behind (m := m) (l := l₂) hend hright

/-- A node is linked out from between two parts of a list. -/
theorem remove (h : TwoWayList links back (l₁ ++ n :: l₂))
    (hlink : links' (endOf .head l₁) = links (.next n))
    (hlinks : ∀ loc, loc ≠ endOf .head l₁ → loc ≠ .next n → links' loc = links loc)
    (hbehind : ∀ m ∈ l₂.head?, back' m = some (endOf .head l₁))
    (hback : ∀ m, m ≠ n → m ∉ l₂.head? → back' m = back m) :
    TwoWayList links' back' (l₁ ++ l₂) := by
  obtain ⟨hn, hnodup⟩ := List.nodup_cons.mp ((List.perm_middle.nodup_iff).mp h.nodup)
  obtain ⟨hnodup₁, hnodup₂, hdisjoint⟩ := List.nodup_append.mp hnodup
  have hn₁ : n ∉ l₁ := fun hmem => hn (List.mem_append_left _ hmem)
  have hn₂ : n ∉ l₂ := fun hmem => hn (List.mem_append_right _ hmem)
  have hleft : Chain links' back' .head l₁ := h.chain_left hn₁ hlinks fun m hm =>
    hback m (fun heq => hn₁ (heq ▸ hm)) fun hhead =>
      hdisjoint m hm m (List.mem_of_mem_head? hhead) rfl
  have hright := links_right hdisjoint hn₂ hlinks
  have hchain := (chain_append.mp h.chain).2.2.2
  have hend := h.end_eq
  rw [endOf_append, endOf] at hend
  cases l₂ with
  | nil =>
      refine ⟨chain_append.mpr ⟨hleft, trivial⟩, ?_, hnodup⟩
      rw [endOf_append, endOf, hlink]
      exact hend
  | cons m l₂ =>
      change links (endOf (.next m) l₂) = none at hend
      obtain ⟨hm, -⟩ := List.nodup_cons.mp hnodup₂
      have hrest : Chain links' back' (.next m) l₂ := chain_behind hchain hnodup₂ hright
        fun k hk => hback k (fun heq => hn₂ (heq ▸ List.mem_cons_of_mem m hk)) fun hhead => by
          obtain rfl : m = k := by simpa using hhead
          exact hm hk
      refine ⟨chain_append.mpr ⟨hleft, hlink.trans hchain.1, hbehind m rfl, hrest⟩, ?_, hnodup⟩
      rw [endOf_append]
      exact end_behind (m := m) (l := l₂) hend hright

end TwoWayList

end Library
end OFlux
