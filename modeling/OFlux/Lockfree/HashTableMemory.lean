import OFlux.Lockfree.HashTableInterleavings

/-!
# The memory of the growing hash table

What holds of the tables whatever the threads do, and what one access changes.  A key is looked
for in one table after the other, from the first one on that is not unlinked; a table passes it on
if all its entries on the way have other keys, or if the entry of the key has been copied.  The
first table that does not pass it on has its value, also while this value is being copied.

Main results:

- Theorems {lit}`Shape.setKey` and {lit}`Shape.contents_setKey`: an empty entry gets a key.
- Theorem {lit}`Shape.ne_key_above_of_vacant`: behind an empty entry where the search for a key
  ends, no table has the key.
-/

namespace OFlux
namespace Lockfree

open Library HashTableConstants

/-! ## Values -/

/-- A value that can be copied: its tag can be stripped from it without loss. -/
structure Copiable (w : Word) : Prop where
  untagged : ¬ isTagged w
  ne_doesNotExist : w ≠ doesNotExist
  ne_tombStone : w ≠ tombStone
  stripTag_eq : stripTag w = w

/-- The values that an entry can have. -/
inductive Cell : Word → Prop where
  | doesNotExist : Cell doesNotExist
  | tombStone : Cell tombStone
  | value {w : Word} : Copiable w → Cell w
  | done {w : Word} : Done w → Cell w
  | tagged {w : Word} : Copiable w → Cell (tagValue w)

/-- A tagged value is tagged. -/
theorem isTagged_tagValue (w : Word) : isTagged (tagValue w) := by
  unfold isTagged tagValue
  rw [BitVec.and_or_distrib_right, BitVec.and_self]
  simp only [ne_eq, decide_eq_true_eq]
  intro h
  have hbit := congrArg (BitVec.getLsbD · 0) h
  simp at hbit

/-- Tagging twice is tagging once. -/
theorem tagValue_tagValue (w : Word) : tagValue (tagValue w) = tagValue w := by
  unfold tagValue
  rw [BitVec.or_assoc, BitVec.or_self]

/-- A copied entry is tagged. -/
theorem Done.isTagged {v : Word} (h : Done v) : isTagged v := by
  rcases h with rfl | rfl <;> exact isTagged_tagValue _

/-- An absent value is not yet copied. -/
theorem not_done_doesNotExist : ¬ Done doesNotExist := by
  decide

/-- The mark of an empty entry counts as copied. -/
theorem done_copiedValue : Done copiedValue :=
  Or.inl rfl

namespace Copiable

variable {w : Word}

/-- The tag can be taken off a value that fits. -/
theorem stripTag_tagValue (h : Copiable w) : stripTag (tagValue w) = w := by
  have hw := h.stripTag_eq
  unfold stripTag tagValue at *
  rw [BitVec.and_or_distrib_right, hw]
  have hone : (1 : Word) &&& 0xFFFFFFFE = 0 := by decide
  rw [hone]
  exact BitVec.or_zero

theorem oldValue_eq (h : Copiable w) : oldValue w = w :=
  if_neg h.ne_tombStone

/-- A tagged value still has to be copied. -/
theorem not_done_tagValue (h : Copiable w) : ¬ Done (tagValue w) := by
  have hstrip := h.stripTag_tagValue
  rintro (hdone | hdone)
  · rw [hdone] at hstrip
    exact h.ne_doesNotExist (hstrip.symm.trans (by decide))
  · rw [hdone] at hstrip
    exact h.ne_tombStone (hstrip.symm.trans (by decide))

/-- Different values stay different when tagged. -/
theorem tagValue_inj {w' : Word} (h : Copiable w) (h' : Copiable w')
    (heq : tagValue w = tagValue w') : w = w' := by
  rw [← h.stripTag_tagValue, heq, h'.stripTag_tagValue]

end Copiable

namespace Cell

variable {v : Word}

/-- An untagged value can be copied, or stands for none. -/
theorem of_not_isTagged (h : Cell v) (huntagged : ¬ isTagged v) :
    v = HashTableConstants.doesNotExist ∨ v = HashTableConstants.tombStone ∨ Copiable v := by
  cases h with
  | doesNotExist => exact Or.inl rfl
  | tombStone => exact Or.inr (Or.inl rfl)
  | value hv => exact Or.inr (Or.inr hv)
  | done hv => exact absurd hv.isTagged huntagged
  | tagged => exact absurd (isTagged_tagValue _) huntagged

theorem stripTag_eq (h : Cell v) (huntagged : ¬ isTagged v) : stripTag v = v := by
  rcases h.of_not_isTagged huntagged with rfl | rfl | hv
  · decide
  · decide
  · exact hv.stripTag_eq

/-- A tagged value is being copied, or this is done. -/
theorem of_isTagged (h : Cell v) (htagged : isTagged v) (hnot : ¬ Done v) :
    ∃ w, Copiable w ∧ v = tagValue w := by
  cases h with
  | doesNotExist => exact absurd htagged (by decide)
  | tombStone => exact absurd htagged (by decide)
  | value hv => exact absurd htagged hv.untagged
  | done hv => exact absurd hv hnot
  | tagged hv => exact ⟨_, hv, rfl⟩

end Cell

namespace SharedTables

variable {K : Type}

namespace Memory

/-! ## Accesses -/

/-- The size of table `n`. -/
def size (M : Memory K) (n : Nat) : Nat := (M.tables n).size

/-- The entries that a probe for `k` visits in table `n`, in order. -/
def probes (M : Memory K) (hash : K → Word) (n : Nat) (k : K) : List Nat :=
  (M.tables n).probes (hash k)

theorem probes_ne_nil (M : Memory K) (hash : K → Word) (n : Nat) (k : K) :
    M.probes hash n k ≠ [] :=
  (M.tables n).probes_ne_nil _

/-- The keys after one was written. -/
theorem key_setKey (M : Memory K) (n i m j : Nat) (k : K) :
    (M.setKey n i k).key m j = if m = n ∧ j = i then some k else M.key m j := by
  unfold key setKey setTable Implementation.key Implementation.setKey
  by_cases hm : m = n
  · subst hm
    simp only [Function.update_self, true_and]
    by_cases hj : j = i
    · subst hj
      simp
    · simp [hj]
  · simp [hm]

/-- Writing a key changes no value. -/
theorem value_setKey (M : Memory K) (n i : Nat) (k : K) : (M.setKey n i k).value = M.value := by
  funext m j
  unfold value setKey setTable Implementation.value Implementation.setKey
  by_cases hm : m = n
  · subst hm
    simp only [Function.update_self]
    by_cases hj : j = i
    · subst hj
      simp
    · simp [hj]
  · simp [hm]

/-- Writing a value changes no key. -/
theorem key_setValue (M : Memory K) (n i : Nat) (v : Word) : (M.setValue n i v).key = M.key := by
  funext m j
  unfold key setValue setTable Implementation.key Implementation.setValue
  by_cases hm : m = n
  · subst hm
    simp only [Function.update_self]
    by_cases hj : j = i
    · subst hj
      simp
    · simp [hj]
  · simp [hm]

/-- The values after one was written. -/
theorem value_setValue (M : Memory K) (n i m j : Nat) (v : Word) :
    (M.setValue n i v).value m j = if m = n ∧ j = i then v else M.value m j := by
  unfold value setValue setTable Implementation.value Implementation.setValue
  by_cases hm : m = n
  · subst hm
    simp only [Function.update_self, true_and]
    by_cases hj : j = i
    · subst hj
      simp
    · simp [hj]
  · simp [hm]

/-- A table is replaced by one of the same size. -/
theorem scale_setTable {M : Memory K} {n : Nat} {t : Implementation K}
    (h : t.scale = (M.tables n).scale) (m : Nat) :
    ((M.setTable n t).tables m).scale = (M.tables m).scale := by
  unfold setTable
  by_cases hm : m = n
  · subst hm
    simpa using h
  · simp [hm]

/-- The probes depend on the size of the table only. -/
theorem probes_of_scale {M M' : Memory K} {n : Nat}
    (h : (M'.tables n).scale = (M.tables n).scale) (hash : K → Word) (k : K) :
    M'.probes hash n k = M.probes hash n k := by
  unfold probes Implementation.probes Implementation.probe Implementation.nextIndex
    Implementation.size
  rw [h]

/-- The size is given by the scale. -/
theorem size_of_scale {M M' : Memory K} {n : Nat}
    (h : (M'.tables n).scale = (M.tables n).scale) : M'.size n = M.size n := by
  unfold size Implementation.size
  rw [h]

theorem setValue_self (M : Memory K) (n i : Nat) : M.setValue n i (M.value n i) = M := by
  have htable : (M.tables n).setValue i (M.value n i) = M.tables n := by
    unfold Implementation.setValue value Implementation.value
    rw [Function.update_eq_self_iff.mpr rfl]
  unfold setValue setTable
  rw [htable, Function.update_eq_self]

/-! ## Searches -/

section

variable [DecidableEq K] (hash : K → Word) (M : Memory K)

/-- The entry of `k` in table `n`. -/
def lookUp (n : Nat) (k : K) : Option Nat :=
  Probing.lookUp (M.key n) (M.probes hash n k) k

/-- All entries in which the key is looked for have other keys. -/
def Full (n : Nat) (k : K) : Prop :=
  M.lookUp hash n k = none

/-- The search for the key ends at an empty entry. -/
def Vacant (n : Nat) (k : K) : Prop :=
  ∃ i, M.lookUp hash n k = some i ∧ M.key n i = none

/-- The table passes the key on. -/
def Passes (n : Nat) (k : K) : Prop :=
  M.Full hash n k ∨ ∃ i, M.key n i = some k ∧ Done (M.value n i)

/-- The tables strictly between `n` and `m` have no room for `k`. -/
def FullBetween (n m : Nat) (k : K) : Prop :=
  ∀ j, n < j → j < m → M.Full hash j k

omit [DecidableEq K] in
/-- The value of the key is marked, and waits to be copied. -/
def Waits (n : Nat) (k : K) (w : Word) : Prop :=
  ∃ i, M.key n i = some k ∧ Copiable w ∧ M.value n i = tagValue w

/-- A later table has got a value of the key. -/
def Written (n : Nat) (k : K) : Prop :=
  ∃ m i, n < m ∧ M.FullBetween hash n m k ∧ M.key m i = some k ∧ M.value m i ≠ doesNotExist

/-- The map that the tables stand for: the first table that does not pass a key on has its value. -/
def Contents (m : K → Word) : Prop :=
  ∀ k n, M.impl ≤ n → (∀ j, M.impl ≤ j → j < n → M.Passes hash j k) →
    (M.Vacant hash n k → m k = doesNotExist) ∧
      ∀ i, M.key n i = some k → ¬ Done (M.value n i) → m k = oldValue (stripTag (M.value n i))

end

end Memory

/-- What holds of the memory at all times. -/
structure Shape [DecidableEq K] (hash : K → Word) (M : Memory K) : Prop where
  impl_le : M.impl ≤ M.last
  placed : ∀ n, Probing.Placed (M.key n) (M.probes hash n)
  unmade : ∀ {n}, M.last < n → ∀ i, M.key n i = none ∧ M.value n i = doesNotExist
  cell : ∀ n i, Cell (M.value n i)
  keyless : ∀ {n i}, M.key n i = none →
    M.value n i = doesNotExist ∨ M.value n i = copiedValue ∧ n ≤ M.impl
  next : ∀ {n i}, isTagged (M.value n i) → n < M.last
  unlinked : ∀ {n i}, n < M.impl → i < M.size n → Done (M.value n i)
  above : ∀ {n k m i}, M.impl ≤ n → ¬ M.Passes hash n k → n < m → M.key m i = some k →
    M.FullBetween hash n m k ∧
      ∃ w, M.Waits n k w ∧ (M.value m i = doesNotExist ∨ M.value m i = w)

/-! ## What the invariant says about a search -/

namespace Shape

variable [DecidableEq K] {hash : K → Word} {M : Memory K} {n m i j : Nat} {k : K}

/-- A search finds the entry that has the key. -/
theorem lookUp_of_key (h : Shape hash M) (hi : M.key n i = some k) :
    M.lookUp hash n k = some i :=
  h.placed n i k hi

/-- A table has a key once. -/
theorem eq_of_key (h : Shape hash M) (hi : M.key n i = some k) (hj : M.key n j = some k) : i = j :=
  (h.placed n).eq_of_key hi hj

/-- A table that has the key is not full for it. -/
theorem not_full_of_key (h : Shape hash M) (hi : M.key n i = some k) : ¬ M.Full hash n k := by
  intro hfull
  rw [Memory.Full, h.lookUp_of_key hi] at hfull
  cases hfull

/-- A table with room for a key does not have it. -/
theorem ne_key_of_vacant (h : Shape hash M) (hvacant : M.Vacant hash n k) (i : Nat) :
    M.key n i ≠ some k := by
  obtain ⟨j, hj, hnone⟩ := hvacant
  exact (h.placed n).ne_key_of_empty hj hnone i

/-- A table with room for a key is not full for it. -/
theorem not_full_of_vacant (hvacant : M.Vacant hash n k) : ¬ M.Full hash n k := by
  obtain ⟨j, hj, -⟩ := hvacant
  intro hfull
  rw [Memory.Full, hj] at hfull
  cases hfull

/-- The search for a key fails, or it ends at an empty entry or at the key. -/
theorem search_cases (hash : K → Word) (M : Memory K) (n : Nat) (k : K) :
    M.Full hash n k ∨ M.Vacant hash n k ∨ ∃ i, M.key n i = some k := by
  cases hlookUp : M.lookUp hash n k with
  | none => exact Or.inl hlookUp
  | some i =>
      rcases Probing.key_of_lookUp hlookUp with hi | hi
      · exact Or.inr (Or.inl ⟨i, hlookUp, hi⟩)
      · exact Or.inr (Or.inr ⟨i, hi⟩)

/-- An entry with a key lies inside the table. -/
theorem key_lt_size (h : Shape hash M) (hi : M.key n i = some k) : i < M.size n :=
  Implementation.lt_size_of_mem_probes (Probing.mem_of_lookUp (h.lookUp_of_key hi))

/-- A table with a key has been made. -/
theorem le_last_of_key (h : Shape hash M) (hi : M.key n i = some k) : n ≤ M.last := by
  by_contra hn
  rw [(h.unmade (Nat.lt_of_not_le hn) i).1] at hi
  cases hi

/-- A table that is not made yet has room. -/
theorem vacant_of_unmade (h : Shape hash M) (hn : M.last < n) : M.Vacant hash n k := by
  obtain ⟨i, hi⟩ := Probing.lookUp_of_empty (k := k) (fun i => (h.unmade hn i).1)
    (M.probes_ne_nil hash n k)
  exact ⟨i, hi, (h.unmade hn i).1⟩

/-- A search that passes the table finds its entry copied. -/
theorem done_of_passes (h : Shape hash M) (hpasses : M.Passes hash n k)
    (hi : M.key n i = some k) : Done (M.value n i) := by
  rcases hpasses with hfull | ⟨j, hj, hdone⟩
  · exact absurd hfull (h.not_full_of_key hi)
  · rwa [h.eq_of_key hi hj]

/-- A search that finds room does not pass. -/
theorem not_passes_of_vacant (h : Shape hash M) (hvacant : M.Vacant hash n k) :
    ¬ M.Passes hash n k := by
  rintro (hfull | ⟨j, hj, -⟩)
  · exact not_full_of_vacant hvacant hfull
  · exact h.ne_key_of_vacant hvacant j hj

/-- A value waiting to be copied is not passed. -/
theorem not_passes_of_waits (h : Shape hash M) {w : Word} (hwaits : M.Waits n k w) :
    ¬ M.Passes hash n k := by
  obtain ⟨i, hi, hw, hvalue⟩ := hwaits
  intro hpasses
  have hdone := h.done_of_passes hpasses hi
  rw [hvalue] at hdone
  exact hw.not_done_tagValue hdone

/-- A table in which an entry of the key is left is not unlinked. -/
theorem impl_le_of_key (h : Shape hash M) (hi : M.key n i = some k)
    (hnot : ¬ Done (M.value n i)) : M.impl ≤ n := by
  by_contra hn
  exact hnot (h.unlinked (Nat.lt_of_not_le hn) (h.key_lt_size hi))

/-- Behind an empty entry where the search for the key ends, no table has the key. -/
theorem ne_key_above_of_vacant (h : Shape hash M) (hn : M.impl ≤ n)
    (hvacant : M.Vacant hash n k) (hlt : n < m) (i : Nat) : M.key m i ≠ some k := by
  intro hi
  obtain ⟨-, w, ⟨j, hj, -⟩, -⟩ := h.above hn (h.not_passes_of_vacant hvacant) hlt hi
  exact h.ne_key_of_vacant hvacant j hj

end Shape

/-! ## What the accesses change in a search -/

namespace Memory

section

variable {M M' : Memory K} {n i : Nat} {k : K} {v : Word}

/-- Writing a key keeps every size. -/
theorem scale_setKey (M : Memory K) (n i : Nat) (k : K) (m : Nat) :
    ((M.setKey n i k).tables m).scale = (M.tables m).scale :=
  scale_setTable (t := (M.tables n).setKey i k) rfl m

/-- Writing a value keeps every size. -/
theorem scale_setValue (M : Memory K) (n i : Nat) (v : Word) (m : Nat) :
    ((M.setValue n i v).tables m).scale = (M.tables m).scale :=
  scale_setTable (t := (M.tables n).setValue i v) rfl m

theorem key_setKey_self (M : Memory K) (n i : Nat) (k : K) :
    (M.setKey n i k).key n = Function.update (M.key n) i (some k) := by
  funext j
  rw [key_setKey, Function.update_apply]
  simp

theorem key_setKey_of_ne {m : Nat} (hm : m ≠ n) : (M.setKey n i k).key m = M.key m := by
  funext j
  rw [key_setKey, if_neg fun h => hm h.1]

variable [DecidableEq K] {hash : K → Word} {k' : K} {m j : Nat}

/-- Writing a value moves no key. -/
theorem lookUp_setValue (M : Memory K) (n i : Nat) (v : Word) :
    (M.setValue n i v).lookUp hash = M.lookUp hash := by
  funext m k
  unfold lookUp
  rw [key_setValue, probes_of_scale (scale_setValue M n i v m)]

theorem lookUp_setKey_of_ne (hm : m ≠ n) :
    (M.setKey n i k).lookUp hash m k' = M.lookUp hash m k' := by
  unfold lookUp
  rw [key_setKey_of_ne hm, probes_of_scale (scale_setKey M n i k m)]

/-- The tables have the same entries and the same sizes. -/
structure SameEntries (M M' : Memory K) : Prop where
  key : M'.key = M.key
  value : M'.value = M.value
  scale : ∀ n, (M'.tables n).scale = (M.tables n).scale

/-- The same entries give the same searches. -/
theorem SameEntries.lookUp (h : SameEntries M M') : M'.lookUp hash = M.lookUp hash := by
  funext n k
  unfold Memory.lookUp
  rw [h.key, probes_of_scale (h.scale n)]

/-- The same entries are passed by the same searches. -/
theorem SameEntries.passes (h : SameEntries M M') : M'.Passes hash = M.Passes hash := by
  funext n k
  unfold Passes Full
  rw [h.lookUp, h.key, h.value]

omit [DecidableEq K] in
/-- Counting copied entries changes no entry. -/
theorem sameEntries_addCopied (M : Memory K) (n numCopied : Nat) :
    SameEntries M (M.addCopied n numCopied) where
  key := by
    funext m j
    unfold Memory.key addCopied setTable Implementation.key
    by_cases hm : m = n
    · subst hm
      simp
    · simp [hm]
  value := by
    funext m j
    unfold Memory.value addCopied setTable Implementation.value
    by_cases hm : m = n
    · subst hm
      simp
    · simp [hm]
  scale := scale_setTable rfl

omit [DecidableEq K] in
/-- Counting copied entries keeps every size. -/
theorem size_addCopied (M : Memory K) (n numCopied m : Nat) :
    (M.addCopied n numCopied).size m = M.size m :=
  size_of_scale ((sameEntries_addCopied M n numCopied).scale m)

/-- A search that meets only other keys goes on to do so. -/
theorem Full.mono (hkey : ∀ i k, M.key n i = some k → M'.key n i = some k)
    (hscale : (M'.tables n).scale = (M.tables n).scale) (h : M.Full hash n k) :
    M'.Full hash n k := by
  refine List.find?_eq_none.mpr fun i hi => ?_
  rw [probes_of_scale hscale] at hi
  have hother := List.find?_eq_none.mp h i hi
  cases hkeyi : M.key n i with
  | none => simp [hkeyi] at hother
  | some k' => simpa [hkey i k' hkeyi, hkeyi] using hother

/-- An empty entry where a search ends was empty before. -/
theorem Vacant.of_mono (hkey : ∀ i k, M.key n i = some k → M'.key n i = some k)
    (hscale : (M'.tables n).scale = (M.tables n).scale)
    (hplaced : Probing.Placed (M'.key n) (M'.probes hash n)) (h : M'.Vacant hash n k) :
    M.Vacant hash n k := by
  rcases Shape.search_cases hash M n k with hfull | hvacant | ⟨i, hi⟩
  · exact absurd (Full.mono hkey hscale hfull) (Shape.not_full_of_vacant h)
  · exact hvacant
  · obtain ⟨j, hj, hnone⟩ := h
    exact absurd (hkey i k hi) (hplaced.ne_key_of_empty hj hnone i)

end

end Memory

/-! ## An empty entry gets a key -/

namespace Shape

variable [DecidableEq K] {hash : K → Word} {M : Memory K} {n i : Nat} {k : K}

omit [DecidableEq K] in
/-- A key written into an empty entry hides no other. -/
theorem mono_setKey (hempty : M.key n i = none) (m j : Nat) (k' : K) (hj : M.key m j = some k') :
    (M.setKey n i k).key m j = some k' := by
  rw [Memory.key_setKey, if_neg, hj]
  rintro ⟨rfl, rfl⟩
  rw [hempty] at hj
  cases hj

/-- A key written where its search ended is found there. -/
theorem placed_setKey (h : Shape hash M) (hlookUp : M.lookUp hash n k = some i)
    (hempty : M.key n i = none) (m : Nat) :
    Probing.Placed ((M.setKey n i k).key m) ((M.setKey n i k).probes hash m) := by
  have hprobes : (M.setKey n i k).probes hash m = M.probes hash m :=
    funext fun k' => Memory.probes_of_scale (Memory.scale_setKey M n i k m) hash k'
  rw [hprobes]
  by_cases hm : m = n
  · subst hm
    rw [Memory.key_setKey_self]
    exact Probing.Placed.insert (h.placed m) hempty hlookUp
  · rw [Memory.key_setKey_of_ne hm]
    exact h.placed m

/-- A search that passed still passes. -/
theorem passes_setKey (hempty : M.key n i = none) {m : Nat} {k' : K}
    (hpasses : M.Passes hash m k') : (M.setKey n i k).Passes hash m k' := by
  refine hpasses.imp (Memory.Full.mono (mono_setKey hempty m) (Memory.scale_setKey M n i k m)) ?_
  rintro ⟨j, hj, hdone⟩
  exact ⟨j, mono_setKey hempty m j k' hj, by rwa [Memory.value_setKey]⟩

/-- Only in the table itself a key can be passed on that was not passed on before, and only if the
search for it ended at an empty entry. -/
theorem vacant_of_passes_setKey (h : Shape hash M) (hlookUp : M.lookUp hash n k = some i)
    (hempty : M.key n i = none) {m : Nat} {k' : K} (hpasses : (M.setKey n i k).Passes hash m k')
    (hnot : ¬ M.Passes hash m k') : m = n ∧ M.Vacant hash n k' := by
  have hm : m = n := by
    by_contra hm
    refine hnot (hpasses.imp (fun hfull => ?_) ?_)
    · rwa [Memory.Full, Memory.lookUp_setKey_of_ne hm] at hfull
    · rintro ⟨j, hj, hdone⟩
      rw [Memory.key_setKey_of_ne hm] at hj
      rw [Memory.value_setKey] at hdone
      exact ⟨j, hj, hdone⟩
  subst hm
  refine ⟨rfl, ?_⟩
  rcases search_cases hash M m k' with hfull | hvacant | ⟨j, hj⟩
  · exact absurd (Or.inl hfull) hnot
  · exact hvacant
  · have hj' := mono_setKey (k := k) hempty m j k' hj
    have hplaced' := h.placed_setKey hlookUp hempty m
    rcases hpasses with hfull | ⟨j', hkey', hdone⟩
    · have hsome := hplaced' j k' hj'
      rw [Memory.Full, Memory.lookUp, hsome] at hfull
      cases hfull
    · rw [← hplaced'.eq_of_key hj' hkey', Memory.value_setKey] at hdone
      exact absurd (Or.inr ⟨j, hj, hdone⟩) hnot

/-- An empty entry where the search for the key ends gets the key. -/
theorem setKey (h : Shape hash M) (hn : n ≤ M.last) (hlookUp : M.lookUp hash n k = some i)
    (hempty : M.key n i = none)
    (hbelow : ∀ n', M.impl ≤ n' → n' < n → ¬ M.Passes hash n' k →
      M.FullBetween hash n' n k ∧ ∃ w, M.Waits n' k w) :
    Shape hash (M.setKey n i k) := by
  have hmono := mono_setKey (k := k) hempty
  have hscale := Memory.scale_setKey M n i k
  have hplaced := h.placed_setKey hlookUp hempty
  have hvacant : ∀ {m k'}, (M.setKey n i k).Vacant hash m k' → M.Vacant hash m k' := fun {m _} =>
    Memory.Vacant.of_mono (hmono m) (hscale m) (hplaced m)
  have hvalue : (M.setKey n i k).value = M.value := Memory.value_setKey M n i k
  refine
    { impl_le := h.impl_le, placed := hplaced, unmade := fun {m} hm j => ?_,
      cell := fun m j => ?_, keyless := fun {m j} hj => ?_, next := fun {m j} hj => ?_,
      unlinked := fun {m j} hm hj => ?_, above := fun {n' k' m j} hn' hnot hlt hj => ?_ }
  · have hne : m ≠ n := by
      rintro rfl
      exact absurd hn (Nat.not_le.mpr hm)
    rw [Memory.key_setKey_of_ne hne, hvalue]
    exact h.unmade hm j
  · rw [hvalue]
    exact h.cell m j
  · rw [hvalue]
    refine h.keyless ?_
    cases hkey : M.key m j with
    | none => rfl
    | some k' =>
        rw [hmono m j k' hkey] at hj
        cases hj
  · rw [hvalue] at hj
    exact h.next hj
  · rw [hvalue]
    refine h.unlinked hm ?_
    rwa [Memory.size_of_scale (hscale m)] at hj
  · have hnot' : ¬ M.Passes hash n' k' := fun hpasses => hnot (passes_setKey hempty hpasses)
    have hbetween : M.FullBetween hash n' m k' → (M.setKey n i k).FullBetween hash n' m k' :=
      fun hfull l hl hl' => Memory.Full.mono (hmono l) (hscale l) (hfull l hl hl')
    have hwaits : ∀ {w}, M.Waits n' k' w → (M.setKey n i k).Waits n' k' w := by
      rintro w ⟨l, hl, hw, hlw⟩
      exact ⟨l, hmono n' l k' hl, hw, by rwa [hvalue]⟩
    rw [hvalue]
    by_cases hself : m = n ∧ j = i
    · obtain ⟨rfl, rfl⟩ := hself
      rw [Memory.key_setKey, if_pos ⟨rfl, rfl⟩] at hj
      cases hj
      obtain ⟨hfull, w, hw⟩ := hbelow n' hn' hlt hnot'
      refine ⟨hbetween hfull, w, hwaits hw, Or.inl ?_⟩
      exact (h.keyless hempty).resolve_right fun hcopied =>
        absurd hcopied.2 (Nat.not_le.mpr (Nat.lt_of_le_of_lt hn' hlt))
    · rw [Memory.key_setKey, if_neg hself] at hj
      obtain ⟨hfull, w, hw, hval⟩ := h.above hn' hnot' hlt hj
      exact ⟨hbetween hfull, w, hwaits hw, hval⟩

/-- The key of an empty entry changes no value. -/
theorem contents_setKey (h : Shape hash M) (hlookUp : M.lookUp hash n k = some i)
    (hempty : M.key n i = none) {m : K → Word} (hm : M.Contents hash m) :
    (M.setKey n i k).Contents hash m := by
  have hvalue : (M.setKey n i k).value = M.value := Memory.value_setKey M n i k
  intro k' n' hn' hpassed
  by_cases hall : ∀ j, M.impl ≤ j → j < n' → M.Passes hash j k'
  · obtain ⟨hnone, hsome⟩ := hm k' n' hn' hall
    refine ⟨fun hv => hnone ?_, fun j hj hdone => ?_⟩
    · exact hv.of_mono (mono_setKey hempty n') (Memory.scale_setKey M n i k n')
        (h.placed_setKey hlookUp hempty n')
    · rw [hvalue] at hdone ⊢
      by_cases hself : n' = n ∧ j = i
      · obtain ⟨rfl, rfl⟩ := hself
        rw [Memory.key_setKey, if_pos ⟨rfl, rfl⟩] at hj
        cases hj
        have hnull : M.value n' j = doesNotExist :=
          (h.keyless hempty).resolve_right fun hcopied => hdone (hcopied.1 ▸ done_copiedValue)
        rw [hnone ⟨j, hlookUp, hempty⟩, hnull]
        rfl
      · rw [Memory.key_setKey, if_neg hself] at hj
        exact hsome j hj hdone
  · -- the search for the key has found the table full, and the key is in no later one
    push Not at hall
    obtain ⟨l, hl, hln, hnot⟩ := hall
    obtain ⟨rfl, hvac⟩ := h.vacant_of_passes_setKey hlookUp hempty (hpassed l hl hln) hnot
    have hbefore : ∀ j, M.impl ≤ j → j < l → M.Passes hash j k' := by
      intro j hj hjl
      by_contra hnotj
      obtain ⟨rfl, -⟩ := h.vacant_of_passes_setKey hlookUp hempty
        (hpassed j hj (hjl.trans hln)) hnotj
      exact lt_irrefl _ hjl
    have hnull := (hm k' l hl hbefore).1 hvac
    refine ⟨fun _ => hnull, fun j hj _ => ?_⟩
    rw [Memory.key_setKey_of_ne (Nat.ne_of_gt hln)] at hj
    exact absurd hj (h.ne_key_above_of_vacant hl hvac hln j)

end Shape

end SharedTables
end Lockfree
end OFlux
