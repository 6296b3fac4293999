import OFlux.Lockfree.HashTableMemory

/-!
# The values in the memory of the growing hash table

What the accesses to a value change in the tables and in the map that they stand for.  A value is
copied in three accesses: it is marked with the tag bit, it is stored in a later table, and its
entry is given up.  As long as it is marked and not given up, no other access reaches the later
entry.

Main results:

- Theorems {lit}`Shape.putValue` and {lit}`Shape.contents_putValue`: a call replaces the value of
  its key.
- Theorems {lit}`Shape.tag`, {lit}`Shape.putCopy` and {lit}`Shape.finish`: an entry is copied.
- Theorems {lit}`Shape.contents_tag`, {lit}`Shape.contents_putCopy` and
  {lit}`Shape.contents_finish`: the tables stand for the same map as before.
- Theorems {lit}`Shape.grow` and {lit}`Shape.unlink`: the chain of the tables changes.
-/

namespace OFlux
namespace Lockfree

open Library HashTableConstants

namespace SharedTables

variable {K : Type}

namespace Shape

variable [DecidableEq K] {hash : K → Word} {M : Memory K} {n i : Nat} {k : K}

/-! ## A value is written -/

variable {v w : Word}

/-- Writing a value fills no table. -/
theorem full_setValue {m : Nat} {k' : K} :
    (M.setValue n i v).Full hash m k' ↔ M.Full hash m k' := by
  unfold Memory.Full
  rw [Memory.lookUp_setValue]

/-- Writing a value makes no room. -/
theorem vacant_setValue {m : Nat} {k' : K} :
    (M.setValue n i v).Vacant hash m k' ↔ M.Vacant hash m k' := by
  unfold Memory.Vacant
  rw [Memory.lookUp_setValue, Memory.key_setValue]

/-- Writing a value keeps the tables in between. -/
theorem fullBetween_setValue {m l : Nat} {k' : K} :
    (M.setValue n i v).FullBetween hash m l k' ↔ M.FullBetween hash m l k' := by
  unfold Memory.FullBetween
  simp only [full_setValue]

omit [DecidableEq K] in
/-- Writing a value keeps those of the other keys. -/
theorem value_setValue_of_key {m j : Nat} {k' : K} (hi : M.key n i = some k)
    (hj : M.key m j = some k') (hne : ¬ (m = n ∧ k' = k)) :
    (M.setValue n i v).value m j = M.value m j := by
  rw [Memory.value_setValue, if_neg]
  rintro ⟨rfl, rfl⟩
  rw [hi] at hj
  exact hne ⟨rfl, (Option.some.inj hj).symm⟩

/-- A key that is passed on still is, if the value is not that of a copied entry. -/
theorem passes_setValue (hnot : ¬ Done (M.value n i)) {m : Nat} {k' : K}
    (h : M.Passes hash m k') : (M.setValue n i v).Passes hash m k' := by
  refine h.imp full_setValue.mpr ?_
  rintro ⟨j, hj, hdone⟩
  refine ⟨j, by rwa [Memory.key_setValue], ?_⟩
  rw [Memory.value_setValue, if_neg]
  · exact hdone
  · rintro ⟨rfl, rfl⟩
    exact hnot hdone

/-- A search passes no table for a value that is not copied. -/
theorem passes_of_setValue (hnot : ¬ Done v) {m : Nat} {k' : K}
    (h : (M.setValue n i v).Passes hash m k') : M.Passes hash m k' := by
  refine h.imp full_setValue.mp ?_
  rintro ⟨j, hj, hdone⟩
  rw [Memory.key_setValue] at hj
  rw [Memory.value_setValue] at hdone
  by_cases hself : m = n ∧ j = i
  · rw [if_pos hself] at hdone
    exact absurd hdone hnot
  · rw [if_neg hself] at hdone
    exact ⟨j, hj, hdone⟩

omit [DecidableEq K] in
/-- A value that waits to be copied still does, unless it is the one that is written over. -/
theorem waits_setValue {m : Nat} {k' : K} (h : M.Waits m k' w)
    (hne : ¬ (m = n ∧ M.key n i = some k' ∧ M.value n i = tagValue w)) :
    (M.setValue n i v).Waits m k' w := by
  obtain ⟨j, hj, hw, hvalue⟩ := h
  refine ⟨j, by rwa [Memory.key_setValue], hw, ?_⟩
  rw [Memory.value_setValue, if_neg]
  · exact hvalue
  · rintro ⟨rfl, rfl⟩
    exact hne ⟨rfl, hj, hvalue⟩

/-- What a new value keeps whatever it is. -/
structure Writes (hash : K → Word) (M : Memory K) (n i : Nat) (v : Word) : Prop where
  le_last : n ≤ M.last
  cell : Cell v
  keyless : M.key n i = none → v = doesNotExist ∨ v = copiedValue ∧ n ≤ M.impl
  next : isTagged v → n < M.last
  unlinked : n < M.impl → i < M.size n → Done v
  above : ∀ {n' k' m j}, M.impl ≤ n' → ¬ (M.setValue n i v).Passes hash n' k' → n' < m →
    M.key m j = some k' →
    M.FullBetween hash n' m k' ∧ ∃ w, (M.setValue n i v).Waits n' k' w ∧
      ((M.setValue n i v).value m j = doesNotExist ∨ (M.setValue n i v).value m j = w)

/-- An allowed write keeps the shape. -/
theorem setValue (h : Shape hash M) (hwrites : Writes hash M n i v) :
    Shape hash (M.setValue n i v) where
  impl_le := h.impl_le
  placed m := by
    have hprobes : (M.setValue n i v).probes hash m = M.probes hash m :=
      funext fun k => Memory.probes_of_scale (Memory.scale_setValue M n i v m) hash k
    rw [Memory.key_setValue, hprobes]
    exact h.placed m
  unmade {m} hm j := by
    have hne : ¬ (m = n ∧ j = i) := by
      rintro ⟨rfl, rfl⟩
      exact absurd hwrites.le_last (Nat.not_le.mpr hm)
    rw [Memory.key_setValue, Memory.value_setValue, if_neg hne]
    exact h.unmade hm j
  cell m j := by
    rw [Memory.value_setValue]
    split
    · exact hwrites.cell
    · exact h.cell m j
  keyless {m j} hj := by
    rw [Memory.key_setValue] at hj
    rw [Memory.value_setValue]
    split
    next heq =>
      obtain ⟨rfl, rfl⟩ := heq
      exact hwrites.keyless hj
    next => exact h.keyless hj
  next {m j} hj := by
    rw [Memory.value_setValue] at hj
    split at hj
    next heq =>
      obtain ⟨rfl, -⟩ := heq
      exact hwrites.next hj
    next => exact h.next hj
  unlinked {m j} hm hj := by
    rw [Memory.size_of_scale (Memory.scale_setValue M n i v m)] at hj
    rw [Memory.value_setValue]
    split
    next heq =>
      obtain ⟨rfl, rfl⟩ := heq
      exact hwrites.unlinked hm hj
    next => exact h.unlinked hm hj
  above hn hnot hlt hj := by
    rw [Memory.key_setValue] at hj
    rw [fullBetween_setValue]
    exact hwrites.above hn hnot hlt hj

/-- The entry of a key that the tables before pass on, with a value that can still be replaced. -/
structure Live (hash : K → Word) (M : Memory K) (n i : Nat) (k : K) : Prop where
  key : M.key n i = some k
  untagged : ¬ isTagged (M.value n i)
  passed : ∀ j, M.impl ≤ j → j < n → M.Passes hash j k

namespace Live

/-- A live entry is not copied. -/
theorem not_done (hlive : Live hash M n i k) : ¬ Done (M.value n i) :=
  fun hdone => hlive.untagged hdone.isTagged

/-- A live entry is in a table still linked. -/
theorem impl_le (hlive : Live hash M n i k) (h : Shape hash M) : M.impl ≤ n :=
  h.impl_le_of_key hlive.key hlive.not_done

/-- What the tables stand for is the value of the entry. -/
theorem eq_oldValue (hlive : Live hash M n i k) (h : Shape hash M) {m : K → Word}
    (hm : M.Contents hash m) : m k = oldValue (M.value n i) := by
  have hvalue := (hm k n (hlive.impl_le h) hlive.passed).2 i hlive.key hlive.not_done
  rwa [(h.cell n i).stripTag_eq hlive.untagged] at hvalue

/-- No other table answers for the key. -/
theorem eq_of_passed (hlive : Live hash M n i k) (h : Shape hash M) {n' : Nat}
    (hn' : M.impl ≤ n') (hpassed : ∀ j, M.impl ≤ j → j < n' → M.Passes hash j k)
    (hnot : ¬ M.Passes hash n' k) : n' = n := by
  rcases Nat.lt_trichotomy n' n with hlt | heq | hgt
  · exact absurd (hlive.passed n' hn' hlt) hnot
  · exact heq
  · exact absurd (h.done_of_passes (hpassed n (hlive.impl_le h) hgt) hlive.key) hlive.not_done

/-- The keys of later tables are not concerned. -/
theorem above (hlive : Live hash M n i k) (h : Shape hash M) {n' m j : Nat} {k' : K}
    (hn' : M.impl ≤ n') (hpasses : ¬ (M.setValue n i v).Passes hash n' k') (hlt : n' < m)
    (hj : M.key m j = some k') :
    M.FullBetween hash n' m k' ∧ ∃ w, (M.setValue n i v).Waits n' k' w ∧
      ((M.setValue n i v).value m j = doesNotExist ∨ (M.setValue n i v).value m j = w) := by
  have hpasses' : ¬ M.Passes hash n' k' := fun hp => hpasses (passes_setValue hlive.not_done hp)
  obtain ⟨hfull, w, hwaits, hval⟩ := h.above hn' hpasses' hlt hj
  refine ⟨hfull, w, waits_setValue hwaits ?_, ?_⟩
  · rintro ⟨-, -, htag⟩
    exact hlive.untagged (htag ▸ isTagged_tagValue w)
  · rwa [value_setValue_of_key hlive.key hj]
    rintro ⟨rfl, rfl⟩
    exact hpasses' (hlive.passed n' hn' hlt)

end Live

/-- A call replaces the value of its key. -/
theorem putValue (h : Shape hash M) (hlive : Live hash M n i k) (hv : Cell v)
    (huntagged : ¬ isTagged v) : Shape hash (M.setValue n i v) :=
  h.setValue
    { le_last := h.le_last_of_key hlive.key
      cell := hv
      keyless := fun hnone => by rw [hlive.key] at hnone; cases hnone
      next := fun htagged => absurd htagged huntagged
      unlinked := fun hlt _ => absurd (hlive.impl_le h) (Nat.not_le.mpr hlt)
      above := hlive.above h }

/-- Writing a live entry changes the contents at its key. -/
theorem contents_putValue (h : Shape hash M) (hlive : Live hash M n i k) (hv : Cell v)
    (huntagged : ¬ isTagged v) {m : K → Word} (hm : M.Contents hash m) :
    (M.setValue n i v).Contents hash (Function.update m k (oldValue v)) := by
  have hnot : ¬ Done v := fun hdone => huntagged hdone.isTagged
  intro k' n' hn' hpassed
  have hpassed' : ∀ j, M.impl ≤ j → j < n' → M.Passes hash j k' :=
    fun j hj hjn => passes_of_setValue hnot (hpassed j hj hjn)
  rw [vacant_setValue, Memory.key_setValue]
  by_cases hk : k' = k
  · subst hk
    rw [Function.update_self]
    refine ⟨fun hvacant => ?_, fun j hj hdone => ?_⟩
    · obtain rfl := hlive.eq_of_passed h hn' hpassed' (h.not_passes_of_vacant hvacant)
      exact absurd hlive.key (h.ne_key_of_vacant hvacant i)
    · have hpasses : ¬ M.Passes hash n' k' := by
        intro hp
        refine hdone ?_
        rw [Memory.value_setValue, if_neg]
        · exact h.done_of_passes hp hj
        · rintro ⟨rfl, -⟩
          exact hlive.not_done (h.done_of_passes hp hlive.key)
      obtain rfl := hlive.eq_of_passed h hn' hpassed' hpasses
      obtain rfl := h.eq_of_key hlive.key hj
      rw [Memory.value_setValue, if_pos ⟨rfl, rfl⟩, hv.stripTag_eq huntagged]
  · obtain ⟨hnone, hsome⟩ := hm k' n' hn' hpassed'
    rw [Function.update_of_ne hk]
    refine ⟨hnone, fun j hj hdone => ?_⟩
    rw [value_setValue_of_key hlive.key hj fun heq => hk heq.2] at hdone ⊢
    exact hsome j hj hdone

/-! ## An entry is copied -/

/-- The value of a live entry is marked. -/
theorem tag (h : Shape hash M) (hlive : Live hash M n i k) (hv : Copiable (M.value n i))
    (hn : n < M.last) : Shape hash (M.setValue n i (tagValue (M.value n i))) :=
  h.setValue
    { le_last := hn.le
      cell := .tagged hv
      keyless := fun hnone => by rw [hlive.key] at hnone; cases hnone
      next := fun _ => hn
      unlinked := fun hlt _ => absurd (hlive.impl_le h) (Nat.not_le.mpr hlt)
      above := hlive.above h }

/-- Tagging a live entry keeps the contents. -/
theorem contents_tag (hlive : Live hash M n i k) (hv : Copiable (M.value n i))
    {m : K → Word} (hm : M.Contents hash m) :
    (M.setValue n i (tagValue (M.value n i))).Contents hash m := by
  intro k' n' hn' hpassed
  obtain ⟨hnone, hsome⟩ := hm k' n' hn' fun j hj hjn =>
    passes_of_setValue hv.not_done_tagValue (hpassed j hj hjn)
  rw [vacant_setValue, Memory.key_setValue]
  refine ⟨hnone, fun j hj hdone => ?_⟩
  by_cases hself : n' = n ∧ j = i
  · obtain ⟨rfl, rfl⟩ := hself
    rw [Memory.value_setValue, if_pos ⟨rfl, rfl⟩, hv.stripTag_tagValue, hsome j hj hlive.not_done,
      hv.stripTag_eq]
  · rw [Memory.value_setValue, if_neg hself] at hdone ⊢
    exact hsome j hj hdone

/-- Where the marked value of a key is to be put. -/
structure Target (hash : K → Word) (M : Memory K) (n : Nat) (k : K) (w : Word) (m i : Nat) :
    Prop where
  waits : M.Waits n k w
  passed : ∀ j, M.impl ≤ j → j < n → M.Passes hash j k
  lt : n < m
  full : M.FullBetween hash n m k
  key : M.key m i = some k
  value : M.value m i = doesNotExist

/-- A copy goes to a table still linked. -/
theorem Target.impl_le {m : Nat} (htarget : Target hash M n k w m i) (h : Shape hash M) :
    M.impl ≤ n := by
  obtain ⟨j, hj, hw, hvalue⟩ := htarget.waits
  exact h.impl_le_of_key hj (hvalue ▸ hw.not_done_tagValue)

/-- The marked value of a key is stored in a later table. -/
theorem putCopy (h : Shape hash M) {m : Nat} (htarget : Target hash M n k w m i) :
    Shape hash (M.setValue m i w) := by
  obtain ⟨-, -, hw, -⟩ := htarget.waits
  have hnull : ¬ Done (M.value m i) := by
    rw [htarget.value]
    exact not_done_doesNotExist
  have hnot : ¬ Done w := fun hdone => hw.untagged hdone.isTagged
  have himpl := htarget.impl_le h
  refine h.setValue
    { le_last := h.le_last_of_key htarget.key
      cell := .value hw
      keyless := fun hnone => by rw [htarget.key] at hnone; cases hnone
      next := fun htagged => absurd htagged hw.untagged
      unlinked := fun hlt _ =>
        absurd (himpl.trans htarget.lt.le) (Nat.not_le.mpr hlt)
      above := fun {n' k' m' j} hn' hpasses hlt hj => ?_ }
  have hpasses' : ¬ M.Passes hash n' k' := fun hp => hpasses (passes_setValue hnull hp)
  have hkeep : ∀ {w'}, M.Waits n' k' w' → (M.setValue m i w).Waits n' k' w' := by
    refine fun hwaits => waits_setValue hwaits ?_
    rintro ⟨-, -, htag⟩
    rw [htarget.value] at htag
    exact absurd (htag ▸ isTagged_tagValue _) (by decide)
  by_cases hself : m' = m ∧ k' = k
  · obtain ⟨rfl, rfl⟩ := hself
    obtain rfl := h.eq_of_key htarget.key hj
    have hn : n' = n := by
      rcases Nat.lt_trichotomy n' n with hlow | heq | hhigh
      · exact absurd (htarget.passed n' hn' hlow) hpasses'
      · exact heq
      · exact absurd (Or.inl (htarget.full n' hhigh hlt)) hpasses'
    subst hn
    refine ⟨htarget.full, w, hkeep htarget.waits, Or.inr ?_⟩
    rw [Memory.value_setValue, if_pos ⟨rfl, rfl⟩]
  · obtain ⟨hfull, w', hwaits, hval⟩ := h.above hn' hpasses' hlt hj
    refine ⟨hfull, w', hkeep hwaits, ?_⟩
    rwa [value_setValue_of_key htarget.key hj hself]

/-- Writing a copy keeps the contents. -/
theorem contents_putCopy (h : Shape hash M) {m : Nat} (htarget : Target hash M n k w m i)
    {contents : K → Word} (hm : M.Contents hash contents) :
    (M.setValue m i w).Contents hash contents := by
  obtain ⟨-, -, hw, -⟩ := htarget.waits
  intro k' n' hn' hpassed
  have hpassed' : ∀ j, M.impl ≤ j → j < n' → M.Passes hash j k' := fun j hj hjn =>
    passes_of_setValue (fun hdone => hw.untagged hdone.isTagged) (hpassed j hj hjn)
  obtain ⟨hnone, hsome⟩ := hm k' n' hn' hpassed'
  rw [vacant_setValue, Memory.key_setValue]
  refine ⟨hnone, fun j hj hdone => ?_⟩
  rw [value_setValue_of_key htarget.key hj] at hdone ⊢
  · exact hsome j hj hdone
  · rintro ⟨rfl, rfl⟩
    exact absurd (hpassed' n (htarget.impl_le h) htarget.lt) (h.not_passes_of_waits htarget.waits)
  · rintro ⟨rfl, rfl⟩
    exact absurd (hpassed' n (htarget.impl_le h) htarget.lt) (h.not_passes_of_waits htarget.waits)

/-- The entry of a key that can be given up: it has no value and no table before waits for it, or
its value has been stored in a later table. -/
inductive GivenUp (hash : K → Word) (M : Memory K) (n i : Nat) (k : K) : Prop where
  | noValue :
      M.value n i = doesNotExist ∨ M.value n i = tombStone →
      (∀ j, M.impl ≤ j → j < n → M.Passes hash j k) → GivenUp hash M n i k
  | written (w : Word) :
      Copiable w → M.value n i = tagValue w → M.Written hash n k → GivenUp hash M n i k

/-- An entry about to be given up is not copied yet. -/
theorem GivenUp.not_done (hgiven : GivenUp hash M n i k) : ¬ Done (M.value n i) := by
  cases hgiven with
  | noValue hnull =>
      rcases hnull with hnull | hnull <;> rw [hnull] <;> decide
  | written w hw hvalue =>
      rw [hvalue]
      exact hw.not_done_tagValue

/-- No earlier table has a value of the key that waits to be copied. -/
theorem GivenUp.passes (hgiven : GivenUp hash M n i k) (h : Shape hash M)
    (hi : M.key n i = some k) {n' : Nat} (hn' : M.impl ≤ n') (hlt : n' < n) :
    M.Passes hash n' k := by
  cases hgiven with
  | noValue _ hpassed => exact hpassed n' hn' hlt
  | written w hw hvalue =>
      by_contra hpasses
      obtain ⟨-, w', ⟨-, -, hw', -⟩, hval⟩ := h.above hn' hpasses hlt hi
      have htagged := isTagged_tagValue w
      rw [← hvalue] at htagged
      rcases hval with hval | hval <;> rw [hval] at htagged
      · exact absurd htagged (by decide)
      · exact hw'.untagged htagged

/-- The tables behind have the value of the key that the entry had. -/
theorem GivenUp.contents (hgiven : GivenUp hash M n i k) (h : Shape hash M)
    (hi : M.key n i = some k) (hn : M.impl ≤ n) {m : K → Word} (hm : M.Contents hash m)
    (hpassed : ∀ j, M.impl ≤ j → j < n → M.Passes hash j k) {n' : Nat} (hlt : n < n')
    (hbetween : ∀ j, n < j → j < n' → M.Passes hash j k) :
    (M.Vacant hash n' k → m k = doesNotExist) ∧
      ∀ j, M.key n' j = some k → ¬ Done (M.value n' j) →
        m k = oldValue (stripTag (M.value n' j)) := by
  have hpasses : ¬ M.Passes hash n k := fun hp => hgiven.not_done (h.done_of_passes hp hi)
  have hvalue := (hm k n hn hpassed).2 i hi hgiven.not_done
  cases hgiven with
  | noValue hnull =>
      have hmk : m k = doesNotExist := by
        rcases hnull with hnull | hnull <;> rw [hvalue, hnull] <;> decide
      refine ⟨fun _ => hmk, fun j hj _ => ?_⟩
      obtain ⟨-, w, ⟨l, hl, -, hlw⟩, -⟩ := h.above hn hpasses hlt hj
      rw [← h.eq_of_key hi hl] at hlw
      have htagged := isTagged_tagValue w
      rw [← hlw] at htagged
      rcases hnull with hnull | hnull <;> rw [hnull] at htagged <;> exact absurd htagged (by decide)
  | written w hw hwvalue hwritten =>
      obtain ⟨m', l, hlt', hfull, hl, hne⟩ := hwritten
      obtain ⟨-, w', ⟨l', hl', hw', hvalue'⟩, hval⟩ := h.above hn hpasses hlt' hl
      have hval := hval.resolve_left hne
      rw [← h.eq_of_key hi hl', hwvalue] at hvalue'
      obtain rfl := hw.tagValue_inj hw' hvalue'
      have hmk : m k = oldValue (stripTag (M.value m' l)) := by
        rw [hvalue, hwvalue, hw.stripTag_tagValue, hval, hw.stripTag_eq]
      rcases Nat.lt_trichotomy n' m' with hlow | rfl | hhigh
      · have hfull' := hfull n' hlt hlow
        exact ⟨fun hvacant => absurd hfull' (not_full_of_vacant hvacant),
          fun j hj _ => absurd hfull' (h.not_full_of_key hj)⟩
      · refine ⟨fun hvacant => absurd hl (h.ne_key_of_vacant hvacant l), fun j hj _ => ?_⟩
        rwa [← h.eq_of_key hl hj]
      · have hdone := h.done_of_passes (hbetween m' hlt' hhigh) hl
        rw [hval] at hdone
        exact absurd hdone.isTagged hw.untagged

/-- An entry is marked as copied. -/
theorem finish (h : Shape hash M) (hn : n < M.last) (hv : Done v)
    (hkeyless : M.key n i = none →
      M.value n i = doesNotExist ∧ v = copiedValue ∧ n ≤ M.impl)
    (hgiven : ∀ k, M.key n i = some k → GivenUp hash M n i k) :
    Shape hash (M.setValue n i v) := by
  have hnot : ¬ Done (M.value n i) := by
    cases hi : M.key n i with
    | none =>
        rw [(hkeyless hi).1]
        exact not_done_doesNotExist
    | some k => exact (hgiven k hi).not_done
  refine h.setValue
    { le_last := hn.le
      cell := .done hv
      keyless := fun hnone => Or.inr (hkeyless hnone).2
      next := fun _ => hn
      unlinked := fun _ _ => hv
      above := fun {n' k' m j} hn' hpasses hlt hj => ?_ }
  have hpasses' : ¬ M.Passes hash n' k' := fun hp => hpasses (passes_setValue hnot hp)
  obtain ⟨hfull, w, hwaits, hval⟩ := h.above hn' hpasses' hlt hj
  refine ⟨hfull, w, waits_setValue hwaits ?_, ?_⟩
  · rintro ⟨rfl, hi, -⟩
    refine hpasses (Or.inr ⟨i, by rwa [Memory.key_setValue], ?_⟩)
    rwa [Memory.value_setValue, if_pos ⟨rfl, rfl⟩]
  · rwa [Memory.value_setValue, if_neg]
    rintro ⟨rfl, rfl⟩
    exact hpasses' ((hgiven k' hj).passes h hj hn' hlt)

/-- Giving an entry up keeps the contents. -/
theorem contents_finish (h : Shape hash M) (hv : Done v)
    (hgiven : ∀ k, M.key n i = some k → GivenUp hash M n i k) {m : K → Word}
    (hm : M.Contents hash m) : (M.setValue n i v).Contents hash m := by
  intro k' n' hn' hpassed
  rw [vacant_setValue, Memory.key_setValue]
  by_cases hall : ∀ j, M.impl ≤ j → j < n' → M.Passes hash j k'
  · obtain ⟨hnone, hsome⟩ := hm k' n' hn' hall
    refine ⟨hnone, fun j hj hdone => ?_⟩
    rw [Memory.value_setValue] at hdone ⊢
    split at hdone
    · exact absurd hv hdone
    next hne =>
      rw [if_neg hne]
      exact hsome j hj hdone
  · -- the table passes the key on from now on, and the next ones have its value
    have hsame : ∀ j, (M.setValue n i v).Passes hash j k' → ¬ M.Passes hash j k' →
        j = n ∧ M.key n i = some k' := by
      intro j hpasses hnot
      rcases hpasses with hfull | ⟨l, hl, hdone⟩
      · exact absurd (Or.inl (full_setValue.mp hfull)) hnot
      · rw [Memory.key_setValue] at hl
        rw [Memory.value_setValue] at hdone
        by_cases hself : j = n ∧ l = i
        · obtain ⟨rfl, rfl⟩ := hself
          exact ⟨rfl, hl⟩
        · rw [if_neg hself] at hdone
          exact absurd (Or.inr ⟨l, hl, hdone⟩) hnot
    push Not at hall
    obtain ⟨l, hl, hln, hnot⟩ := hall
    obtain ⟨rfl, hi⟩ := hsame l (hpassed l hl hln) hnot
    have hothers : ∀ j, M.impl ≤ j → j < n' → j ≠ l → M.Passes hash j k' := by
      intro j hj hjn hne
      by_contra hnotj
      exact hne (hsame j (hpassed j hj hjn) hnotj).1
    obtain ⟨hnone, hsome⟩ := (hgiven k' hi).contents h hi hl hm
      (fun j hj hjl => hothers j hj (hjl.trans hln) hjl.ne) hln
      fun j hlj hjn => hothers j (hl.trans hlj.le) hjn hlj.ne'
    refine ⟨hnone, fun j hj hdone => ?_⟩
    rw [Memory.value_setValue, if_neg fun heq => hln.ne' heq.1] at hdone ⊢
    exact hsome j hj hdone

/-! ## The chain of tables -/

/-- Accesses to the count of the copied entries. -/
theorem of_sameEntries (h : Shape hash M) {M' : Memory K} (hsame : Memory.SameEntries M M')
    (hlast : M'.last = M.last) (himpl : M'.impl = M.impl) : Shape hash M' := by
  have hprobes : ∀ n, M'.probes hash n = M.probes hash n := fun n =>
    funext fun k => Memory.probes_of_scale (hsame.scale n) hash k
  have hsize : ∀ n, M'.size n = M.size n := fun n => Memory.size_of_scale (hsame.scale n)
  have hfull : ∀ {n m k}, M'.FullBetween hash n m k ↔ M.FullBetween hash n m k := by
    intro n m k
    unfold Memory.FullBetween Memory.Full
    rw [hsame.lookUp]
  have hwaits : ∀ {n k w}, M'.Waits n k w ↔ M.Waits n k w := by
    intro n k w
    unfold Memory.Waits
    rw [hsame.key, hsame.value]
  refine
    { impl_le := hlast ▸ himpl ▸ h.impl_le, placed := fun n => ?_, unmade := fun {n} hn i => ?_,
      cell := fun n i => ?_, keyless := fun {n i} hi => ?_, next := fun {n i} hi => ?_,
      unlinked := fun {n i} hn hi => ?_, above := fun {n k m i} hn hnot hlt hi => ?_ }
  · rw [hsame.key, hprobes]
    exact h.placed n
  · rw [hsame.key, hsame.value]
    exact h.unmade (hlast ▸ hn) i
  · rw [hsame.value]
    exact h.cell n i
  · rw [hsame.key] at hi
    rw [hsame.value, himpl]
    exact h.keyless hi
  · rw [hsame.value] at hi
    rw [hlast]
    exact h.next hi
  · rw [hsame.value]
    exact h.unlinked (himpl ▸ hn) (hsize n ▸ hi)
  · rw [hsame.passes] at hnot
    rw [hsame.key] at hi
    rw [hfull, hsame.value]
    obtain ⟨hbetween, w, hw, hval⟩ := h.above (himpl ▸ hn) hnot hlt hi
    exact ⟨hbetween, w, hwaits.mpr hw, hval⟩

/-- The same entries have the same contents. -/
theorem contents_of_sameEntries {M' : Memory K} (hsame : Memory.SameEntries M M')
    (himpl : M'.impl = M.impl) {m : K → Word} (hm : M.Contents hash m) : M'.Contents hash m := by
  intro k n hn hpassed
  rw [hsame.passes, himpl] at hpassed
  unfold Memory.Vacant
  rw [hsame.lookUp, hsame.key, hsame.value]
  exact hm k n (himpl ▸ hn) hpassed

section

variable {scale : Nat} {minScale : 4 ≤ scale}

/-- The next table begins without keys. -/
theorem key_grow (h : Shape hash M) : (M.grow scale minScale).key = M.key := by
  funext n i
  unfold Memory.key Memory.grow Memory.setTable Implementation.key
  by_cases hn : n = M.last + 1
  · subst hn
    simp only [Function.update_self]
    exact (h.unmade (Nat.lt_succ_self _) i).1.symm
  · simp [hn]

/-- The next table begins without values. -/
theorem value_grow (h : Shape hash M) : (M.grow scale minScale).value = M.value := by
  funext n i
  unfold Memory.value Memory.grow Memory.setTable Implementation.value
  by_cases hn : n = M.last + 1
  · subst hn
    simp only [Function.update_self]
    exact (h.unmade (Nat.lt_succ_self _) i).2.symm
  · simp [hn]

omit [DecidableEq K] in
/-- The tables made before keep their size. -/
theorem scale_grow (hn : n ≤ M.last) :
    ((M.grow scale minScale).tables n).scale = (M.tables n).scale := by
  have hne : n ≠ M.last + 1 := by omega
  show (Function.update M.tables (M.last + 1) (.new scale minScale) n).scale = (M.tables n).scale
  rw [Function.update_of_ne hne]

/-- Searches in the tables made before stay. -/
theorem lookUp_grow (h : Shape hash M) (hn : n ≤ M.last) :
    (M.grow scale minScale).lookUp hash n k = M.lookUp hash n k := by
  unfold Memory.lookUp
  rw [h.key_grow, Memory.probes_of_scale (scale_grow hn)]

/-- The next table has room. -/
theorem vacant_grow (h : Shape hash M) (hn : M.last < n) :
    (M.grow scale minScale).Vacant hash n k := by
  have hempty : ∀ i, (M.grow scale minScale).key n i = none := by
    intro i
    rw [h.key_grow]
    exact (h.unmade hn i).1
  obtain ⟨i, hi⟩ := Probing.lookUp_of_empty (k := k) hempty
    ((M.grow scale minScale).probes_ne_nil hash n k)
  exact ⟨i, hi, hempty i⟩

/-- Making the next table lets no search pass. -/
theorem passes_grow (h : Shape hash M) :
    (M.grow scale minScale).Passes hash n k ↔ M.Passes hash n k := by
  by_cases hn : n ≤ M.last
  · unfold Memory.Passes Memory.Full
    rw [h.lookUp_grow hn, h.key_grow, h.value_grow]
  · have hlt := Nat.lt_of_not_le hn
    refine iff_of_false ?_ (h.not_passes_of_vacant (h.vacant_of_unmade hlt))
    rintro (hfull | ⟨i, hi, -⟩)
    · exact not_full_of_vacant (h.vacant_grow hlt) hfull
    · rw [h.key_grow, (h.unmade hlt i).1] at hi
      cases hi

/-- A further table is made. -/
theorem grow (h : Shape hash M) : Shape hash (M.grow scale minScale) := by
  have hkey : (M.grow scale minScale).key = M.key := h.key_grow
  have hvalue : (M.grow scale minScale).value = M.value := h.value_grow
  refine
    { impl_le := Nat.le_succ_of_le h.impl_le, placed := fun n i k hi => ?_,
      unmade := fun {n} hn i => ?_, cell := fun n i => ?_, keyless := fun {n i} hi => ?_,
      next := fun {n i} hi => ?_, unlinked := fun {n i} hn hi => ?_,
      above := fun {n k m i} hn hnot hlt hi => ?_ }
  · rw [hkey] at hi
    exact (h.lookUp_grow (h.le_last_of_key hi)).trans (h.lookUp_of_key hi)
  · rw [hkey, hvalue]
    exact h.unmade (Nat.lt_of_succ_lt hn) i
  · rw [hvalue]
    exact h.cell n i
  · rw [hkey] at hi
    rw [hvalue]
    exact h.keyless hi
  · rw [hvalue] at hi
    exact Nat.lt_succ_of_lt (h.next hi)
  · have hle : n ≤ M.last := (Nat.le_of_lt hn).trans h.impl_le
    rw [hvalue]
    exact h.unlinked hn ((Memory.size_of_scale (scale_grow hle)) ▸ hi)
  · rw [h.passes_grow] at hnot
    rw [hkey] at hi
    rw [hvalue]
    have hm := h.le_last_of_key hi
    obtain ⟨hbetween, w, ⟨j, hj, hw, hjw⟩, hval⟩ := h.above hn hnot hlt hi
    refine ⟨fun j hj hjm => ?_, w, ⟨j, hkey ▸ hj, hw, hvalue ▸ hjw⟩, hval⟩
    exact (h.lookUp_grow (hjm.le.trans hm)).trans (hbetween j hj hjm)

/-- Making the next table keeps the contents. -/
theorem contents_grow (h : Shape hash M) {m : K → Word} (hm : M.Contents hash m) :
    (M.grow scale minScale).Contents hash m := by
  intro k n hn hpassed
  have hpassed' : ∀ j, M.impl ≤ j → j < n → M.Passes hash j k :=
    fun j hj hjn => h.passes_grow.mp (hpassed j hj hjn)
  obtain ⟨hnone, hsome⟩ := hm k n hn hpassed'
  rw [h.key_grow, h.value_grow]
  refine ⟨fun hvacant => hnone ?_, hsome⟩
  by_cases hle : n ≤ M.last
  · unfold Memory.Vacant at hvacant ⊢
    rwa [h.lookUp_grow hle, h.key_grow] at hvacant
  · exact h.vacant_of_unmade (Nat.lt_of_not_le hle)

end

/-- All entries of a table have been copied. -/
def AllCopied (M : Memory K) (n : Nat) : Prop :=
  ∀ i < M.size n, Done (M.value n i)

/-- The keys that a table with copied entries does not pass on are in no table. -/
theorem vacant_of_allCopied (h : Shape hash M) (hall : AllCopied M n)
    (hnot : ¬ M.Passes hash n k) : M.Vacant hash n k := by
  rcases search_cases hash M n k with hfull | hvacant | ⟨i, hi⟩
  · exact absurd (Or.inl hfull) hnot
  · exact hvacant
  · exact absurd (Or.inr ⟨i, hi, hall i (h.key_lt_size hi)⟩) hnot

/-- The first table is unlinked. -/
theorem unlink (h : Shape hash M) (hall : AllCopied M M.impl) (hn : M.impl < M.last) :
    Shape hash M.unlink where
  impl_le := hn
  placed := h.placed
  unmade := h.unmade
  cell := h.cell
  keyless hi := (h.keyless hi).imp_right fun hcopied => ⟨hcopied.1, Nat.le_succ_of_le hcopied.2⟩
  next := h.next
  unlinked {n i} hlt hi := by
    rcases Nat.lt_succ_iff_lt_or_eq.mp hlt with hlt | rfl
    · exact h.unlinked hlt hi
    · exact hall i hi
  above hle := h.above (Nat.le_of_succ_le hle)

/-- Unlinking a copied table keeps the contents. -/
theorem contents_unlink (h : Shape hash M) (hall : AllCopied M M.impl) {m : K → Word}
    (hm : M.Contents hash m) : M.unlink.Contents hash m := by
  intro k n hn hpassed
  have hlt : M.impl < n := hn
  by_cases hpasses : M.Passes hash M.impl k
  · refine hm k n hlt.le fun j hj hjn => ?_
    rcases Nat.eq_or_lt_of_le hj with rfl | hj
    · exact hpasses
    · exact hpassed j hj hjn
  · have hvacant := h.vacant_of_allCopied hall hpasses
    have hnull := (hm k M.impl le_rfl fun j hj hji => absurd hj (Nat.not_le.mpr hji)).1 hvacant
    exact ⟨fun _ => hnull, fun i hi _ =>
      absurd hi (h.ne_key_above_of_vacant le_rfl hvacant hlt i)⟩

theorem initial : Shape hash ({} : Memory K) where
  impl_le := le_rfl
  placed n i k hi := by cases hi
  unmade _ _ := ⟨rfl, rfl⟩
  cell _ _ := .doesNotExist
  keyless _ := Or.inl rfl
  next {n i} hi := absurd hi (by decide : ¬ isTagged doesNotExist)
  unlinked hn := absurd hn (Nat.not_lt_zero _)
  above {n k m i} _ _ _ hi := by cases hi

theorem contents_initial : ({} : Memory K).Contents hash fun _ => doesNotExist :=
  fun _ _ _ _ => ⟨fun _ => rfl, fun _ hi => by cases hi⟩

end Shape

end SharedTables
end Lockfree
end OFlux
