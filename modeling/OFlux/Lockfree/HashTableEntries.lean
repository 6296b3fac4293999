import Mathlib.Data.Finset.Card
import Mathlib.Data.List.Iterate
import OFlux.Lockfree.HashTableImplementation

/-!
# What a table of the growing hash table answers

A table answers for a key if its search for the key ends and the entry there has not been copied;
otherwise it passes the key on to the next table.

Main results:

- Theorem {lit}`answer_put_self`, {lit}`answer_put_of_ne`: the answers after one entry is written.
- Theorem {lit}`compareAndSwap_spec`: one call to one table.
-/

namespace OFlux
namespace Lockfree

open Library HashTableConstants

namespace Implementation

section

variable {K : Type}

/-! ## Indices -/

/-- A table has whole buckets. -/
theorem four_dvd_size (t : Implementation K) : 4 ∣ t.size :=
  Nat.pow_dvd_pow 2 (Nat.le_trans (by decide : 2 ≤ 4) t.minScale)

/-- A bucket lies inside the table. -/
theorem lt_size_of_mem_bucket {t : Implementation K} {index i : Nat} (hindex : index < t.size)
    (hi : i ∈ bucket index) : i < t.size := by
  obtain ⟨m, hm⟩ := t.four_dvd_size
  obtain ⟨j, -, rfl⟩ := List.mem_map.mp hi
  rw [entriesPerBucket]
  omega

/-- A probe stays inside the table. -/
theorem lt_size_of_mem_probes {t : Implementation K} {kHash : Word} {i : Nat}
    (hi : i ∈ t.probes kHash) : i < t.size := by
  obtain ⟨index, hindex, hi⟩ := List.mem_flatMap.mp hi
  refine lt_size_of_mem_bucket ?_ hi
  obtain ⟨m, -, rfl⟩ := List.mem_iterate.mp hindex
  have hpos : 0 < t.size := Nat.two_pow_pos _
  cases m with
  | zero => exact Nat.mod_lt _ hpos
  | succ m =>
      rw [Function.iterate_succ_apply']
      exact Nat.mod_lt _ hpos

theorem probes_ne_nil (t : Implementation K) (kHash : Word) : t.probes kHash ≠ [] := by
  have hprobe : 0 < t.probe := by
    unfold probe
    dsimp only
    split <;> omega
  obtain ⟨n, hn⟩ := Nat.exists_eq_succ_of_ne_zero hprobe.ne'
  unfold probes
  rw [hn, List.iterate, List.flatMap_cons]
  exact List.append_ne_nil_of_left_ne_nil (by simp [bucket, entriesPerBucket]) _

/-! ## One entry of a table -/

/-- An entry with a key and a value, and the count of the table. -/
def put (t : Implementation K) (i : Nat) (k : K) (v : Word) (count : Nat) : Implementation K :=
  { t with
    table := Function.update t.table i ⟨some k, v⟩
    count := count }

/-- The keys after a binding was put. -/
theorem key_put (t : Implementation K) (i : Nat) (k : K) (v : Word) (c : Nat) :
    (t.put i k v c).key = Function.update t.key i (some k) := by
  funext j
  simp only [key, put, Function.update_apply]
  split <;> rfl

/-- The values after a binding was put. -/
theorem value_put (t : Implementation K) (i j : Nat) (k : K) (v : Word) (c : Nat) :
    (t.put i k v c).value j = if j = i then v else t.value j := by
  simp only [value, put, Function.update_apply]
  split <;> rfl

@[simp]
theorem key_setValue (t : Implementation K) (i : Nat) (v : Word) :
    (t.setValue i v).key = t.key := by
  funext j
  simp only [key, setValue, Function.update_apply]
  split
  next hj => rw [hj]
  next => rfl

/-- The values after one was written. -/
theorem value_setValue (t : Implementation K) (i j : Nat) (v : Word) :
    (t.setValue i v).value j = if j = i then v else t.value j := by
  simp only [value, setValue, Function.update_apply]
  split <;> rfl

/-- The second of two writes stands. -/
theorem setValue_setValue (t : Implementation K) (i : Nat) (v w : Word) :
    (t.setValue i v).setValue i w = t.setValue i w := by
  unfold setValue
  simp only [Function.update_self, Function.update_idem]

end

/-! ## What a table answers -/

variable {K : Type} [DecidableEq K] (hash : K → Word)

/-- What a table knows about a key; a key that it passes on has no answer. -/
def answer (t : Implementation K) (k : K) : Option Word :=
  match t.lookUp hash k with
  | none => none
  | some i =>
      match t.key i with
      | none => some doesNotExist
      | some _ => if isTagged (t.value i) then none else some (oldValue (t.value i))

/-- Some entry of the table has the key. -/
def HasKey (t : Implementation K) (k : K) : Prop := ∃ i, t.key i = some k

/-- Every key is where its search ends. -/
def Placed (t : Implementation K) : Prop :=
  Probing.Placed t.key fun k => t.probes (hash k)

variable {hash} {t : Implementation K} {i : Nat} {k k' : K} {v : Word} {c : Nat}

/-- A full table sends a key it does not have on. -/
theorem answer_of_lookUp_eq_none (h : t.lookUp hash k = none) : t.answer hash k = none := by
  rw [answer, h]

/-- A search that ends at an empty entry finds nothing. -/
theorem answer_of_key_eq_none (h : t.lookUp hash k = some i) (hi : t.key i = none) :
    t.answer hash k = some doesNotExist := by
  rw [answer, h]
  simp only [hi]

/-- A search that finds its key answers with the value, unless it is copied. -/
theorem answer_of_key (h : t.lookUp hash k = some i) (hi : t.key i = some k) :
    t.answer hash k = if isTagged (t.value i) then none else some (oldValue (t.value i)) := by
  rw [answer, h]
  simp only [hi]

/-- A key that is not in a table is passed on, or does not exist. -/
theorem answer_of_not_hasKey (hash : K → Word) (h : ¬ t.HasKey k) :
    t.answer hash k = none ∨ t.answer hash k = some doesNotExist := by
  cases hlookUp : t.lookUp hash k with
  | none => exact Or.inl (answer_of_lookUp_eq_none hlookUp)
  | some i =>
      rcases Probing.key_of_lookUp hlookUp with hi | hi
      · exact Or.inr (answer_of_key_eq_none hlookUp hi)
      · exact absurd ⟨i, hi⟩ h

/-- A key whose search ends at an empty entry is nowhere in the table. -/
theorem Placed.not_hasKey_of_key_eq_none (hplaced : t.Placed hash)
    (h : t.lookUp hash k = some i) (hi : t.key i = none) : ¬ t.HasKey k := by
  rintro ⟨j, hj⟩
  exact Probing.Placed.ne_key_of_empty hplaced h hi j hj

/-! ## An entry that is put where the search ends -/

theorem lookUp_put_self (h : t.lookUp hash k = some i) :
    (t.put i k v c).lookUp hash k = some i := by
  unfold lookUp
  rw [key_put]
  exact Probing.lookUp_insert_self h

/-- The entry where a search ends is empty, or it has the key already. -/
theorem key_put_cases (h : t.lookUp hash k = some i) :
    t.key i = none ∨ (t.put i k v c).key = t.key := by
  refine (Probing.key_of_lookUp h).imp_right fun hi => ?_
  rw [key_put, ← hi, Function.update_eq_self]

/-- A put keeps every key where its search finds it. -/
theorem placed_put (hplaced : t.Placed hash) (h : t.lookUp hash k = some i) :
    (t.put i k v c).Placed hash := by
  unfold Placed
  rcases key_put_cases (v := v) (c := c) h with hi | hi
  · rw [key_put]
    exact Probing.Placed.insert hplaced hi h
  · rw [hi]
    exact hplaced

theorem answer_put_self (h : t.lookUp hash k = some i) :
    (t.put i k v c).answer hash k = if isTagged v then none else some (oldValue v) := by
  have hi : (t.put i k v c).key i = some k := by rw [key_put, Function.update_self]
  rw [answer_of_key (lookUp_put_self h) hi, value_put, if_pos rfl]

/-- The other answers are as before, but for keys that do not exist. -/
theorem answer_put_of_ne (hplaced : t.Placed hash) (h : t.lookUp hash k = some i)
    (hne : k' ≠ k) :
    (t.put i k v c).answer hash k' = t.answer hash k' ∨
      t.answer hash k' = some doesNotExist ∧ ¬ t.HasKey k' := by
  by_cases hlookUp : t.lookUp hash k' = some i
  · rcases Probing.key_of_lookUp h with hi | hi
    · exact Or.inr ⟨answer_of_key_eq_none hlookUp hi,
        hplaced.not_hasKey_of_key_eq_none hlookUp hi⟩
    · rcases Probing.key_of_lookUp hlookUp with hi' | hi'
      · exact absurd (hi'.symm.trans hi) (by simp)
      · exact absurd (Option.some.inj (hi'.symm.trans hi)) hne
  · left
    have hsame : (t.put i k v c).lookUp hash k' = t.lookUp hash k' := by
      rcases key_put_cases (v := v) (c := c) h with hi | hi
      · unfold lookUp
        rw [key_put]
        exact Probing.lookUp_insert_of_ne hi hlookUp
      · unfold lookUp
        rw [hi]
        rfl
    unfold answer
    rw [hsame]
    cases hj : t.lookUp hash k' with
    | none => rfl
    | some j =>
        have hji : j ≠ i := fun heq => hlookUp (heq ▸ hj)
        simp only [key_put, value_put, if_neg hji, Function.update_of_ne hji]

omit [DecidableEq K] in
/-- A put adds at most its own key. -/
theorem hasKey_put (h : (t.put i k v c).HasKey k') : k' = k ∨ t.HasKey k' := by
  obtain ⟨j, hj⟩ := h
  rw [key_put] at hj
  by_cases hji : j = i
  · rw [hji, Function.update_self] at hj
    exact Or.inl (Option.some.inj hj).symm
  · rw [Function.update_of_ne hji] at hj
    exact Or.inr ⟨j, hj⟩

/-! ## The states of a table -/

/-- What holds of every table of the chain. -/
structure Wf (hash : K → Word) (t : Implementation K) : Prop where
  placed : t.Placed hash
  copied : ∀ i, isTagged (t.value i) →
    t.value i = copiedValue ∨ t.value i = tagValue tombStone
  empty : ∀ i, t.key i = none → t.value i = doesNotExist ∨ t.value i = copiedValue
  kept : ∀ i, ¬ isTagged (t.value i) → stripTag (t.value i) = t.value i
  aligned : entriesPerCopyChunk ∣ t.copyScan
  refs : 0 < t.refCount

/-- No entry of the table has been copied. -/
structure Quiet (t : Implementation K) : Prop where
  untagged : ∀ i, ¬ isTagged (t.value i)
  none_copied : t.numEntriesCopied = 0

/-- What a call changes in a table: where the search for its key ends, the entry gets the key and
keeps its value or gets another one. -/
inductive Puts (hash : K → Word) (k : K) (t : Implementation K) : Implementation K → Prop where
  | same : Puts hash k t t
  | put {i : Nat} {v : Word} {c : Nat} (hlookUp : t.lookUp hash k = some i)
      (hv : v = t.value i ∨ ¬ isTagged (t.value i) ∧ ¬ isTagged v ∧ stripTag v = v) :
      Puts hash k t (t.put i k v c)

variable {t' : Implementation K}

theorem Puts.scale_eq (h : Puts hash k t t') : t'.scale = t.scale := by
  cases h <;> rfl

theorem Puts.numEntriesCopied_eq (h : Puts hash k t t') :
    t'.numEntriesCopied = t.numEntriesCopied := by
  cases h <;> rfl

/-- A put keeps the table well formed. -/
theorem Puts.wf (h : Puts hash k t t') (hwf : t.Wf hash) : t'.Wf hash := by
  cases h with
  | same => exact hwf
  | @put i v c hlookUp hv =>
      refine ⟨placed_put hwf.placed hlookUp, fun j hj => ?_, fun j hj => ?_, fun j hj => ?_,
        hwf.aligned, hwf.refs⟩
      · rw [value_put] at hj ⊢
        split
        next heq =>
          rw [if_pos heq] at hj
          rcases hv with rfl | ⟨-, huntagged, -⟩
          · exact hwf.copied i hj
          · exact absurd hj huntagged
        next hne =>
          rw [if_neg hne] at hj
          exact hwf.copied j hj
      · have hji : j ≠ i := by
          rintro rfl
          rw [key_put, Function.update_self] at hj
          cases hj
        rw [key_put, Function.update_of_ne hji] at hj
        rw [value_put, if_neg hji]
        exact hwf.empty j hj
      · rw [value_put] at hj ⊢
        split
        next heq =>
          rw [if_pos heq] at hj
          rcases hv with rfl | ⟨-, -, hkept⟩
          · exact hwf.kept i hj
          · exact hkept
        next hne =>
          rw [if_neg hne] at hj
          exact hwf.kept j hj

/-- A put starts no copying. -/
theorem Puts.quiet (h : Puts hash k t t') (hquiet : t.Quiet) : t'.Quiet := by
  cases h with
  | same => exact hquiet
  | @put i v c hlookUp hv =>
      refine ⟨fun j => ?_, hquiet.none_copied⟩
      rw [value_put]
      split
      · rcases hv with rfl | ⟨-, huntagged, -⟩
        · exact hquiet.untagged i
        · exact huntagged
      · exact hquiet.untagged j

/-- No entry is copied. -/
theorem Puts.isTagged_eq (h : Puts hash k t t') (j : Nat) :
    isTagged (t'.value j) = isTagged (t.value j) := by
  cases h with
  | same => rfl
  | @put i v c hlookUp hv =>
      rw [value_put]
      split
      next hji =>
        rcases hv with rfl | ⟨hold, hnew, -⟩
        · rw [hji]
        · rw [hji, Bool.eq_false_iff.mpr hold, Bool.eq_false_iff.mpr hnew]
      next => rfl

/-- A put adds at most its own key. -/
theorem Puts.hasKey (h : Puts hash k t t') (hk' : t'.HasKey k') : k' = k ∨ t.HasKey k' := by
  cases h with
  | same => exact Or.inr hk'
  | put => exact hasKey_put hk'

theorem Puts.answer_of_ne (h : Puts hash k t t') (hwf : t.Wf hash) (hne : k' ≠ k) :
    t'.answer hash k' = t.answer hash k' ∨
      t.answer hash k' = some doesNotExist ∧ ¬ t.HasKey k' := by
  cases h with
  | same => exact Or.inl rfl
  | put hlookUp => exact answer_put_of_ne hwf.placed hlookUp hne

/-- A table of which nothing has been copied goes on answering. -/
theorem Puts.answer_ne_none (h : Puts hash k t t') (hquiet : t.Quiet)
    (hanswer : t.answer hash k ≠ none) : t'.answer hash k ≠ none := by
  cases h with
  | same => exact hanswer
  | @put i v c hlookUp hv =>
      have huntagged : ¬ isTagged v := by
        rcases hv with rfl | ⟨-, huntagged, -⟩
        · exact hquiet.untagged i
        · exact huntagged
      rw [answer_put_self hlookUp, if_neg huntagged]
      exact Option.some_ne_none _

omit [DecidableEq K] in
/-- The second of two puts at one entry stands. -/
theorem put_put (t : Implementation K) (i : Nat) (k : K) (v v' : Word) (c c' : Nat) :
    (t.put i k v c).put i k v' c' = t.put i k v' c' := by
  unfold put
  rw [Function.update_idem]

theorem Puts.trans {t'' : Implementation K} (h : Puts hash k t t') (h' : Puts hash k t' t'') :
    Puts hash k t t'' := by
  cases h with
  | same => exact h'
  | @put i v c hlookUp hv =>
      cases h' with
      | same => exact Puts.put hlookUp hv
      | @put j v' c' hlookUp' hv' =>
          obtain rfl : i = j := Option.some.inj ((lookUp_put_self hlookUp).symm.trans hlookUp')
          rw [put_put]
          refine Puts.put hlookUp ?_
          rw [value_put, if_pos rfl] at hv'
          rcases hv' with rfl | ⟨hv', hrest⟩
          · exact hv
          · refine Or.inr ⟨?_, hrest⟩
            rcases hv with rfl | ⟨huntagged, -⟩
            · exact hv'
            · exact huntagged

/-! ## One call to one table -/

/-- The expected value of a call is the current one, or a sentinel that fits. -/
def Fits (expectedVal current : Word) : Prop :=
  expectedVal = CasExpect.whatever ∨ expectedVal = current ∨
    (current ≠ doesNotExist ∧ expectedVal = CasExpect.exists_) ∨
    (current = doesNotExist ∧ expectedVal = CasExpect.doesNotExist)

instance (expectedVal current : Word) : Decidable (Fits expectedVal current) :=
  inferInstanceAs (Decidable (_ ∨ _))

/-- The expectation fits the value the caller would be told, as the code compares it. -/
theorem fits_oldValue_iff {entVal expectedVal : Word} (he : expectedVal ≠ tombStone) :
    Fits expectedVal (oldValue entVal) ↔
      ¬ (expectedVal ≠ CasExpect.whatever ∧ expectedVal ≠ entVal ∧
        expectedVal ≠ (if entVal ≠ tombStone ∧ entVal ≠ doesNotExist then CasExpect.exists_
          else CasExpect.doesNotExist)) := by
  have hwhatever : CasExpect.whatever = doesNotExist := rfl
  unfold Fits oldValue
  by_cases htomb : entVal = tombStone
  · simp only [htomb, he, hwhatever, if_true, ne_eq, not_true_eq_false, false_and, if_false]
    tauto
  · by_cases hnull : entVal = doesNotExist
    · rw [hnull, if_neg HashTable.tombStone_ne_doesNotExist.symm]
      simp only [hwhatever, ne_eq, not_true_eq_false, and_false, if_false]
      tauto
    · simp only [htomb, hnull, if_false, ne_eq, not_false_eq_true, and_self, if_true, true_and,
        false_and]
      tauto

/-- A new value that can be copied later, or none. -/
def Storable (newVal : Word) : Prop :=
  newVal = doesNotExist ∨ ¬ isTagged newVal ∧ newVal ≠ tombStone ∧ stripTag newVal = newVal

theorem Storable.oldValue_eq {newVal : Word} (h : Storable newVal) : oldValue newVal = newVal := by
  rcases h with rfl | ⟨-, htomb, -⟩
  · rfl
  · exact if_neg htomb

/-- The value of an entry after a new value is written. -/
theorem Storable.written {newVal : Word} (h : Storable newVal) :
    let v := if newVal = doesNotExist then tombStone else newVal
    ¬ isTagged v ∧ stripTag v = v ∧ oldValue v = newVal := by
  dsimp only
  split
  next hnull =>
    subst hnull
    decide
  next hnull =>
    obtain ⟨huntagged, -, hstrip⟩ := h.resolve_left hnull
    exact ⟨huntagged, hstrip, h.oldValue_eq⟩

omit [DecidableEq K] in
/-- Writing a key is a put that keeps the value. -/
theorem setKey_eq_put (t : Implementation K) (i : Nat) (k : K) :
    t.setKey i k = t.put i k (t.value i) t.count :=
  rfl

omit [DecidableEq K] in
/-- Writing a value is a put that keeps the key. -/
theorem setValue_eq_put (hi : t.key i = some k) :
    { t.setValue i v with count := c } = t.put i k v c := by
  have hentry : ({ t.table i with value := v } : Entry K) = ⟨some k, v⟩ := by
    rw [← hi]
    rfl
  unfold setValue put
  rw [hentry]

variable {expectedVal newVal : Word}

omit [DecidableEq K] in
/-- A swap at a copied entry fails. -/
theorem swapValue_tagged (h : isTagged (t.value i)) :
    t.swapValue i expectedVal newVal = (copiedValue, t) := by
  unfold swapValue
  exact if_pos h

/-- {lit}`compareAndSwap` on an entry with the key that has not been copied. -/
theorem swapValue_spec (hlookUp : t.lookUp hash k = some i) (hi : t.key i = some k)
    (huntagged : ¬ isTagged (t.value i)) (he : expectedVal ≠ tombStone) (hn : Storable newVal) :
    let r := t.swapValue i expectedVal newVal
    r.1 = t.value i ∧ Puts hash k t r.2 ∧
      r.2.answer hash k =
        some (if Fits expectedVal (oldValue (t.value i)) then newVal else oldValue (t.value i)) := by
  have hanswer : t.answer hash k = some (oldValue (t.value i)) := by
    rw [answer_of_key hlookUp hi, if_neg huntagged]
  dsimp only
  unfold swapValue
  dsimp only
  rw [if_neg huntagged]
  by_cases hfits : Fits expectedVal (oldValue (t.value i))
  case neg =>
    rw [if_pos (not_not.mp (mt (fits_oldValue_iff he).mpr hfits)), if_neg hfits]
    exact ⟨rfl, Puts.same, hanswer⟩
  case pos =>
    rw [if_neg ((fits_oldValue_iff he).mp hfits), if_pos hfits]
    split
    next hsame =>
      refine ⟨rfl, Puts.same, hanswer.trans (congrArg some ?_)⟩
      rcases hsame with ⟨rfl, hold⟩ | heq
      · unfold oldValue
        split
        · rfl
        next htomb => exact not_ne_iff.mp fun hnull => hold ⟨htomb, hnull⟩
      · rw [heq, hn.oldValue_eq]
    next =>
      obtain ⟨huntagged', hstrip, hold⟩ := hn.written
      rw [setValue_eq_put hi]
      refine ⟨rfl, Puts.put hlookUp (Or.inr ⟨huntagged, huntagged', hstrip⟩), ?_⟩
      rw [answer_put_self hlookUp, if_neg huntagged', hold]

/-- A table passes a call on, or it has the entry. -/
theorem compareAndSwap_spec (hwf : t.Wf hash) (he : expectedVal ≠ tombStone)
    (hn : Storable newVal) :
    let r := t.compareAndSwap hash k expectedVal newVal
    Puts hash k t r.2 ∧
      (r.1 = copiedValue ∧ r.2.answer hash k = none ∧
          (t.answer hash k = none ∨ t.answer hash k = some doesNotExist ∧ ¬ t.HasKey k) ∨
        r.1 ≠ copiedValue ∧ t.answer hash k = some (oldValue r.1) ∧
          r.2.answer hash k =
            some (if Fits expectedVal (oldValue r.1) then newVal else oldValue r.1)) := by
  have hne : ∀ {v : Word}, ¬ isTagged v → v ≠ copiedValue := by
    rintro v hv rfl
    exact hv (by decide)
  dsimp only
  unfold compareAndSwap
  cases hlookUp : t.lookUp hash k with
  | none =>
      have hanswer := answer_of_lookUp_eq_none hlookUp
      exact ⟨Puts.same, Or.inl ⟨rfl, hanswer, Or.inl hanswer⟩⟩
  | some i =>
      cases hi : t.key i with
      | none =>
          have hanswer := answer_of_key_eq_none hlookUp hi
          have hnot := hwf.placed.not_hasKey_of_key_eq_none hlookUp hi
          have hnull : oldValue doesNotExist = doesNotExist := rfl
          have hnullNe : doesNotExist ≠ copiedValue := by decide
          simp only [hi]
          split
          next hmismatch =>
            have hfits : ¬ Fits expectedVal doesNotExist := by
              rintro (h | h | ⟨h, -⟩ | ⟨-, h⟩)
              · exact hmismatch.2 h
              · exact hmismatch.2 h
              · exact h rfl
              · exact hmismatch.1 h
            refine ⟨Puts.same, Or.inr ⟨hnullNe, hanswer, ?_⟩⟩
            rw [hnull, if_neg hfits, hanswer]
          next hmatch =>
            split
            next hnew =>
              refine ⟨Puts.same, Or.inr ⟨hnullNe, hanswer, ?_⟩⟩
              rw [hnew, hnull, ite_self, hanswer]
            next =>
              rw [setKey_eq_put]
              have hput : Puts hash k t (t.put i k (t.value i) t.count) :=
                Puts.put hlookUp (Or.inl rfl)
              have hvalue : (t.put i k (t.value i) t.count).value i = t.value i := by
                rw [value_put, if_pos rfl]
              by_cases htagged : isTagged (t.value i)
              · rw [swapValue_tagged (by rwa [hvalue])]
                refine ⟨hput, Or.inl ⟨rfl, ?_, Or.inr ⟨hanswer, hnot⟩⟩⟩
                rw [answer_put_self hlookUp, if_pos htagged]
              · have hempty : t.value i = doesNotExist := by
                  rcases hwf.empty i hi with h | h
                  · exact h
                  · exact absurd (by rw [h]; decide) htagged
                have hlookUp' : (t.put i k (t.value i) t.count).lookUp hash k = some i :=
                  lookUp_put_self hlookUp
                have hkey : (t.put i k (t.value i) t.count).key i = some k := by
                  rw [key_put, Function.update_self]
                obtain ⟨hold, hputs, hafter⟩ :=
                  swapValue_spec hlookUp' hkey (by rwa [hvalue]) he hn
                rw [hvalue] at hold hafter
                rw [hold]
                refine ⟨hput.trans hputs, Or.inr ⟨hne htagged, ?_, hafter⟩⟩
                rw [hanswer, hempty, hnull]
      | some k' =>
          have hkey : t.key i = some k := by
            rcases Probing.key_of_lookUp hlookUp with h | h
            · rw [hi] at h
              cases h
            · exact h
          simp only [hi]
          by_cases htagged : isTagged (t.value i)
          · have hanswer : t.answer hash k = none := by
              rw [answer_of_key hlookUp hkey, if_pos htagged]
            rw [swapValue_tagged htagged]
            exact ⟨Puts.same, Or.inl ⟨rfl, hanswer, Or.inl hanswer⟩⟩
          · obtain ⟨hold, hputs, hafter⟩ := swapValue_spec hlookUp hkey htagged he hn
            rw [hold]
            refine ⟨hputs, Or.inr ⟨hne htagged, ?_, hafter⟩⟩
            rw [answer_of_key hlookUp hkey, if_neg htagged]

/-! ## Copying -/

/-- A key that is not in a table is put there, if the table has room for it. -/
theorem putCopy_spec (hwf : t.Wf hash) (hquiet : t.Quiet) (hnot : ¬ t.HasKey k)
    (huntagged : ¬ isTagged v) (hstrip : stripTag v = v) :
    t.putCopy hash k v = (none, t) ∧ t.answer hash k = none ∨
      ∃ t', t.putCopy hash k v = (some true, t') ∧ Puts hash k t t' ∧
        t.answer hash k ≠ none ∧ t'.answer hash k = some (oldValue v) := by
  unfold putCopy
  cases hlookUp : t.lookUp hash k with
  | none => exact Or.inl ⟨rfl, answer_of_lookUp_eq_none hlookUp⟩
  | some i =>
      right
      have hi : t.key i = none := by
        rcases Probing.key_of_lookUp hlookUp with hi | hi
        · exact hi
        · exact absurd ⟨i, hi⟩ hnot
      have hnull : t.value i = doesNotExist := by
        rcases hwf.empty i hi with h | h
        · exact h
        · exact absurd (by rw [h]; decide) (hquiet.untagged i)
      have hkey : (t.setKey i k).key i = some k := by
        rw [setKey_eq_put, key_put, Function.update_self]
      have hvalue : (t.setKey i k).value i = doesNotExist := by
        rw [setKey_eq_put, value_put, if_pos rfl, hnull]
      refine ⟨t.put i k v (t.count + 1), ?_,
        Puts.put hlookUp (Or.inr ⟨hquiet.untagged i, huntagged, hstrip⟩), ?_, ?_⟩
      · have hcopied : doesNotExist ≠ copiedValue := by decide
        simp only [hi, if_true, hvalue, hcopied, if_false]
        rw [setValue_eq_put hkey, setKey_eq_put, put_put]
        rfl
      · rw [answer_of_key_eq_none hlookUp hi]
        exact Option.some_ne_none _
      · rw [answer_put_self hlookUp, if_neg huntagged]

/-- The entry has been copied, or need not be. -/
structure Tags (i : Nat) (t t' : Implementation K) : Prop where
  key_eq : t'.key = t.key
  value_of_ne : ∀ {j}, j ≠ i → t'.value j = t.value j
  tagged : t'.value i = copiedValue ∨ t'.value i = tagValue tombStone ∧ t.key i ≠ none
  scale_eq : t'.scale = t.scale
  numEntriesCopied_eq : t'.numEntriesCopied = t.numEntriesCopied
  copyScan_eq : t'.copyScan = t.copyScan
  refCount_eq : t'.refCount = t.refCount

omit [DecidableEq K] in
theorem Tags.isTagged_self (h : Tags i t t') : isTagged (t'.value i) := by
  rcases h.tagged with h | ⟨h, -⟩
  · rw [h]
    decide
  · rw [h]
    decide

theorem Tags.lookUp_eq (h : Tags i t t') (k : K) : t'.lookUp hash k = t.lookUp hash k := by
  unfold lookUp probes probe nextIndex size
  rw [h.key_eq, h.scale_eq]

/-- The key of the entry is passed on. -/
theorem Tags.answer_self (h : Tags i t t') (hwf : t.Wf hash) (hi : t.key i = some k) :
    t'.answer hash k = none := by
  have hlookUp : t'.lookUp hash k = some i := (h.lookUp_eq k).trans (hwf.placed i k hi)
  rw [answer_of_key hlookUp (h.key_eq ▸ hi), if_pos h.isTagged_self]

theorem Tags.answer_of_ne (h : Tags i t t') (hi : t.key i ≠ some k) :
    t'.answer hash k = t.answer hash k := by
  cases hlookUp : t.lookUp hash k with
  | none =>
      rw [answer_of_lookUp_eq_none hlookUp,
        answer_of_lookUp_eq_none ((h.lookUp_eq k).trans hlookUp)]
  | some j =>
      have hlookUp' : t'.lookUp hash k = some j := (h.lookUp_eq k).trans hlookUp
      rcases Probing.key_of_lookUp hlookUp with hj | hj
      · rw [answer_of_key_eq_none hlookUp hj,
          answer_of_key_eq_none hlookUp' ((congrFun h.key_eq j).trans hj)]
      · have hji : j ≠ i := by
          rintro rfl
          exact hi hj
        rw [answer_of_key hlookUp hj, answer_of_key hlookUp' ((congrFun h.key_eq j).trans hj),
          h.value_of_ne hji]

/-- A table that had sent a key on still does. -/
theorem Tags.answer_eq_none (h : Tags i t t') (hwf : t.Wf hash) (hk : t.answer hash k = none) :
    t'.answer hash k = none := by
  by_cases hi : t.key i = some k
  · exact h.answer_self hwf hi
  · rw [h.answer_of_ne hi, hk]

/-- Tagging keeps the table well formed. -/
theorem Tags.wf (h : Tags i t t') (hwf : t.Wf hash) : t'.Wf hash where
  placed := by
    intro j k hj
    rw [h.key_eq] at hj
    exact (h.lookUp_eq k).trans (hwf.placed j k hj)
  copied := by
    intro j hj
    by_cases hji : j = i
    · rw [hji]
      exact h.tagged.imp_right And.left
    · rw [h.value_of_ne hji] at hj ⊢
      exact hwf.copied j hj
  empty := by
    intro j hj
    rw [h.key_eq] at hj
    by_cases hji : j = i
    · rw [hji] at hj ⊢
      exact Or.inr (h.tagged.resolve_right fun htomb => htomb.2 hj)
    · rw [h.value_of_ne hji]
      exact hwf.empty j hj
  kept := by
    intro j hj
    by_cases hji : j = i
    · rw [hji] at hj
      exact absurd h.isTagged_self hj
    · rw [h.value_of_ne hji] at hj ⊢
      exact hwf.kept j hj
  aligned := h.copyScan_eq ▸ hwf.aligned
  refs := h.refCount_eq ▸ hwf.refs

/-! ## How many entries have been copied -/

/-- The number of entries already copied. -/
def taggedCount (t : Implementation K) : Nat :=
  ((Finset.range t.size).filter fun i => isTagged (t.value i)).card

omit [DecidableEq K] in
/-- The count reaches the size when every entry is copied. -/
theorem taggedCount_eq_size_iff :
    t.taggedCount = t.size ↔ ∀ i < t.size, isTagged (t.value i) := by
  have h := Finset.card_filter_eq_iff (s := Finset.range t.size) (p := fun i => isTagged (t.value i))
  rw [Finset.card_range] at h
  simpa [taggedCount] using h

theorem Puts.taggedCount_eq (h : Puts hash k t t') : t'.taggedCount = t.taggedCount := by
  have hsize : t'.size = t.size := congrArg (2 ^ ·) h.scale_eq
  unfold taggedCount
  simp only [hsize, h.isTagged_eq]

omit [DecidableEq K] in
theorem Quiet.taggedCount_eq (h : t.Quiet) : t.taggedCount = 0 := by
  unfold taggedCount
  rw [Finset.card_eq_zero, Finset.filter_eq_empty_iff]
  exact fun i _ => h.untagged i

omit [DecidableEq K] in
theorem Tags.taggedCount_eq (h : Tags i t t') (hi : i < t.size)
    (huntagged : ¬ isTagged (t.value i)) : t'.taggedCount = t.taggedCount + 1 := by
  have hfilter : (Finset.range t'.size).filter (fun j => isTagged (t'.value j)) =
      insert i ((Finset.range t.size).filter fun j => isTagged (t.value j)) := by
    ext j
    have hsize : t'.size = t.size := congrArg (2 ^ ·) h.scale_eq
    rw [Finset.mem_insert, Finset.mem_filter, Finset.mem_filter, Finset.mem_range,
      Finset.mem_range, hsize]
    by_cases hji : j = i
    · subst hji
      exact iff_of_true ⟨hi, h.isTagged_self⟩ (Or.inl rfl)
    · rw [h.value_of_ne hji, or_iff_right hji]
  unfold taggedCount
  rw [hfilter, Finset.card_insert_of_notMem]
  exact fun hmem => huntagged (Finset.mem_filter.mp hmem).2

/-- A table that has copied all of its entries has no key of its own. -/
theorem answer_of_tagged (hplaced : t.Placed hash) (h : ∀ i < t.size, isTagged (t.value i)) :
    t.answer hash k = none ∨ t.answer hash k = some doesNotExist ∧ ¬ t.HasKey k := by
  cases hlookUp : t.lookUp hash k with
  | none => exact Or.inl (answer_of_lookUp_eq_none hlookUp)
  | some i =>
      rcases Probing.key_of_lookUp hlookUp with hi | hi
      · exact Or.inr ⟨answer_of_key_eq_none hlookUp hi,
          hplaced.not_hasKey_of_key_eq_none hlookUp hi⟩
      · left
        rw [answer_of_key hlookUp hi,
          if_pos (h i (lt_size_of_mem_probes (Probing.mem_of_lookUp hlookUp)))]

end Implementation
end Lockfree
end OFlux
