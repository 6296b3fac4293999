import Mathlib.Data.Finset.Card
import OFlux.Lockfree.HashTableThreads

/-!
# The calls on the growing hash table are linearizable

Whatever the threads do, and however the table grows while they do it, the calls that change a value
answer as those of a map, in the order in which they do so, and every other call answers as it would
have between two of these changes while it was running.  A new value has to keep its bits when the
tag is stripped from it, and the tombstone is not an expected value.

A table is unlinked when as many copied entries have been counted as it has.  Every copied entry
belongs to the thread that stored its value until that thread has counted it, so that none is
counted twice.

Main results:

- Theorem {lit}`Credit.of_next`: every copied entry is counted once.
- Theorem {lit}`Invariant.step`: what one step keeps.
- Theorem {lit}`calls_linearize`: the answers of all calls.
-/

namespace OFlux
namespace Lockfree

open Library HashTableConstants
open Tables (callMap Keeps)

namespace SharedTables

variable {K : Type}

/-! ## Every copied entry is counted once -/

namespace Pc

/-- How many entries of a table the thread has copied and not yet counted. -/
def credits (p : Pc K) (n : Nat) : Nat :=
  match p with
  | .help _ m _ numCopied => if m = n then numCopied else 0
  | .copy _ caller e (.finish did) =>
      if e.source = n then caller.numCopied + did.toNat else 0
  | .copy _ caller e _ => if e.source = n then caller.numCopied else 0
  | .addCopied _ m => if m = n then 1 else 0
  | _ => 0

/-- The thread is about to give up an entry whose value it has stored. -/
def Finishing (p : Pc K) (n i : Nat) : Prop :=
  match p with
  | .copy _ _ e (.finish true) => e.source = n ∧ e.entry = i
  | _ => False

/-- The entries that a thread goes back to its caller with. -/
theorem credits_resume (M : Memory K) (hash : K → Word) (c : Call K) (caller : Caller) (n : Nat)
    (did : Bool) (m : Nat) :
    (M.resume hash c caller n did).credits m =
      if n = m then caller.numCopied + did.toNat else 0 := by
  cases caller with
  | call => cases did <;> simp [Memory.resume, Memory.enter, credits, Caller.numCopied]
  | help entries numCopied => rfl

/-- A thread back with its caller finishes no entry. -/
theorem not_finishing_resume (M : Memory K) (hash : K → Word) (c : Call K) (caller : Caller)
    (n : Nat) (did : Bool) (m i : Nat) : ¬ (M.resume hash c caller n did).Finishing m i := by
  cases caller with
  | call => cases did <;> exact not_false
  | help entries numCopied => exact not_false

end Pc

section

variable {M : Memory K} {n j : Nat}

/-- A table with the same count keeps all counts. -/
theorem numEntriesCopied_setTable {t : Implementation K}
    (h : t.numEntriesCopied = (M.tables n).numEntriesCopied) (m : Nat) :
    ((M.setTable n t).tables m).numEntriesCopied = (M.tables m).numEntriesCopied := by
  unfold Memory.setTable
  by_cases hm : m = n
  · subst hm
    simpa using h
  · simp [hm]

/-- Writing a value counts nothing. -/
theorem numEntriesCopied_setValue (M : Memory K) (n j : Nat) (v : Word) (m : Nat) :
    ((M.setValue n j v).tables m).numEntriesCopied = (M.tables m).numEntriesCopied :=
  numEntriesCopied_setTable (t := (M.tables n).setValue j v) rfl m

/-- A copied entry stays copied. -/
theorem done_setValue {v : Word} (hv : Done v ∨ ¬ Done (M.value n j)) (m l : Nat)
    (hdone : Done (M.value m l)) : Done ((M.setValue n j v).value m l) := by
  rw [Memory.value_setValue]
  split
  next hself =>
    obtain ⟨rfl, rfl⟩ := hself
    exact hv.resolve_right fun hnot => hnot hdone
  next => exact hdone

end

section

variable {θ : Type} [DecidableEq θ]

/-- The entries of a table with some owner: no thread, if they have been counted. -/
def owned (M : Memory K) (owner : Nat → Nat → Option (Option θ)) (n : Nat) (o : Option θ) :
    Finset Nat :=
  (Finset.range (M.size n)).filter fun j => owner n j = some o

/-- Each copied entry has been counted, or belongs to the thread that is going to count it. -/
structure Credit (M : Memory K) (pc : θ → Pc K) (owner : Nat → Nat → Option (Option θ)) : Prop where
  counted : ∀ n, (owned M owner n none).card = (M.tables n).numEntriesCopied
  held : ∀ i n, (owned M owner n (some i)).card = (pc i).credits n
  done : ∀ {n j o}, owner n j = some o →
    Done (M.value n j) ∨ ∃ i, o = some i ∧ (pc i).Finishing n j
  finishing : ∀ {i n j}, (pc i).Finishing n j → owner n j = some (some i)

/-- An entry gets an owner. -/
def gained (owner : Nat → Nat → Option (Option θ)) (i : θ) (n j m l : Nat) : Option (Option θ) :=
  if n = m ∧ j = l then some (some i) else owner m l

/-- The entries of a thread are counted. -/
def afterCount (owner : Nat → Nat → Option (Option θ)) (i : θ) (m l : Nat) : Option (Option θ) :=
  if owner m l = some (some i) then some none else owner m l

namespace Credit

variable {M M' : Memory K} {pc : θ → Pc K} {owner : Nat → Nat → Option (Option θ)} {i : θ}
variable {p p' : Pc K} {n j : Nat}

theorem owned_congr (hsize : M'.size n = M.size n ∨ ∀ j, owner n j = none) (o : Option θ) :
    owned M' owner n o = owned M owner n o := by
  unfold owned
  rcases hsize with hsize | hnone
  · rw [hsize]
  · simp [hnone]

theorem owned_gained_of_ne {o : Option θ} (hnone : owner n j = none) (hi : some i ≠ o) (m : Nat) :
    owned M (gained owner i n j) m o = owned M owner m o := by
  refine Finset.filter_congr fun l _ => ?_
  by_cases hself : n = m ∧ j = l
  · obtain ⟨rfl, rfl⟩ := hself
    simp [gained, hnone, hi]
  · rw [gained, if_neg hself]

/-- A thread that finishes an entry owns one more. -/
theorem card_owned_gained (hj : j < M.size n) (hnone : owner n j = none) (m : Nat) :
    (owned M (gained owner i n j) m (some i)).card =
      (owned M owner m (some i)).card + if n = m then 1 else 0 := by
  by_cases hm : n = m
  · subst hm
    have hinsert : owned M (gained owner i n j) n (some i) =
        insert j (owned M owner n (some i)) := by
      ext l
      rw [Finset.mem_insert, owned, owned, Finset.mem_filter, Finset.mem_filter]
      by_cases hl : j = l
      · subst hl
        simp [gained, hj]
      · simp [gained, hl, Ne.symm hl]
    rw [hinsert, Finset.card_insert_of_notMem, if_pos rfl]
    simp [owned, hnone]
  · simp [owned, gained, hm]

/-- What a thread has counted belongs to nobody. -/
theorem owned_afterCount_none (m : Nat) :
    owned M (afterCount owner i) m none = owned M owner m none ∪ owned M owner m (some i) := by
  unfold owned
  rw [← Finset.filter_or]
  refine Finset.filter_congr fun l _ => ?_
  by_cases hl : owner m l = some (some i) <;> simp [afterCount, hl]

/-- Nobody owns what a thread owns. -/
theorem disjoint_owned (m : Nat) : Disjoint (owned M owner m none) (owned M owner m (some i)) := by
  refine Finset.disjoint_filter.mpr fun l _ hl => ?_
  rw [hl]
  simp

theorem owned_afterCount_self (m : Nat) : owned M (afterCount owner i) m (some i) = ∅ := by
  refine Finset.filter_eq_empty_iff.mpr fun l _ => ?_
  unfold afterCount
  split
  · simp
  next hl => exact hl

theorem owned_afterCount_of_ne {i' : θ} (hi : i' ≠ i) (m : Nat) :
    owned M (afterCount owner i) m (some i') = owned M owner m (some i') := by
  refine Finset.filter_congr fun l _ => ?_
  by_cases hl : owner m l = some (some i)
  · simp [afterCount, hl, Ne.symm hi]
  · rw [afterCount, if_neg hl]

/-- When all entries of a table have been counted, they have been copied. -/
theorem allCopied (h : Credit M pc owner) (hall : (M.tables n).numEntriesCopied = M.size n) :
    Shape.AllCopied M n := by
  intro j hj
  have hcard : (owned M owner n none).card = (Finset.range (M.size n)).card := by
    rw [h.counted, hall, Finset.card_range]
  have hmem : j ∈ owned M owner n none := by
    rw [owned, Finset.card_filter_eq_iff.mp hcard |> Finset.filter_true_of_mem]
    exact Finset.mem_range.mpr hj
  rcases h.done (Finset.mem_filter.mp hmem).2 with hdone | ⟨i, hi, -⟩
  · exact hdone
  · cases hi

/-- A step that copies no entry and counts none. -/
theorem move (h : Credit M pc owner) (hpc : pc i = p) (hcredits : ∀ n, p'.credits n = p.credits n)
    (hnot : ∀ n j, ¬ p'.Finishing n j) (hfinished : ∀ n j, p.Finishing n j → Done (M'.value n j))
    (hdone : ∀ n j, Done (M.value n j) → Done (M'.value n j))
    (hcopied : ∀ n, (M'.tables n).numEntriesCopied = (M.tables n).numEntriesCopied)
    (hsize : ∀ n, M'.size n = M.size n ∨ ∀ j, owner n j = none) :
    Credit M' (Function.update pc i p') owner where
  counted n := by rw [owned_congr (hsize n), h.counted, hcopied]
  held i' n := by
    rw [owned_congr (hsize n), h.held]
    by_cases hi : i' = i
    · rw [hi, Function.update_self, hcredits, hpc]
    · rw [Function.update_of_ne hi]
  done {n j o} ho := by
    rcases h.done ho with hd | ⟨i', rfl, hfinishing⟩
    · exact Or.inl (hdone n j hd)
    · by_cases hi : i' = i
      · rw [hi, hpc] at hfinishing
        exact Or.inl (hfinished n j hfinishing)
      · exact Or.inr ⟨i', rfl, by rwa [Function.update_of_ne hi]⟩
  finishing {i' n j} hfinishing := by
    by_cases hi : i' = i
    · rw [hi, Function.update_self] at hfinishing
      exact absurd hfinishing (hnot n j)
    · rw [Function.update_of_ne hi] at hfinishing
      exact h.finishing hfinishing

/-- A thread copies an entry. -/
theorem gain (h : Credit M pc owner) (hpc : pc i = p) (hj : j < M.size n)
    (hnone : owner n j = none)
    (hcredits : ∀ m, p'.credits m = p.credits m + if n = m then 1 else 0)
    (hnew : Done (M'.value n j) ∨ p'.Finishing n j)
    (hfinishing : ∀ m l, p'.Finishing m l → n = m ∧ j = l)
    (hnot : ∀ m l, ¬ p.Finishing m l)
    (hdone : ∀ m l, Done (M.value m l) → Done (M'.value m l))
    (hcopied : ∀ m, (M'.tables m).numEntriesCopied = (M.tables m).numEntriesCopied)
    (hsize : ∀ m, M'.size m = M.size m) :
    Credit M' (Function.update pc i p') (gained owner i n j) where
  counted m := by
    rw [owned_congr (Or.inl (hsize m)), owned_gained_of_ne hnone (by simp), h.counted, hcopied]
  held i' m := by
    rw [owned_congr (Or.inl (hsize m))]
    by_cases hi : i' = i
    · rw [hi, card_owned_gained hj hnone, h.held, Function.update_self, hcredits, hpc]
    · rw [owned_gained_of_ne hnone fun heq => hi (Option.some.inj heq).symm, h.held,
        Function.update_of_ne hi]
  done {m l o} ho := by
    rw [gained] at ho
    by_cases hself : n = m ∧ j = l
    · obtain ⟨rfl, rfl⟩ := hself
      rw [if_pos ⟨rfl, rfl⟩] at ho
      refine hnew.imp_right fun hfin => ⟨i, (Option.some.inj ho).symm, ?_⟩
      rwa [Function.update_self]
    · rw [if_neg hself] at ho
      rcases h.done ho with hd | ⟨i', rfl, hfin⟩
      · exact Or.inl (hdone m l hd)
      · refine Or.inr ⟨i', rfl, ?_⟩
        rwa [Function.update_of_ne]
        rintro rfl
        exact hnot m l (hpc ▸ hfin)
  finishing {i' m l} hfin := by
    by_cases hi : i' = i
    · subst hi
      rw [Function.update_self] at hfin
      rw [gained, if_pos (hfinishing m l hfin)]
    · rw [Function.update_of_ne hi] at hfin
      have howner := h.finishing hfin
      rw [gained, if_neg]
      · exact howner
      · rintro ⟨rfl, rfl⟩
        rw [hnone] at howner
        cases howner

/-- A thread counts the entries that it has copied. -/
theorem add (h : Credit M pc owner) (hpc : pc i = p) {numCopied : Nat}
    (hcredits : ∀ m, p.credits m = if n = m then numCopied else 0)
    (hnot : ∀ m l, ¬ p.Finishing m l) (hcredits' : ∀ m, p'.credits m = 0)
    (hnot' : ∀ m l, ¬ p'.Finishing m l) :
    Credit (M.addCopied n numCopied) (Function.update pc i p') (afterCount owner i) where
  counted m := by
    rw [owned_congr (Or.inl (Memory.size_addCopied M n numCopied m)), owned_afterCount_none,
      Finset.card_union_of_disjoint (disjoint_owned m), h.counted, h.held, hpc, hcredits,
      numEntriesCopied_addCopied]
    simp only [eq_comm]
  held i' m := by
    rw [owned_congr (Or.inl (Memory.size_addCopied M n numCopied m))]
    by_cases hi : i' = i
    · rw [hi, owned_afterCount_self, Finset.card_empty, Function.update_self, hcredits']
    · rw [owned_afterCount_of_ne hi, h.held, Function.update_of_ne hi]
  done {m l o} ho := by
    rw [afterCount] at ho
    rw [(Memory.sameEntries_addCopied M n numCopied).value]
    by_cases hl : owner m l = some (some i)
    · refine Or.inl ((h.done hl).resolve_right ?_)
      rintro ⟨i', hi', hfin⟩
      obtain rfl := Option.some.inj hi'
      exact hnot m l (hpc ▸ hfin)
    · rw [if_neg hl] at ho
      refine (h.done ho).imp_right ?_
      rintro ⟨i', rfl, hfin⟩
      refine ⟨i', rfl, ?_⟩
      rwa [Function.update_of_ne]
      rintro rfl
      exact hnot m l (hpc ▸ hfin)
  finishing {i' m l} hfin := by
    by_cases hi : i' = i
    · subst hi
      rw [Function.update_self] at hfin
      exact absurd hfin (hnot' m l)
    · rw [Function.update_of_ne hi] at hfin
      have howner := h.finishing hfin
      rw [afterCount, howner, if_neg]
      exact fun heq => hi (Option.some.inj (Option.some.inj heq))

/-- A step that changes nothing that is shared. -/
theorem stay (h : Credit M pc owner) (hpc : pc i = p) (hcredits : ∀ n, p'.credits n = p.credits n)
    (hnot : ∀ n j, ¬ p'.Finishing n j) (hnot' : ∀ n j, ¬ p.Finishing n j) :
    ∃ owner', Credit M (Function.update pc i p') owner' :=
  ⟨owner, h.move hpc hcredits hnot (fun n j hfin => absurd hfin (hnot' n j))
    (fun _ _ hdone => hdone) (fun _ => rfl) fun _ => Or.inl rfl⟩

/-- A step that writes a value and copies no entry. -/
theorem write (h : Credit M pc owner) (hpc : pc i = p) {v : Word}
    (hv : Done v ∨ ¬ Done (M.value n j)) (hcredits : ∀ n, p'.credits n = p.credits n)
    (hnot : ∀ n j, ¬ p'.Finishing n j)
    (hfinished : ∀ m l, p.Finishing m l → n = m ∧ j = l ∧ Done v) :
    ∃ owner', Credit (M.setValue n j v) (Function.update pc i p') owner' := by
  refine ⟨owner, h.move hpc hcredits hnot (fun m l hfin => ?_) (done_setValue hv)
    (numEntriesCopied_setValue M n j v)
    fun m => Or.inl (Memory.size_of_scale (Memory.scale_setValue M n j v m))⟩
  obtain ⟨rfl, rfl, hdone⟩ := hfinished m l hfin
  rwa [Memory.value_setValue, if_pos ⟨rfl, rfl⟩]

/-- A step that writes a key. -/
theorem writeKey (h : Credit M pc owner) (hpc : pc i = p) {k : K}
    (hcredits : ∀ n, p'.credits n = p.credits n) (hnot : ∀ n j, ¬ p'.Finishing n j)
    (hnot' : ∀ n j, ¬ p.Finishing n j) :
    ∃ owner', Credit (M.setKey n j k) (Function.update pc i p') owner' := by
  refine ⟨owner, h.move hpc hcredits hnot (fun n j hfin => absurd hfin (hnot' n j))
    (fun m l hdone => ?_) (numEntriesCopied_setTable (t := (M.tables n).setKey j k) rfl)
    fun m => Or.inl (Memory.size_of_scale (Memory.scale_setKey M n j k m))⟩
  rwa [Memory.value_setKey]

/-- A step that copies an entry. -/
theorem copy (h : Credit M pc owner) (hpc : pc i = p) {v : Word} {m l : Nat} (hj : j < M.size n)
    (hnone : owner n j = none)
    (hcredits : ∀ m, p'.credits m = p.credits m + if n = m then 1 else 0)
    (hnew : Done ((M.setValue m l v).value n j) ∨ p'.Finishing n j)
    (hfinishing : ∀ m l, p'.Finishing m l → n = m ∧ j = l)
    (hnot : ∀ m l, ¬ p.Finishing m l) (hv : ¬ Done (M.value m l)) :
    ∃ owner', Credit (M.setValue m l v) (Function.update pc i p') owner' :=
  ⟨_, h.gain hpc hj hnone hcredits hnew hfinishing hnot (done_setValue (Or.inr hv))
    (numEntriesCopied_setValue M m l v)
    fun m' => Memory.size_of_scale (Memory.scale_setValue M m l v m')⟩

end Credit

end

/-! ## The steps and the counts -/

variable [DecidableEq K]

section

variable {θ : Type} [DecidableEq θ] {hash : K → Word} {M M' : Memory K} {pc : θ → Pc K}
variable {since : θ → Nat} {owner : Nat → Nat → Option (Option θ)} {i : θ} {p p' : Pc K}
variable {n j : Nat}

namespace Credit

omit [DecidableEq θ] in
/-- What is known of the entry that a thread is about to give up. -/
theorem taken_of_finishing (hfacts : Facts hash M (since i) (pc i))
    (hfinishing : (pc i).Finishing n j) :
    ∃ e w k, e.source = n ∧ e.entry = j ∧ Taken hash M e w k ∧ M.Written hash n k := by
  unfold Pc.Finishing at hfinishing
  split at hfinishing
  next c caller e hpc =>
    obtain ⟨rfl, rfl⟩ := hfinishing
    rw [hpc] at hfacts
    obtain ⟨-, -, w, k, htaken, hwritten⟩ := hfacts
    exact ⟨e, w, k, rfl, rfl, htaken, hwritten⟩
  next => exact hfinishing.elim

/-- An entry whose value is not tagged has no owner. -/
theorem owner_of_not_isTagged (h : Credit M pc owner)
    (hfacts : ∀ i, Facts hash M (since i) (pc i)) (huntagged : ¬ isTagged (M.value n j)) :
    owner n j = none := by
  cases howner : owner n j with
  | none => rfl
  | some o =>
      rcases h.done howner with hdone | ⟨i, -, hfinishing⟩
      · exact absurd hdone.isTagged huntagged
      · obtain ⟨e, w, k, rfl, rfl, htaken, -⟩ := taken_of_finishing (hfacts i) hfinishing
        rcases htaken.marked with hvalue | ⟨hvalue, -⟩ <;> rw [hvalue] at huntagged
        · exact absurd (isTagged_tagValue w) huntagged
        · exact absurd done_copiedValue.isTagged huntagged

/-- An entry whose value has been marked and not yet stored has no owner. -/
theorem owner_of_not_written (h : Credit M pc owner)
    (hfacts : ∀ i, Facts hash M (since i) (pc i)) {k : K} {w : Word} (hk : M.key n j = some k)
    (hw : Copiable w) (hvalue : M.value n j = tagValue w) (hnot : ¬ M.Written hash n k) :
    owner n j = none := by
  cases howner : owner n j with
  | none => rfl
  | some o =>
      rcases h.done howner with hdone | ⟨i, -, hfinishing⟩
      · exact absurd (hvalue ▸ hdone) hw.not_done_tagValue
      · obtain ⟨e, w', k', rfl, rfl, htaken, hwritten⟩ := taken_of_finishing (hfacts i) hfinishing
        obtain rfl : k = k' := Option.some.inj (hk.symm.trans htaken.key)
        exact absurd hwritten hnot

/-- A step that makes a table. -/
theorem grow (h : Credit M pc owner) (hM : Shape hash M)
    (hfacts : ∀ i, Facts hash M (since i) (pc i)) (hpc : pc i = p) {scale : Nat}
    {minScale : 4 ≤ scale} (hcredits : ∀ n, p'.credits n = p.credits n)
    (hnot : ∀ n j, ¬ p'.Finishing n j) (hnot' : ∀ n j, ¬ p.Finishing n j) :
    ∃ owner', Credit (M.grow scale minScale) (Function.update pc i p') owner' := by
  have hnone : ∀ j, owner (M.last + 1) j = none := fun j =>
    h.owner_of_not_isTagged hfacts (by
      rw [(hM.unmade (Nat.lt_succ_self _) j).2]
      decide)
  refine ⟨owner, h.move hpc hcredits hnot (fun n j hfin => absurd hfin (hnot' n j))
    (fun m l hdone => ?_) (fun m => ?_) fun m => ?_⟩
  · rwa [hM.value_grow]
  · show (Function.update M.tables (M.last + 1) (.new scale minScale) m).numEntriesCopied = _
    by_cases hm : m = M.last + 1
    · subst hm
      rw [Function.update_self, ← h.counted]
      simp [owned, hnone, Implementation.new]
    · rw [Function.update_of_ne hm]
  · by_cases hm : m = M.last + 1
    · exact Or.inr (hm ▸ hnone)
    · refine Or.inl (Memory.size_of_scale ?_)
      show (Function.update M.tables (M.last + 1) (.new scale minScale) m).scale = _
      rw [Function.update_of_ne hm]

/-- An entry that has no value to store elsewhere is given up. -/
theorem giveUp {c : Call K} {caller : Caller} {e : Copying} (h : Credit M pc owner)
    (hfacts : ∀ i, Facts hash M (since i) (pc i)) (hpc : pc i = p)
    (hentry : e.entry < M.size e.source) (huntagged : ¬ isTagged (M.value e.source e.entry))
    {v : Word} (hv : Done v)
    (hcredits : ∀ n, p.credits n = if e.source = n then caller.numCopied else 0)
    (hnot : ∀ n j, ¬ p.Finishing n j) :
    ∃ owner', Credit (M.setValue e.source e.entry v)
      (Function.update pc i (M.resume hash c caller e.source true)) owner' := by
  refine h.copy hpc hentry (h.owner_of_not_isTagged hfacts huntagged) (fun m => ?_) (Or.inl ?_)
    (fun m l hfin => absurd hfin (Pc.not_finishing_resume M hash c caller e.source true m l))
    hnot fun hdone => huntagged hdone.isTagged
  · rw [Pc.credits_resume, hcredits, Bool.toNat_true]
    split <;> rfl
  · rwa [Memory.value_setValue, if_pos ⟨rfl, rfl⟩]

end Credit

/-- The entry copied lies inside its table. -/
theorem CallerFacts.entry_lt {c : Call K} {e : Copying} {caller : Caller} (hM : Shape hash M)
    (h : CallerFacts M c e caller) : e.entry < M.size e.source := by
  cases caller with
  | call => exact hM.key_lt_size h
  | help entries numCopied => exact h.2.1

/-- The counts after a step in {lit}`copyEntry`. -/
theorem Credit.of_copyNext {c : Call K} {caller : Caller} {e : Copying} {p : CopyPc K}
    (h : Credit M pc owner) (hM : Shape hash M) (hfacts : ∀ i, Facts hash M (since i) (pc i))
    (hpc : pc i = .copy c caller e p) (hstep : CopyNext hash M c caller e p M' p') :
    ∃ owner', Credit M' (Function.update pc i p') owner' := by
  have hi := hfacts i
  rw [hpc] at hi
  obtain ⟨-, hcaller, hcopy⟩ := hi
  have hentry := CallerFacts.entry_lt hM hcaller
  cases hstep with
  | copied _ | tagDone _ =>
      refine h.stay hpc (fun n => ?_) (Pc.not_finishing_resume M hash c caller e.source false)
        fun _ _ => not_false
      rw [Pc.credits_resume]
      rfl
  | putCopied hnull =>
      refine h.giveUp hfacts hpc hentry ?_ done_copiedValue (fun _ => rfl) fun _ _ => not_false
      rw [hnull]
      decide
  | tagTombStone htomb =>
      refine h.giveUp hfacts hpc hentry ?_ (Or.inr rfl) (fun _ => rfl) fun _ _ => not_false
      rw [htomb]
      decide
  | tag hvalue hnot _ =>
      subst hvalue
      exact h.write hpc (Or.inr hnot) (fun _ => rfl) (fun _ _ => not_false) fun _ _ => False.elim
  | startCopy minScale _ _ =>
      exact h.grow hM hfacts hpc (fun _ => rfl) (fun _ _ => not_false) fun _ _ => not_false
  | putKey _ =>
      exact h.writeKey hpc (fun _ => rfl) (fun _ _ => not_false) fun _ _ => not_false
  | @putValue entVal k j hnull =>
      obtain ⟨htaken, hj⟩ := hcopy
      have hnot := htaken.not_written hM (hM.not_full_of_key hj) fun i hi => by
        rwa [← hM.eq_of_key hj hi]
      have hvalue := htaken.marked.resolve_right fun hcopied => hnot hcopied.2
      refine h.copy hpc hentry
        (h.owner_of_not_written hfacts htaken.key htaken.copiable hvalue hnot) (fun m => ?_)
        (Or.inr ⟨rfl, rfl⟩) (fun _ _ hfin => hfin) (fun _ _ => not_false) ?_
      · simp only [Pc.credits, Bool.toNat_true]
        split <;> rfl
      · rw [hnull]
        exact not_done_doesNotExist
  | @finish did =>
      refine h.write hpc (Or.inl done_copiedValue) (fun n => ?_)
        (Pc.not_finishing_resume M hash c caller e.source did) fun m l hfin => ?_
      · rw [Pc.credits_resume]
        rfl
      · cases did with
        | false => exact hfin.elim
        | true => exact ⟨hfin.1, hfin.2, done_copiedValue⟩
  | noValue _ | someValue _ _ | putCopiedFails _ | readKey _ | searchOther _ _ | searchFound _
  | searchEmpty _ | searchFull | fullNext _ | fullLast _ | startCopyFails _ | putKeyFails _
  | putValueCopied _ _ | putValueFails _ _ =>
      exact h.stay hpc (fun _ => rfl) (fun _ _ => not_false) fun _ _ => not_false

/-- The counts after a step. -/
theorem Credit.of_next {p : Pc K} (h : Credit M pc owner) (hM : Shape hash M)
    (hfacts : ∀ i, Facts hash M (since i) (pc i)) (hpc : pc i = p)
    (hstep : Next hash M p M' p') : ∃ owner', Credit M' (Function.update pc i p') owner' := by
  cases hstep with
  | chunk _ | panic | valueTagged _ _ =>
      exact h.stay hpc (fun _ => ite_self 0) (fun _ _ => not_false) fun _ _ => not_false
  | noneCopied =>
      exact h.stay hpc (fun _ => (ite_self 0).symm) (fun _ _ => not_false) fun _ _ => not_false
  | someCopied _ | lastCopied _ | addCopied =>
      exact ⟨_, h.add hpc (fun _ => rfl) (fun _ _ => not_false) (fun _ => rfl)
        fun _ _ => not_false⟩
  | unlink _ =>
      exact ⟨owner, h.move hpc (fun _ => rfl) (fun _ _ => not_false) (fun _ _ => False.elim)
        (fun _ _ hdone => hdone) (fun _ => rfl) fun _ => Or.inl rfl⟩
  | startCopy minScale _ _ =>
      exact h.grow hM hfacts hpc (fun _ => rfl) (fun _ _ => not_false) fun _ _ => not_false
  | putKey _ =>
      exact h.writeKey hpc (fun _ => rfl) (fun _ _ => not_false) fun _ _ => not_false
  | @putValue c n l entVal newVal hvalue =>
      have hi := hfacts i
      rw [hpc] at hi
      obtain ⟨-, -, huntagged, -⟩ := hi
      have hv : ¬ Done (M.value n l) := fun hdone => huntagged (hvalue ▸ hdone.isTagged)
      obtain ⟨owner', hcredit⟩ : ∃ owner',
          Credit (M.setValue n l newVal) (Function.update pc i .idle) owner' :=
        h.write hpc (Or.inr hv) (fun _ => rfl) (fun _ _ => not_false) fun _ _ => False.elim
      exact ⟨owner', hcredit.counted, hcredit.held, hcredit.done, hcredit.finishing⟩
  | copy hcopy => exact h.of_copyNext hM hfacts hpc hcopy
  | noNext _ | hasNext _ | allCopied _ | someLeft _ | help | unlinkFails _ | searchOther _ _
  | searchFound _ | searchEmpty _ _ | searchAbsent _ _ | searchFull | fullNext _ | fullAbsent _ _
  | fullLast _ _ | startCopyFails _ | putKeyFails _ | valueDone _
  | keepValue _ _ | swapValue _ _ | putValueFails _ =>
      exact h.stay hpc (fun _ => rfl) (fun _ _ => not_false) fun _ _ => not_false

end

/-! ## All threads -/

section

variable {θ : Type} [DecidableEq θ] {hash : K → Word} {calls : Set (Call K)}
variable {s s' : SharedTables K θ} {action : Action K θ}

/-- What holds in every reachable state. -/
structure Invariant (hash : K → Word) (s : SharedTables K θ) : Prop where
  shape : Shape hash s.memory
  represents : s.memory.Represents hash
  facts : ∀ i, Facts hash s.memory (s.since i) (s.pc i)
  credit : ∃ owner, Credit s.memory s.pc owner
  answered : ∀ a ∈ s.answered, (mapMachine K).During (fun _ => doesNotExist) s.memory.updates
    a.since a.till fun m => callMap m a.call = (a.answer, m)

theorem Invariant.initial : Invariant hash ({} : SharedTables K θ) where
  shape := .initial
  represents := ⟨fun _ => doesNotExist, .nil _, Shape.contents_initial⟩
  facts _ := trivial
  credit := by
    refine ⟨fun _ _ => none, ?_, fun i n => ?_, fun h => ?_, fun h => h.elim⟩
    · intro n
      simp [owned, Tables.new, Implementation.new]
    · simp [owned, Pc.credits]
    · cases h
  answered _ ha := absurd ha List.not_mem_nil

/-- A call begins. -/
theorem facts_start {M : Memory K} {c : Call K} (hc : Keeps c) (hM : Shape hash M) :
    Facts hash M M.updates.length (M.start hash c) := by
  have hat : At hash M M.updates.length c M.impl :=
    ⟨hc, hM.impl_le, le_rfl, fun hj hjn => absurd hj (Nat.not_le.mpr hjn),
      fun hnj hj => absurd hnj (Nat.not_le.mpr hj)⟩
  cases c with
  | get k | remove k => exact hat.facts_enter
  | compareAndSwap k expectedVal newVal accepted => exact ⟨hat, le_rfl⟩

theorem Invariant.step (hcalls : ∀ c ∈ calls, Keeps c) (h : Invariant hash s)
    (hstep : Step hash calls s action s') : Invariant hash s' := by
  obtain ⟨owner, hcredit⟩ := h.credit
  cases hstep with
  | @call i c hpc hc =>
      refine ⟨h.shape, h.represents, fun i' => ?_, ?_, h.answered⟩
      · by_cases hi : i' = i
        · subst hi
          simp only [Function.update_self]
          exact facts_start (hcalls c hc) h.shape
        · simp only [Function.update_of_ne hi]
          exact h.facts i'
      · cases c <;>
          exact hcredit.stay hpc (fun _ => rfl) (fun _ _ => not_false) fun _ _ => not_false
  | @next i M' p' hnext =>
      obtain ⟨owner', hcredit'⟩ := hcredit.of_next h.shape h.facts rfl hnext
      obtain ⟨hshape, hrepresents, hlater, hfacts⟩ :=
        hnext.stepped h.shape h.represents (fun n hall => hcredit'.allCopied hall) (h.facts i)
      refine ⟨hshape, hrepresents, fun i' => ?_, ⟨owner', hcredit'⟩, fun a ha => ?_⟩
      · by_cases hi : i' = i
        · subst hi
          simp only [Function.update_self]
          exact hfacts
        · simp only [Function.update_of_ne hi]
          exact (h.facts i').later h.shape hshape hlater
      · obtain ⟨more, hmore⟩ := hlater.updates
        have hduring := h.answered a ha
        simp only [hmore]
        refine hduring.append more le_rfl (hduring.1.trans ?_)
        rw [List.length_append]
        exact Nat.le_add_right _ _
  | @returns i c answer hpc =>
      refine ⟨h.shape, h.represents, fun i' => ?_, ?_, fun a ha => ?_⟩
      · by_cases hi : i' = i
        · subst hi
          simp only [Function.update_self]
          trivial
        · simp only [Function.update_of_ne hi]
          exact h.facts i'
      · exact hcredit.stay hpc (fun _ => rfl) (fun _ _ => not_false) fun _ _ => not_false
      · rcases List.mem_append.mp ha with ha | ha
        · exact h.answered a ha
        · rw [List.mem_singleton.mp ha]
          have hfacts := h.facts i
          rw [hpc] at hfacts
          exact hfacts

/-- Whatever the interleaving, and however the table grows meanwhile: the calls that have changed a
value answer as those of a map, in this order, and the tables stand for this map.  Every other call
answers as it would have after some number of these changes, no fewer than there were when it began
and no more than when it returned. -/
theorem calls_linearize (hcalls : ∀ c ∈ calls, Keeps c)
    (h : (system θ hash calls).Reachable s) :
    (∃ m, (mapMachine K).Trace (fun _ => doesNotExist) s.memory.updates m ∧
      s.memory.Contents hash m) ∧
    ∀ a ∈ s.answered, (mapMachine K).During (fun _ => doesNotExist) s.memory.updates
      a.since a.till fun m => callMap m a.call = (a.answer, m) := by
  have hs : Invariant hash s :=
    h.invariant (P := Invariant hash) (fun _ hinit => hinit ▸ Invariant.initial)
      fun _ _ _ hs hstep => hs.step hcalls hstep
  exact ⟨hs.represents, hs.answered⟩

theorem accepted_eight :
    ¬ isTagged (8 : Word) ∧ (8 : Word) ≠ doesNotExist ∧ (8 : Word) ≠ tombStone := by
  decide

/-- A call that stores a value of a key that has none. -/
def insertCall : Call Word :=
  .compareAndSwap 0 CasExpect.doesNotExist 8 accepted_eight

/-- A {lit}`get` that began before the key has its value, and returns after that. -/
theorem calls_linearize_race :
    ∃ s : SharedTables Word Bool,
      s.memory.updates = [(insertCall, doesNotExist)] ∧
      s.answered = [⟨.get 0, doesNotExist, 0, 1⟩] ∧
      ∀ a ∈ s.answered, (mapMachine Word).During (fun _ => doesNotExist) s.memory.updates
        a.since a.till fun m => callMap m a.call = (a.answer, m) := by
  have hnew : (system Bool id {insertCall, .get 0}).Reachable {} := .init rfl
  have hfound := (((hnew.step (.call (i := true) (c := insertCall) rfl (Or.inl rfl))).step
    (.next (i := true) (.noNext rfl))).step
    (.next (i := true) (.searchEmpty rfl ⟨_, rfl, by decide, by decide⟩))).step
    (.next (i := true) (.putKey rfl))
  have hread := (hfound.step
    (.next (i := true) (.swapValue (by decide)
      (by decide : insertCall.written doesNotExist = some 8)))).step
    (.call (i := false) (c := .get 0) rfl (Or.inr rfl))
  have hkept := (hread.step (.next (i := false) (.searchFound rfl))).step
    (.next (i := false) (.keepValue (by decide) rfl))
  have hend := (hkept.step (.next (i := true) (.putValue rfl))).step
    (.returns (i := false) (c := .get 0) rfl)
  have hkeeps : ∀ c ∈ ({insertCall, .get 0} : Set (Call Word)), Keeps c := by
    rintro c (rfl | rfl)
    · exact ⟨by decide, by decide⟩
    · trivial
  exact ⟨_, rfl, rfl, (calls_linearize hkeeps hend).2⟩

end

end SharedTables
end Lockfree
end OFlux
