import OFlux.Lockfree.AtomicMaps

/-!
# Collecting the atomics of the unordered atomic map

{lit}`AtomicMapUnordered::garbage_collect` swaps the atomic of a key for a shared tombstone,
removes the key and deletes the atomic; where the atomic has come into use in the meantime, it
puts the atomic back.  Any number of threads call it and {lit}`get` here, with any keys, and
take turns at every operation of the hash table and at every check.

Main results:

- Theorem {lit}`Invariant.step`: while every swap finds its own atomic or none and every
  insertion finds none, each tombstone belongs to one call.
- Theorem {lit}`garbageCollect_safe_and_truthful`: when collection is safe, and that its result
  is right only where nothing is collected.
-/

namespace OFlux
namespace Lockfree

namespace HashTable

open HashTableConstants

variable {K : Type} [DecidableEq K] (table : HashTable K) (k : K)

/-- {lit}`remove` writes the absent value over any other one. -/
def remove : Word × HashTable K :=
  table.compareAndSwap k CasExpect.whatever doesNotExist

/-- What {lit}`remove` makes of a slot. -/
theorem Slot.compareAndSwap_remove (slot : Slot) :
    oldValue (slot.compareAndSwap CasExpect.whatever doesNotExist).1 = slot.get ∧
      (slot.compareAndSwap CasExpect.whatever doesNotExist).2.get = doesNotExist := by
  cases slot with
  | none => exact ⟨rfl, rfl⟩
  | some entVal =>
      by_cases htomb : entVal = tombStone
      · subst htomb
        exact ⟨rfl, rfl⟩
      · by_cases hnull : entVal = doesNotExist
        · subst hnull
          exact ⟨rfl, rfl⟩
        · simp [Slot.compareAndSwap, Slot.swapValue, Slot.get, oldValue, htomb, hnull]

/-- A look-up after one binding was written. -/
theorem get_update {v : Word} (hv : Storable v) (k' : K) :
    HashTable.get (Function.update table k (some v)) k' = if k' = k then v else table.get k' := by
  by_cases hk : k' = k
  · rw [hk, if_pos rfl]
    exact get_update_self table k hv
  · rw [if_neg hk, get, Function.update_of_ne hk]
    rfl

/-- A removal returns what the look-up would have found. -/
theorem remove_fst : (table.remove k).1 = table.get k :=
  (Slot.compareAndSwap_remove (table k)).1

/-- A removal touches no other key. -/
theorem get_remove (k' : K) :
    (table.remove k).2.get k' = if k' = k then doesNotExist else table.get k' := by
  by_cases hk : k' = k
  · rw [hk, if_pos rfl]
    simp only [remove, compareAndSwap, get, Function.update_self]
    exact (Slot.compareAndSwap_remove (table k)).2
  · rw [if_neg hk]
    simp [remove, compareAndSwap, get, Function.update_of_ne hk]

end HashTable

namespace AtomicMapUnordered

open Library HashTableConstants HashTable

/-- An address differs from every word that is not aligned. -/
theorem IsAddress.ne_of_not_aligned {a w : Word} (ha : IsAddress a) (hw : w.toNat % 8 ≠ 0) :
    a ≠ w := by
  rintro rfl
  exact hw ha.2

/-- With an address as the expected value, that address is replaced and nothing else. -/
theorem compareAndSwap_address {K : Type} [DecidableEq K] (table : HashTable K) (k : K)
    {a v : Word} (ha : IsAddress a) (hv : IsAddress v) (hne : v ≠ a) :
    table.compareAndSwap k a v =
      if table.get k = a then (a, Function.update table k (some v)) else (table.get k, table) := by
  have hwhatever : a ≠ CasExpect.whatever := ha.1
  have hexists : a ≠ CasExpect.exists_ := ha.ne_of_not_aligned (by decide)
  have hexpect : a ≠ CasExpect.doesNotExist := ha.ne_of_not_aligned (by decide)
  have hnull : a ≠ doesNotExist := ha.1
  have hkeep : ∀ slot, table k = slot → Function.update table k slot = table := by
    rintro slot rfl
    exact Function.update_eq_self k table
  unfold HashTable.compareAndSwap HashTable.get
  cases hslot : table k with
  | none =>
      rw [if_neg (show Slot.get none ≠ a from hnull.symm)]
      simp only [Slot.compareAndSwap, ne_eq, hexpect, hwhatever, not_false_eq_true, and_self,
        if_true, hkeep none hslot]
      rfl
  | some entVal =>
      by_cases hval : entVal = a
      · subst hval
        have htomb : entVal ≠ tombStone := ha.storable.2
        have hnew : v ≠ doesNotExist := hv.1
        have hswap : Slot.swapValue entVal entVal v = (entVal, some v) := by
          simp [Slot.swapValue, hnew, hne.symm]
        simp [Slot.compareAndSwap, hswap, Slot.get, oldValue, htomb]
      · have hstay : Slot.swapValue entVal a v = (entVal, some entVal) := by
          unfold Slot.swapValue
          refine if_pos ⟨hwhatever, Ne.symm hval, ?_⟩
          split
          · exact hexists
          · exact hexpect
        have hother : Slot.get (some entVal) ≠ a := by
          by_cases htomb : entVal = tombStone
          · exact (if_pos htomb).trans_ne hnull.symm
          · exact (if_neg htomb).trans_ne hval
        rw [if_neg hother]
        simp only [Slot.compareAndSwap, hstay, hkeep _ hslot]
        rfl

namespace Collection

/-! ## Calls and their steps -/

/-- Where a thread stands in its call; behind the swap a call of {lit}`garbage_collect` has
what the swap returned. -/
inductive ThreadPc (K : Type) where
  | idle
  | getting (k : K) (pc : Pc)
  | firstCheck (k : K) (atomic : Word)
  | swap (k : K) (atomic : Word)
  | secondCheck (k : K) (atomic prior : Word)
  | remove (k : K) (atomic prior : Word)
  | putBack (k : K) (atomic prior : Word)

/-- A deletion: what was in the table when the key was removed, and whether it was the tombstone
that the swap of this call had written. -/
structure Collected (K : Type) where
  key : K
  atomic : Word
  taken : Word
  takenOwn : Bool

/-- A call of {lit}`garbage_collect` that has returned: whether it removed the binding. -/
structure Returned (K : Type) where
  key : K
  atomic : Word
  removed : Bool
  result : Bool

/-- The table of atomics, the atomics allocated, and where each thread stands. -/
structure State (K : Type) where
  table : HashTable K
  allocated : List Word
  /-- The hash of the key that each thread looked up last. -/
  threadKHashes : Nat → Nat
  /-- How many events hold an atomic or wait for it. -/
  uses : Word → Nat
  /-- The thread whose swap wrote the value that a key has, where a swap for the tombstone did. -/
  marker : K → Option Nat
  pc : Nat → ThreadPc K
  collected : List (Collected K)
  returned : List (Returned K)

/-- One step of a thread, or a change of how many events use an atomic. -/
inductive Action (K : Type) where
  | use (atomic : Word) (n : Nat)
  | start (thread : Nat)
  | check (thread : Nat)
  | lookUp (thread : Nat)
  | insert (thread : Nat) (k : K)
  | swap (thread : Nat) (k : K) (atomic : Word)
  | remove (thread : Nat)
  | putBack (thread : Nat)
  | finish (thread : Nat)

section Steps

variable {K : Type} [DecidableEq K] (s : State K) (i : Nat)

/-- Moves thread `i` to its next step. -/
def State.setPc (pc : ThreadPc K) : State K :=
  { s with pc := Function.update s.pc i pc }

/-- The thread leaves {lit}`garbage_collect`, whose result is never set to true. -/
def State.return (k : K) (a : Word) (removed : Bool) : State K where
  table := s.table
  allocated := s.allocated
  threadKHashes := s.threadKHashes
  uses := s.uses
  marker := s.marker
  pc := Function.update s.pc i .idle
  collected := s.collected
  returned := { key := k, atomic := a, removed, result := false } :: s.returned

/-- A value has been written for the key: the mark of a thread, or an atomic or none. -/
def State.write (k : K) (table : HashTable K) (mark : Option Nat) : State K :=
  { s with table, marker := Function.update s.marker k mark }

/-- The swap of the atomic for the tombstone.  What the operation returns is the prior value,
and any such value counts as success. -/
def State.swap (tombstone : Word) (k : K) (a : Word) : State K :=
  let (prior, table) := s.table.compareAndSwap k a tombstone
  let s := if prior = a then s.write k table (some i) else { s with table }
  if prior = doesNotExist then s.return i k a false else s.setPc i (.secondCheck k a prior)

/-- The key is removed, and the atomic deleted.  The mark is the call's own if its swap has
replaced the atomic and nothing was written since. -/
def State.remove (k : K) (a prior : Word) : State K :=
  let (taken, table) := s.table.remove k
  let takenOwn := decide (prior = a ∧ s.marker k = some i)
  let entry := { key := k, atomic := a, taken, takenOwn : Collected K }
  ({ s.write k table none with collected := entry :: s.collected }).return i k a (prior = a)

/-- The atomic is returned to the table. -/
def State.putBack (tombstone : Word) (k : K) (a : Word) : State K :=
  let (prior, table) := s.table.compareAndSwap k tombstone a
  let s := if prior = tombstone then s.write k table none else { s with table }
  s.return i k a false

/-- A call of {lit}`get` inserts its new atomic. -/
def State.insert (k : K) (newAtomic : Word) : State K :=
  let (prior, table) := s.table.compareAndSwap k doesNotExist newAtomic
  let s := { s.write k table none with allocated := newAtomic :: s.allocated }
  s.setPc i (.getting k (afterInsert newAtomic prior))

variable (hash : K → Nat) (numThreads : Nat) (tombstone : Word)

/-- Some thread last looked up a key of this hash. -/
def kHashUsed (kHash : Nat) : Bool :=
  (List.range numThreads).any fun j => s.threadKHashes j = kHash

/-- The check that is made before the swap and again behind it. -/
def unused (k : K) (a : Word) : Bool :=
  s.uses a = 0 && !kHashUsed s numThreads (hash k)

/-- One operation of one thread, or a change of the uses of an atomic by events. -/
inductive Step : Action K → State K → Prop where
  | use {a : Word} {n : Nat} :
      Step (.use a n) { s with uses := Function.update s.uses a n }
  | startGet {i : Nat} {k : K} :
      i < numThreads → s.pc i = .idle →
      Step (.start i) { s.setPc i (.getting k .lookUp) with
        threadKHashes := Function.update s.threadKHashes i (hash k) }
  | startCollect {i : Nat} {k : K} {a : Word} :
      i < numThreads → s.pc i = .idle → a ∈ s.allocated → a ≠ tombstone →
      Step (.start i) (s.setPc i (.firstCheck k a))
  | lookUp {i : Nat} {k : K} :
      s.pc i = .getting k .lookUp →
      Step (.lookUp i) (s.setPc i (.getting k (afterLookUp tombstone (s.table.get k))))
  | insert {i : Nat} {k : K} {newAtomic : Word} :
      s.pc i = .getting k .insert → IsAddress newAtomic → newAtomic ∉ s.allocated →
      Step (.insert i k) (s.insert i k newAtomic)
  | lookUpAgain {i : Nat} {k : K} :
      s.pc i = .getting k .lookUpAgain →
      Step (.lookUp i) (s.setPc i (.getting k (.persistentKey (s.table.get k))))
  | finish {i : Nat} {k : K} {a : Word} :
      s.pc i = .getting k (.persistentKey a) → s.table.getPersistentKey k ≠ none →
      Step (.finish i) (s.setPc i .idle)
  | firstCheck {i : Nat} {k : K} {a : Word} :
      s.pc i = .firstCheck k a → unused s hash numThreads k a = true →
      Step (.check i) (s.setPc i (.swap k a))
  | firstCheckFails {i : Nat} {k : K} {a : Word} :
      s.pc i = .firstCheck k a → unused s hash numThreads k a = false →
      Step (.check i) (s.return i k a false)
  | swap {i : Nat} {k : K} {a : Word} :
      s.pc i = .swap k a → Step (.swap i k a) (s.swap i tombstone k a)
  | secondCheck {i : Nat} {k : K} {a prior : Word} :
      s.pc i = .secondCheck k a prior → unused s hash numThreads k a = true →
      Step (.check i) (s.setPc i (.remove k a prior))
  | secondCheckFails {i : Nat} {k : K} {a prior : Word} :
      s.pc i = .secondCheck k a prior → unused s hash numThreads k a = false →
      Step (.check i) (s.setPc i (.putBack k a prior))
  | remove {i : Nat} {k : K} {a prior : Word} :
      s.pc i = .remove k a prior → Step (.remove i) (s.remove i k a prior)
  | putBack {i : Nat} {k : K} {a prior : Word} :
      s.pc i = .putBack k a prior → Step (.putBack i) (s.putBack i tombstone k a)

end Steps

variable {K : Type} {hash : K → Nat} {numThreads : Nat} {tombstone : Word}

/-- A new map, and threads that are in no call yet. -/
def Initial (tombstone : Word) (s : State K) : Prop :=
  (∀ k, s.table k = none) ∧ s.allocated = [tombstone] ∧ (∀ i, s.pc i = .idle) ∧
    s.collected = [] ∧ s.returned = []

/-- The threads over the shared table, one access a step. -/
def system (K : Type) [DecidableEq K] (hash : K → Nat) (numThreads : Nat) (tombstone : Word) :
    TransitionSystem (State K) (Action K) where
  init := Initial tombstone
  step s := Step s hash numThreads tombstone

/-! ## What is expected of collection -/

/-- No atomic is deleted twice, nor while the table has it, and the removal takes away nothing
but the tombstone that its own call has put into the table. -/
structure Safe (s : State K) : Prop where
  once : (s.collected.map Collected.atomic).Nodup
  unbound : ∀ c ∈ s.collected, s.table.get c.key ≠ c.atomic
  ownMark : ∀ c ∈ s.collected, c.taken = doesNotExist ∨ c.takenOwn = true

/-- The result says whether the call removed the binding. -/
def Truthful (s : State K) : Prop :=
  ∀ r ∈ s.returned, r.result = true ↔ r.removed = true

/-- The operation does not remove a key. -/
def RemovesNothing (_ : State K) : Action K → State K → Prop
  | .remove _, _ => False
  | _, _ => True

/-- A swap finds its own atomic or none, and an insertion finds none. -/
def FindsOwn (s : State K) : Action K → State K → Prop
  | .swap _ k a, _ => s.table.get k = a ∨ s.table.get k = doesNotExist
  | .insert _ k, _ => s.table.get k = doesNotExist
  | _, _ => True

/-! ## Marks -/

/-- The key that a call has marked with the tombstone, its atomic, and what the swap returned. -/
def ThreadPc.mark : ThreadPc K → Option (K × Word × Word)
  | .secondCheck k a prior => some (k, a, prior)
  | .remove k a prior => some (k, a, prior)
  | .putBack k a prior => some (k, a, prior)
  | _ => none

/-- The atomic that a call is about to swap. -/
def ThreadPc.target : ThreadPc K → Option Word
  | .firstCheck _ a => some a
  | .swap _ a => some a
  | _ => none

/-- What holds of a mark: it is the tombstone in the table, which the call has written, and
the atomic is nowhere in the table and not deleted. -/
structure Marked (tombstone : Word) (s : State K) (i : Nat) (k : K) (a prior : Word) : Prop where
  prior_eq : prior = a
  value : s.table.get k = tombstone
  marker : s.marker k = some i
  allocated : a ∈ s.allocated
  ne_tombstone : a ≠ tombstone
  unbound : ∀ k', s.table.get k' ≠ a
  not_collected : a ∉ s.collected.map Collected.atomic

/-- The table maps keys to distinct allocated atomics, and each thread knows what its step needs. -/
structure Invariant (tombstone : Word) (s : State K) : Prop where
  tombstone_mem : tombstone ∈ s.allocated
  addresses : ∀ a ∈ s.allocated, IsAddress a
  value : ∀ k, s.table.get k = doesNotExist ∨ s.table.get k ∈ s.allocated
  injective : ∀ k k', s.table.get k = s.table.get k' → s.table.get k ≠ doesNotExist →
    s.table.get k ≠ tombstone → k = k'
  target : ∀ i a, (s.pc i).target = some a → a ∈ s.allocated ∧ a ≠ tombstone
  mark : ∀ i k a prior, (s.pc i).mark = some (k, a, prior) → Marked tombstone s i k a prior
  mark_injective : ∀ i j k k' a prior prior', (s.pc i).mark = some (k, a, prior) →
    (s.pc j).mark = some (k', a, prior') → i = j
  collected_mem : ∀ c ∈ s.collected, c.atomic ∈ s.allocated ∧ c.atomic ≠ tombstone
  collected_unbound : ∀ c ∈ s.collected, ∀ k, s.table.get k ≠ c.atomic
  collected_nodup : (s.collected.map Collected.atomic).Nodup
  collected_own : ∀ c ∈ s.collected, c.takenOwn = true

/-- Under the invariant no atomic is bound or deleted twice. -/
theorem Invariant.safe {s : State K} (h : Invariant tombstone s) : Safe s where
  once := h.collected_nodup
  unbound c hc := h.collected_unbound c hc c.key
  ownMark c hc := Or.inr (h.collected_own c hc)

theorem get_eq_of_initial {s : State K} (h : Initial tombstone s) (k : K) :
    s.table.get k = doesNotExist := by
  simp [HashTable.get, h.1, Slot.get]

theorem invariant_of_initial (htombstone : IsAddress tombstone) {s : State K}
    (h : Initial tombstone s) : Invariant tombstone s := by
  have hget := get_eq_of_initial h
  obtain ⟨-, hallocated, hpc, hcollected, -⟩ := h
  constructor <;> simp_all [ThreadPc.target, ThreadPc.mark]

/-! ## Steps of a call -/

/-- Only thread `i` moves. -/
theorem setPc_pc (s : State K) (i j : Nat) (pc : ThreadPc K) :
    (s.setPc i pc).pc j = if j = i then pc else s.pc j := by
  simp [State.setPc, Function.update_apply]

/-- A step that writes neither table nor marks keeps the invariant. -/
theorem Invariant.of_same {s t : State K} (h : Invariant tombstone s)
    (htable : t.table = s.table) (hallocated : t.allocated = s.allocated)
    (hmarker : t.marker = s.marker) (hcollected : t.collected = s.collected)
    (hmark : ∀ i k a prior, (t.pc i).mark = some (k, a, prior) →
      (s.pc i).mark = some (k, a, prior))
    (htarget : ∀ i a, (t.pc i).target = some a → a ∈ s.allocated ∧ a ≠ tombstone) :
    Invariant tombstone t where
  tombstone_mem := by
    rw [hallocated]
    exact h.tombstone_mem
  addresses := by
    rw [hallocated]
    exact h.addresses
  value := by
    rw [htable, hallocated]
    exact h.value
  injective := by
    rw [htable]
    exact h.injective
  target := by
    rw [hallocated]
    exact htarget
  mark i k a prior hi := by
    obtain ⟨hprior, hvalue, hw, hmem, hne, hunbound, hnot⟩ :=
      h.mark i k a prior (hmark i k a prior hi)
    refine ⟨hprior, ?_, ?_, ?_, hne, ?_, ?_⟩
    · rwa [htable]
    · rwa [hmarker]
    · rwa [hallocated]
    · rwa [htable]
    · rwa [hcollected]
  mark_injective i j k k' a prior prior' hi hj :=
    h.mark_injective i j k k' a prior prior' (hmark _ _ _ _ hi) (hmark _ _ _ _ hj)
  collected_mem := by
    rw [hcollected, hallocated]
    exact h.collected_mem
  collected_unbound := by
    rw [hcollected, htable]
    exact h.collected_unbound
  collected_nodup := by
    rw [hcollected]
    exact h.collected_nodup
  collected_own := by
    rw [hcollected]
    exact h.collected_own

/-- Nor does a step that moves one thread, to a place with no new mark. -/
theorem Invariant.move {s t : State K} {i : Nat} {pc : ThreadPc K} (h : Invariant tombstone s)
    (hpc : t.pc = Function.update s.pc i pc) (htable : t.table = s.table)
    (hallocated : t.allocated = s.allocated) (hmarker : t.marker = s.marker)
    (hcollected : t.collected = s.collected)
    (hmark : ∀ m, pc.mark = some m → (s.pc i).mark = some m)
    (htarget : ∀ a, pc.target = some a → a ∈ s.allocated ∧ a ≠ tombstone) :
    Invariant tombstone t := by
  refine h.of_same htable hallocated hmarker hcollected ?_ ?_
  · intro j k a prior hj
    rw [hpc, Function.update_apply] at hj
    split at hj
    next heq => exact heq ▸ hmark _ hj
    next => exact hj
  · intro j a hj
    rw [hpc, Function.update_apply] at hj
    split at hj
    next => exact htarget a hj
    next => exact h.target j a hj

/-- Two threads mark different keys, for different atomics. -/
theorem Invariant.marks_differ {s : State K} {i j : Nat} {k k' : K} {a b prior prior' : Word}
    (h : Invariant tombstone s) (hne : j ≠ i) (hj : (s.pc j).mark = some (k', b, prior'))
    (hi : (s.pc i).mark = some (k, a, prior)) : k' ≠ k ∧ b ≠ a := by
  constructor
  · rintro rfl
    have hw := (h.mark j k' b prior' hj).marker
    exact hne (Option.some.inj (hw.symm.trans (h.mark i k' a prior hi).marker))
  · rintro rfl
    exact hne (h.mark_injective j i k' k b prior' prior hj hi)

/-- When a marking thread returns, the marks that are left are the others'. -/
theorem Invariant.marks_of_idle {s t : State K} {i : Nat} {k : K} {a prior : Word}
    (h : Invariant tombstone s) (hpcs : ∀ j, t.pc j = if j = i then .idle else s.pc j)
    (hi : (s.pc i).mark = some (k, a, prior)) (j : Nat) (k' : K) (b prior' : Word)
    (hj : (t.pc j).mark = some (k', b, prior')) :
    k' ≠ k ∧ b ≠ a ∧ (s.pc j).mark = some (k', b, prior') := by
  rw [hpcs] at hj
  split at hj
  next => cases hj
  next hji =>
    have hdiffer := h.marks_differ hji hj hi
    exact ⟨hdiffer.1, hdiffer.2, hj⟩

variable [DecidableEq K] {s : State K} {i : Nat} {k : K} {a prior newAtomic : Word}

/-- An insertion binds the new atomic and touches no other key. -/
theorem get_insert (ha : IsAddress newAtomic) (hfresh : s.table.get k ≠ newAtomic) (k' : K) :
    (s.insert i k newAtomic).table.get k' = if k' = k then newAtomic else s.table.get k' := by
  simp only [State.insert, State.setPc, State.write]
  rw [compareAndSwap_insert s.table k ha hfresh]
  exact get_update s.table k ha.storable k'

/-- An insertion of a fresh atomic keeps the invariant. -/
theorem Invariant.insert (h : Invariant tombstone s) (hpc : s.pc i = .getting k .insert)
    (ha : IsAddress newAtomic) (hfresh : newAtomic ∉ s.allocated)
    (habsent : s.table.get k = doesNotExist) : Invariant tombstone (s.insert i k newAtomic) := by
  have hnew : ∀ k', s.table.get k' ≠ newAtomic := by
    intro k' heq
    rcases h.value k' with hnone | hsome
    · exact ha.1 (heq.symm.trans hnone)
    · exact hfresh (heq ▸ hsome)
  have hget := get_insert (i := i) ha (hnew k)
  have hmarks : ∀ j, ((s.insert i k newAtomic).pc j).mark = (s.pc j).mark := by
    intro j
    simp only [State.insert, setPc_pc]
    split
    next heq => rw [heq, hpc]; rfl
    next => rfl
  have htargets : ∀ j, ((s.insert i k newAtomic).pc j).target = (s.pc j).target := by
    intro j
    simp only [State.insert, setPc_pc]
    split
    next heq => rw [heq, hpc]; rfl
    next => rfl
  have hallocated : (s.insert i k newAtomic).allocated = newAtomic :: s.allocated := rfl
  have hcollected : (s.insert i k newAtomic).collected = s.collected := rfl
  have hmarker : ∀ k',
      (s.insert i k newAtomic).marker k' = if k' = k then none else s.marker k' := by
    intro k'
    simp [State.insert, State.setPc, State.write, Function.update_apply]
  constructor
  · exact List.mem_cons_of_mem _ h.tombstone_mem
  · rw [hallocated, List.forall_mem_cons]
    exact ⟨ha, h.addresses⟩
  · grind [h.value]
  · grind [h.injective]
  · grind [h.target]
  · intro j k' a prior hj
    have hm := h.mark j k' a prior (by rw [← hmarks]; exact hj)
    have hk : k' ≠ k := by
      rintro rfl
      exact (h.addresses _ h.tombstone_mem).1 (hm.value.symm.trans habsent)
    have hne : newAtomic ≠ a := fun heq => hfresh (heq ▸ hm.allocated)
    refine ⟨hm.prior_eq, ?_, ?_, List.mem_cons_of_mem _ hm.allocated, hm.ne_tombstone, ?_,
      hm.not_collected⟩
    · rw [hget, if_neg hk, hm.value]
    · rw [hmarker, if_neg hk, hm.marker]
    · grind [hm.unbound]
  · grind [h.mark_injective]
  · grind [h.collected_mem]
  · grind [h.collected_unbound, h.collected_mem]
  · exact h.collected_nodup
  · exact h.collected_own

/-- The swap for the tombstone keeps the invariant when it finds its own atomic. -/
theorem Invariant.swap (h : Invariant tombstone s) (hpc : s.pc i = .swap k a)
    (hown : s.table.get k = a ∨ s.table.get k = doesNotExist) :
    Invariant tombstone (s.swap i tombstone k a) := by
  obtain ⟨hmem, hne⟩ := h.target i a (by rw [hpc]; rfl)
  have ha := h.addresses a hmem
  have htomb := h.addresses _ h.tombstone_mem
  have hcas := compareAndSwap_address s.table k ha htomb hne.symm
  rcases hown with heq | habsent
  · -- the call marks the key
    rw [if_pos heq] at hcas
    have hswap : s.swap i tombstone k a =
        (s.write k (Function.update s.table k (some tombstone)) (some i)).setPc i
          (.secondCheck k a a) := by
      have hnull : a ≠ doesNotExist := ha.1
      simp [State.swap, hcas, hnull]
    rw [hswap]
    generalize ht : (s.write k (Function.update s.table k (some tombstone)) (some i)).setPc i
      (.secondCheck k a a) = t
    have hget : ∀ k', t.table.get k' = if k' = k then tombstone else s.table.get k' :=
      fun k' => ht ▸ get_update s.table k htomb.storable k'
    have hmarker : ∀ k', t.marker k' = if k' = k then some i else s.marker k' := by
      intro k'
      simp [← ht, State.setPc, State.write, Function.update_apply]
    have hpcs : ∀ j, t.pc j = if j = i then .secondCheck k a a else s.pc j := by
      intro j
      rw [← ht, setPc_pc]
      rfl
    have hallocated : t.allocated = s.allocated := ht ▸ rfl
    have hcollected : t.collected = s.collected := ht ▸ rfl
    have hunbound : ∀ k', t.table.get k' ≠ a := by
      intro k' heq'
      rw [hget] at heq'
      split at heq'
      next => exact hne heq'.symm
      next hk => exact hk (h.injective k' k (heq'.trans heq.symm) (heq' ▸ ha.1) (heq' ▸ hne))
    have hother : ∀ j k' b prior, (s.pc j).mark = some (k', b, prior) →
        j ≠ i ∧ k' ≠ k ∧ b ≠ a := by
      intro j k' b prior hj
      have hm := h.mark j k' b prior hj
      refine ⟨?_, ?_, ?_⟩
      · rintro rfl
        rw [hpc] at hj
        cases hj
      · rintro rfl
        exact hne (heq.symm.trans hm.value)
      · rintro rfl
        exact hm.unbound k heq
    have hmark : ∀ j k' b prior, (t.pc j).mark = some (k', b, prior) →
        (j = i ∧ k' = k ∧ b = a ∧ prior = a) ∨ (j ≠ i ∧ (s.pc j).mark = some (k', b, prior)) := by
      intro j k' b prior hj
      rw [hpcs] at hj
      split at hj
      next hji =>
        cases hj
        exact Or.inl ⟨hji, rfl, rfl, rfl⟩
      next hji => exact Or.inr ⟨hji, hj⟩
    constructor
    · exact hallocated ▸ h.tombstone_mem
    · exact hallocated ▸ h.addresses
    · grind [h.value, h.tombstone_mem]
    · grind [h.injective]
    · grind [h.target, ThreadPc.target]
    · intro j k' b prior hj
      rcases hmark j k' b prior hj with ⟨rfl, rfl, rfl, rfl⟩ | ⟨-, hj⟩
      · refine ⟨rfl, by simp [hget], by simp [hmarker], hallocated ▸ hmem, hne, hunbound, ?_⟩
        grind [h.collected_unbound]
      · have hm := h.mark j k' b prior hj
        have ho := hother j k' b prior hj
        refine ⟨hm.prior_eq, ?_, ?_, hallocated ▸ hm.allocated, hm.ne_tombstone, ?_,
          hcollected ▸ hm.not_collected⟩
        · rw [hget, if_neg ho.2.1, hm.value]
        · rw [hmarker, if_neg ho.2.1, hm.marker]
        · grind [hm.unbound, hm.ne_tombstone]
    · grind [h.mark_injective]
    · grind [h.collected_mem]
    · rw [hcollected]
      intro c hc k' heq'
      rw [hget] at heq'
      split at heq'
      next => exact (h.collected_mem c hc).2 heq'.symm
      next => exact h.collected_unbound c hc k' heq'
    · exact hcollected ▸ h.collected_nodup
    · exact hcollected ▸ h.collected_own
  · rw [if_neg (by rw [habsent]; exact Ne.symm ha.1), habsent] at hcas
    have hnull : doesNotExist ≠ a := Ne.symm ha.1
    have hswap : s.swap i tombstone k a = s.return i k a false := by
      simp [State.swap, hcas, hnull]
    rw [hswap]
    exact h.move rfl rfl rfl rfl rfl (by simp [ThreadPc.mark]) (by simp [ThreadPc.target])

/-- Behind the swap, the tombstone in the table is the call's own. -/
theorem Invariant.remove (h : Invariant tombstone s) (hpc : s.pc i = .remove k a prior) :
    Invariant tombstone (s.remove i k a prior) := by
  have hm := h.mark i k a prior (by rw [hpc]; rfl)
  have hremove : s.remove i k a prior = ({ s.write k (s.table.remove k).2 none with
      collected := { key := k, atomic := a, taken := tombstone, takenOwn := true } ::
        s.collected } : State K).return i k a true := by
    simp [State.remove, hm.marker, hm.prior_eq, remove_fst, hm.value]
  rw [hremove]
  generalize ht : ({ s.write k (s.table.remove k).2 none with
      collected := { key := k, atomic := a, taken := tombstone, takenOwn := true } ::
        s.collected } : State K).return i k a true = t
  have hget : ∀ k', t.table.get k' = if k' = k then doesNotExist else s.table.get k' :=
    fun k' => ht ▸ get_remove s.table k k'
  have hpcs : ∀ j, t.pc j = if j = i then .idle else s.pc j := by
    intro j
    simp [← ht, State.return, State.write, Function.update_apply]
  have hallocated : t.allocated = s.allocated := ht ▸ rfl
  have hmarker : ∀ k', t.marker k' = if k' = k then none else s.marker k' := by
    intro k'
    simp [← ht, State.return, State.write, Function.update_apply]
  have hcollected : t.collected =
      { key := k, atomic := a, taken := tombstone, takenOwn := true } :: s.collected := ht ▸ rfl
  have ha := h.addresses a hm.allocated
  have hmark := h.marks_of_idle hpcs (by rw [hpc]; rfl)
  constructor
  · exact hallocated ▸ h.tombstone_mem
  · exact hallocated ▸ h.addresses
  · grind [h.value]
  · grind [h.injective]
  · grind [h.target, ThreadPc.target]
  · intro j k' b prior' hj
    obtain ⟨hk, hb, hj⟩ := hmark j k' b prior' hj
    have ho := h.mark j k' b prior' hj
    refine ⟨ho.prior_eq, ?_, ?_, hallocated ▸ ho.allocated, ho.ne_tombstone, ?_, ?_⟩
    · rw [hget, if_neg hk, ho.value]
    · rw [hmarker, if_neg hk, ho.marker]
    · intro k'' heq
      rw [hget] at heq
      split at heq
      next => exact (h.addresses b ho.allocated).1 heq.symm
      next => exact ho.unbound k'' heq
    · rw [hcollected, List.map_cons, List.mem_cons, not_or]
      exact ⟨hb, ho.not_collected⟩
  · grind [h.mark_injective]
  · rw [hcollected, hallocated, List.forall_mem_cons]
    exact ⟨⟨hm.allocated, hm.ne_tombstone⟩, h.collected_mem⟩
  · have hnull : ∀ c ∈ s.collected, c.atomic ≠ doesNotExist := fun c hc =>
      (h.addresses _ (h.collected_mem c hc).1).1
    rw [hcollected, List.forall_mem_cons]
    constructor
    · intro k' heq
      rw [hget] at heq
      split at heq
      next => exact ha.1 heq.symm
      next => exact hm.unbound k' heq
    · intro c hc k' heq
      rw [hget] at heq
      split at heq
      next => exact hnull c hc heq.symm
      next => exact h.collected_unbound c hc k' heq
  · rw [hcollected, List.map_cons, List.nodup_cons]
    exact ⟨hm.not_collected, h.collected_nodup⟩
  · rw [hcollected, List.forall_mem_cons]
    exact ⟨rfl, h.collected_own⟩

/-- Putting the binding back keeps the invariant. -/
theorem Invariant.putBack (h : Invariant tombstone s) (hpc : s.pc i = .putBack k a prior) :
    Invariant tombstone (s.putBack i tombstone k a) := by
  have hm := h.mark i k a prior (by rw [hpc]; rfl)
  have ha := h.addresses a hm.allocated
  have hcas := compareAndSwap_address s.table k (h.addresses _ h.tombstone_mem) ha hm.ne_tombstone
  rw [if_pos hm.value] at hcas
  have hback : s.putBack i tombstone k a =
      (s.write k (Function.update s.table k (some a)) none).return i k a false := by
    simp [State.putBack, hcas]
  rw [hback]
  generalize ht : (s.write k (Function.update s.table k (some a)) none).return i k a false = t
  have hget : ∀ k', t.table.get k' = if k' = k then a else s.table.get k' :=
    fun k' => ht ▸ get_update s.table k ha.storable k'
  have hmarker : ∀ k', t.marker k' = if k' = k then none else s.marker k' := by
    intro k'
    simp [← ht, State.return, State.write, Function.update_apply]
  have hpcs : ∀ j, t.pc j = if j = i then .idle else s.pc j := by
    intro j
    simp [← ht, State.return, State.write, Function.update_apply]
  have hallocated : t.allocated = s.allocated := ht ▸ rfl
  have hcollected : t.collected = s.collected := ht ▸ rfl
  have hmark := h.marks_of_idle hpcs (by rw [hpc]; rfl)
  constructor
  · exact hallocated ▸ h.tombstone_mem
  · exact hallocated ▸ h.addresses
  · grind [h.value, hm.allocated]
  · grind [h.injective, hm.unbound]
  · grind [h.target, ThreadPc.target]
  · intro j k' b prior' hj
    obtain ⟨hk, hb, hj⟩ := hmark j k' b prior' hj
    have ho := h.mark j k' b prior' hj
    refine ⟨ho.prior_eq, ?_, ?_, hallocated ▸ ho.allocated, ho.ne_tombstone, ?_,
      hcollected ▸ ho.not_collected⟩
    · rw [hget, if_neg hk, ho.value]
    · rw [hmarker, if_neg hk, ho.marker]
    · grind [ho.unbound]
  · grind [h.mark_injective]
  · grind [h.collected_mem]
  · grind [h.collected_unbound, hm.not_collected]
  · exact hcollected ▸ h.collected_nodup
  · exact hcollected ▸ h.collected_own

/-- Every operation keeps the invariant, if a swap finds its own atomic or none, and an
insertion finds none. -/
theorem Invariant.step {t : State K} {action : Action K} (h : Invariant tombstone s)
    (hstep : Step s hash numThreads tombstone action t) (hown : FindsOwn s action t) :
    Invariant tombstone t := by
  cases hstep with
  | use => exact h.of_same rfl rfl rfl rfl (fun _ _ _ _ hi => hi) h.target
  | startGet =>
      exact h.move rfl rfl rfl rfl rfl (by simp [ThreadPc.mark]) (by simp [ThreadPc.target])
  | startCollect _ _ hmem hne =>
      refine h.move rfl rfl rfl rfl rfl (by simp [ThreadPc.mark]) ?_
      rintro b ⟨⟩
      exact ⟨hmem, hne⟩
  | lookUp =>
      exact h.move rfl rfl rfl rfl rfl (by simp [ThreadPc.mark]) (by simp [ThreadPc.target])
  | insert hpc ha hfresh => exact h.insert hpc ha hfresh hown
  | lookUpAgain =>
      exact h.move rfl rfl rfl rfl rfl (by simp [ThreadPc.mark]) (by simp [ThreadPc.target])
  | finish =>
      exact h.move rfl rfl rfl rfl rfl (by simp [ThreadPc.mark]) (by simp [ThreadPc.target])
  | @firstCheck i k a hpc _ =>
      refine h.move rfl rfl rfl rfl rfl (by simp [ThreadPc.mark]) ?_
      rintro b ⟨⟩
      exact h.target i a (by rw [hpc]; rfl)
  | firstCheckFails =>
      exact h.move rfl rfl rfl rfl rfl (by simp [ThreadPc.mark]) (by simp [ThreadPc.target])
  | swap hpc => exact h.swap hpc hown
  | secondCheck hpc _ =>
      refine h.move rfl rfl rfl rfl rfl ?_ (by simp [ThreadPc.target])
      rw [hpc]
      exact fun m hm => hm
  | secondCheckFails hpc _ =>
      refine h.move rfl rfl rfl rfl rfl ?_ (by simp [ThreadPc.target])
      rw [hpc]
      exact fun m hm => hm
  | remove hpc => exact h.remove hpc
  | putBack hpc => exact h.putBack hpc

/-- What an operation that removes nothing leaves behind. -/
theorem history_of_step {t : State K} {action : Action K}
    (hstep : Step s hash numThreads tombstone action t) (hkeep : RemovesNothing s action t) :
    t.collected = s.collected ∧ (t.returned = s.returned ∨ ∃ k a,
      t.returned = { key := k, atomic := a, removed := false, result := false } :: s.returned) := by
  cases hstep with
  | remove => exact hkeep.elim
  | swap =>
      simp only [State.swap]
      split <;> split <;> simp [State.return, State.setPc, State.write]
  | firstCheckFails => exact ⟨rfl, Or.inr ⟨_, _, rfl⟩⟩
  | putBack =>
      simp only [State.putBack]
      split <;> simp [State.return, State.write]
  | _ => exact ⟨rfl, Or.inl rfl⟩

/-- A step that removes no live binding keeps the answers truthful. -/
theorem truthful_of_removesNothing {t : State K} {action : Action K} (h : Truthful s)
    (hstep : Step s hash numThreads tombstone action t) (hkeep : RemovesNothing s action t) :
    Truthful t := by
  rcases (history_of_step hstep hkeep).2 with heq | ⟨k, a, heq⟩
  · rw [Truthful, heq]
    exact h
  · rw [Truthful, heq, List.forall_mem_cons]
    exact ⟨Iff.rfl, h⟩

/-- While every mark is its call's own, one operation keeps the results right exactly when it
removes nothing. -/
theorem truthful_step_iff {t : State K} {action : Action K} (hs : Invariant tombstone s)
    (h : Truthful s) (hstep : Step s hash numThreads tombstone action t) :
    Truthful t ↔ RemovesNothing s action t := by
  refine ⟨fun ht => ?_, truthful_of_removesNothing h hstep⟩
  cases hstep with
  | @remove i k a prior hpc =>
      have hm := hs.mark i k a prior (by rw [hpc]; rfl)
      have hresult := ht { key := k, atomic := a, removed := decide (prior = a), result := false }
        List.mem_cons_self
      simp [hm.prior_eq] at hresult
  | _ => trivial

omit [DecidableEq K] in
theorem truthful_of_initial (h : Initial tombstone s) : Truthful s := by
  obtain ⟨-, -, -, -, hreturned⟩ := h
  simp [Truthful, hreturned]

/--
Collection from any number of threads.  Where no key is ever removed, the results are right and
nothing is deleted.  Where every swap finds its own atomic or none, and every insertion of
{lit}`get` finds none, collection is safe; and then the results are right in a whole run
exactly when no key is removed in it.
-/
theorem garbageCollect_safe_and_truthful (htombstone : IsAddress tombstone)
    (hinit : Initial tombstone s) {path : List (Action K × State K)}
    (h : (system K hash numThreads tombstone).Run s path) :
    (TransitionSystem.StepsMeet RemovesNothing s path →
      TransitionSystem.StatesMeet (fun t => Safe t ∧ Truthful t) path) ∧
    (TransitionSystem.StepsMeet FindsOwn s path →
      TransitionSystem.StatesMeet Safe path ∧
      (TransitionSystem.StatesMeet Truthful path ↔
        TransitionSystem.StepsMeet RemovesNothing s path)) := by
  have htruthful := truthful_of_initial hinit
  have hinvariant := invariant_of_initial htombstone hinit
  constructor
  · intro hkeep
    have hrun := h.statesMeet_of_stepsMeet (I := fun _ => True)
      (P := fun t => t.collected = [] ∧ Truthful t) (fun _ _ _ _ _ => trivial)
      (fun t a u _ ht hstep hkeep => ⟨(history_of_step hstep hkeep).1.trans ht.1,
        truthful_of_removesNothing ht.2 hstep hkeep⟩) trivial
      ⟨hinit.2.2.2.1, htruthful⟩ hkeep
    intro p hp
    obtain ⟨hnone, hp⟩ := hrun p hp
    refine ⟨⟨?_, ?_, ?_⟩, hp⟩ <;> simp [hnone]
  · intro hown
    have hrun := h.restrict hown
    have hkept : ∀ t a u, Invariant tombstone t →
        ((system K hash numThreads tombstone).restrict FindsOwn).step t a u →
        Invariant tombstone u := fun _ _ _ ht hstep => ht.step hstep.1 hstep.2
    constructor
    · have hsafe := hrun.statesMeet_of_stepsMeet (P := Invariant tombstone) hkept
        (fun t a u ht _ hstep _ => hkept t a u ht hstep) hinvariant hinvariant hown
      exact fun p hp => (hsafe p hp).safe
    · exact hrun.statesMeet_iff_stepsMeet hkept
        (fun t a u ht htrue hstep => truthful_step_iff ht htrue hstep.1) hinvariant htruthful

/-! ## Two collectors of one atomic -/

/-- An empty map; the shared tombstone is at address 8. -/
def newMap : State Nat where
  table := fun _ => none
  allocated := [8]
  threadKHashes := fun _ => 5
  uses := fun _ => 0
  marker := fun _ => none
  pc := fun _ => .idle
  collected := []
  returned := []

theorem initial_newMap : Initial 8 newMap :=
  ⟨fun _ => rfl, rfl, fun _ => rfl, rfl, rfl⟩

/-- Thread `i` publishes the hash of `k` and begins its look-up. -/
def State.startGet (s : State Nat) (i : Nat) (k : Nat) : State Nat :=
  { s.setPc i (.getting k .lookUp) with threadKHashes := Function.update s.threadKHashes i k }

/-- Thread 0 looks up key 1, which gets an atomic, and then key 2. -/
def lookUps : List (Action Nat × State Nat) :=
  let started := newMap.startGet 0 1
  let absent := started.setPc 0 (.getting 1 .insert)
  let inserted := absent.insert 0 1 16
  let finished := inserted.setPc 0 .idle
  [(.start 0, started), (.lookUp 0, absent), (.insert 0 1, inserted), (.finish 0, finished),
    (.start 0, finished.startGet 0 2)]

/-- Threads 1 and 2 collect the atomic of key 1, and the swap of thread 2 finds the mark of
thread 1. -/
def twoCollectors : List (Action Nat × State Nat) :=
  let before := TransitionSystem.lastState newMap lookUps
  let started := (before.setPc 1 (.firstCheck 1 16)).setPc 2 (.firstCheck 1 16)
  let checked := (started.setPc 1 (.swap 1 16)).setPc 2 (.swap 1 16)
  let marked := checked.swap 1 8 1 16
  let bothMarked := marked.swap 2 8 1 16
  let again := bothMarked.setPc 1 (.remove 1 16 16)
  let bothAgain := again.setPc 2 (.remove 1 16 8)
  let removed := bothAgain.remove 1 1 16 16
  [(.start 1, before.setPc 1 (.firstCheck 1 16)), (.start 2, started),
    (.check 1, started.setPc 1 (.swap 1 16)), (.check 2, checked),
    (.swap 1 1 16, marked), (.swap 2 1 16, bothMarked), (.check 1, again), (.check 2, bothAgain),
    (.remove 1, removed), (.remove 2, removed.remove 2 1 16 8)]

/-- After the two look-ups the run goes on with any run from there. -/
theorem run_lookUps {rest : List (Action Nat × State Nat)}
    (h : (system Nat id 3 8).Run (TransitionSystem.lastState newMap lookUps) rest) :
    (system Nat id 3 8).Run newMap (lookUps ++ rest) := by
  refine .cons (.startGet (by decide) rfl) (.cons (.lookUp rfl) ?_)
  refine .cons (.insert rfl ⟨by decide, by decide⟩ (by decide)) (.cons (.finish rfl ?_) ?_)
  · decide
  · exact .cons (.startGet (by decide) rfl) h

theorem run_twoCollectors :
    (system Nat id 3 8).Run (TransitionSystem.lastState newMap lookUps) twoCollectors := by
  refine .cons (.startCollect (by decide) rfl (by decide) (by decide)) ?_
  refine .cons (.startCollect (by decide) rfl (by decide) (by decide)) ?_
  refine .cons (.firstCheck rfl (by decide)) (.cons (.firstCheck rfl (by decide)) ?_)
  refine .cons (.swap rfl) (.cons (.swap rfl) ?_)
  refine .cons (.secondCheck rfl (by decide)) (.cons (.secondCheck rfl (by decide)) ?_)
  exact .cons (.remove rfl) (.cons (.remove rfl) (.nil _))

/-- Only thread 1 collects. -/
def oneCollector : List (Action Nat × State Nat) :=
  let before := TransitionSystem.lastState newMap lookUps
  let started := before.setPc 1 (.firstCheck 1 16)
  let checked := started.setPc 1 (.swap 1 16)
  let marked := checked.swap 1 8 1 16
  let again := marked.setPc 1 (.remove 1 16 16)
  [(.start 1, started), (.check 1, checked), (.swap 1 1 16, marked), (.check 1, again),
    (.remove 1, again.remove 1 1 16 16)]

theorem run_oneCollector :
    (system Nat id 3 8).Run (TransitionSystem.lastState newMap lookUps) oneCollector := by
  refine .cons (.startCollect (by decide) rfl (by decide) (by decide)) ?_
  refine .cons (.firstCheck rfl (by decide)) (.cons (.swap rfl) ?_)
  exact .cons (.secondCheck rfl (by decide)) (.cons (.remove rfl) (.nil _))

theorem garbageCollect_safe_and_truthful_oneCollector :
    TransitionSystem.StatesMeet (fun t => Safe t ∧ Truthful t) lookUps ∧
      TransitionSystem.StatesMeet Safe (lookUps ++ oneCollector) := by
  constructor
  · have hlookUps := garbageCollect_safe_and_truthful ⟨by decide, by decide⟩ initial_newMap
      (run_lookUps (.nil _))
    refine hlookUps.1 ?_
    simp [lookUps, RemovesNothing]
  · have hcollected := garbageCollect_safe_and_truthful ⟨by decide, by decide⟩ initial_newMap
      (run_lookUps run_oneCollector)
    refine (hcollected.2 ?_).1
    exact ⟨trivial, trivial, rfl, trivial, trivial, trivial, trivial, Or.inl rfl, trivial, trivial,
      trivial⟩

/-- The atomic is deleted twice, and the call that removed it says that it did not. -/
theorem not_safe_twoCollectors :
    ¬ ∀ s : State Nat, Initial 8 s → ∀ path, (system Nat id 3 8).Run s path →
      TransitionSystem.StatesMeet (fun t => Safe t ∧ Truthful t) path := by
  intro h
  have hall := h newMap initial_newMap _ (run_lookUps run_twoCollectors)
  have hlast := hall _ (List.mem_of_getLast? rfl)
  exact absurd hlast.1.once (by decide)

end Collection

end AtomicMapUnordered
end Lockfree
end OFlux
