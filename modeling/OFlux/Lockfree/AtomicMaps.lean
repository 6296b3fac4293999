import OFlux.Library.TransitionSystem
import OFlux.Lockfree.HashTable

/-!
# Concurrent lookups in the unordered atomic map

{lit}`AtomicMapUnordered::get` looks its key up, and on the first access to the
key it inserts a new atomic.  Any number of calls with one key run here, one
hash-table operation at a time.  The insertion passes {lit}`Does_Not_Exist` of
the table constants as its expected value, which is the null pointer and so means
{lit}`Whatever`.

Main results:

- Theorem {lit}`uniqueAtomic_step_iff`: one step keeps the atomic of the key
  unique exactly when it inserts only where no value exists.
- Theorem {lit}`get_unique_iff`: over a whole run.
- Theorem {lit}`exists_step`: no call gets stuck.
- Theorem {lit}`not_uniqueAtomic_overlappingRun`: two overlapping first accesses
  return different atomics.
-/

namespace OFlux
namespace Lockfree
namespace AtomicMapUnordered

open Library HashTableConstants HashTable

variable {K ι : Type} [DecidableEq K] [DecidableEq ι]

/-! ## Calls and their steps -/

/-- Where a call stands. -/
inductive Pc where
  | lookUp
  | insert
  | lookUpAgain
  | persistentKey (atomic : Word)
  | returned (atomic : Word)
deriving DecidableEq

/-- The atomic that a call has settled on. -/
def Pc.decided : Pc → Option Word
  | .persistentKey atomic => some atomic
  | .returned atomic => some atomic
  | _ => none

/-- The table, the addresses in use and the calls; all calls have the same key. -/
structure State (K ι : Type) where
  table : HashTable K
  allocated : List Word
  pc : ι → Pc

/-- The next table operation of a call; an insertion comes with its new atomic. -/
inductive Action (ι : Type) where
  | get (call : ι)
  | compareAndSwap (call : ι) (newAtomic : Word)
  | getPersistentKey (call : ι)

/-- The call that acts. -/
def Action.caller : Action ι → ι
  | .get call => call
  | .compareAndSwap call _ => call
  | .getPersistentKey call => call

/-- What {lit}`new` returns: an aligned address, not null. -/
def IsAddress (a : Word) : Prop :=
  a ≠ 0 ∧ a.toNat % 8 = 0

/-- After a lookup: try again on the shared tombstone, insert if absent. -/
def afterLookUp (tombstone res : Word) : Pc :=
  if res = tombstone then .lookUp
  else if res = doesNotExist then .insert
  else .persistentKey res

/-- After the insertion; any result but {lit}`Does_Not_Exist` leads to a lookup. -/
def afterInsert (res casRes : Word) : Pc :=
  if doesNotExist ≠ casRes then .lookUpAgain else .persistentKey res

/-- Moves `call` to its next step. -/
def State.setPc (s : State K ι) (call : ι) (pc : Pc) : State K ι :=
  { s with pc := Function.update s.pc call pc }

/-- A call inserts its new atomic. -/
def State.insert (s : State K ι) (k : K) (call : ι) (newAtomic : Word) : State K ι where
  table := (s.table.compareAndSwap k doesNotExist newAtomic).2
  allocated := newAtomic :: s.allocated
  pc := Function.update s.pc call
    (afterInsert newAtomic (s.table.compareAndSwap k doesNotExist newAtomic).1)

/-- One hash-table operation of one call of {lit}`get` with key {lit}`k`. -/
inductive Step (k : K) (tombstone : Word) (s : State K ι) :
    Action ι → State K ι → Prop where
  | get {call : ι} :
      s.pc call = .lookUp →
      Step k tombstone s (.get call) (s.setPc call (afterLookUp tombstone (s.table.get k)))
  | getAgain {call : ι} :
      s.pc call = .lookUpAgain →
      Step k tombstone s (.get call) (s.setPc call (.persistentKey (s.table.get k)))
  | compareAndSwap {call : ι} {newAtomic : Word} :
      s.pc call = .insert → IsAddress newAtomic → newAtomic ∉ s.allocated →
      Step k tombstone s (.compareAndSwap call newAtomic)
        (s.insert k call newAtomic)
  | getPersistentKey {call : ι} {atomic : Word} :
      s.pc call = .persistentKey atomic → s.table.getPersistentKey k ≠ none →
      Step k tombstone s (.getPersistentKey call) (s.setPc call (.returned atomic))

/-- Any number of calls on a table that maps the key to nothing or to an atomic. -/
def Initial (k : K) (tombstone : Word) (s : State K ι) : Prop :=
  (∀ call, s.pc call = .lookUp) ∧ tombstone ∈ s.allocated ∧
    (s.table.get k = doesNotExist ∨
      (s.table.get k ∈ s.allocated ∧ s.table.get k ≠ tombstone))

/-- The concurrent calls as a transition system. -/
def system (K ι : Type) [DecidableEq K] [DecidableEq ι] (k : K) (tombstone : Word) :
    TransitionSystem (State K ι) (Action ι) where
  init := Initial k tombstone
  step := Step k tombstone

/-! ## One insertion -/

/-- An address can be stored as a value. -/
theorem IsAddress.storable {a : Word} (h : IsAddress a) : Storable a := by
  refine ⟨h.1, fun htomb => ?_⟩
  have haligned := h.2
  rw [htomb] at haligned
  exact absurd haligned (by decide)

/-- Every insertion writes, whatever the table holds: the expected value that
{lit}`get` passes is {lit}`Whatever`. -/
theorem compareAndSwap_insert (table : HashTable K) (k : K) {a : Word} (ha : IsAddress a)
    (hfresh : table.get k ≠ a) :
    table.compareAndSwap k doesNotExist a =
      (table.get k, Function.update table k (some a)) :=
  compareAndSwap_whatever table k ha.storable hfresh

/-- After the insertion the key is bound to the new atomic. -/
theorem insert_get (s : State K ι) {k : K} (call : ι) {a : Word} (ha : IsAddress a)
    (hfresh : s.table.get k ≠ a) : (s.insert k call a).table.get k = a := by
  simp only [State.insert, compareAndSwap_insert s.table k ha hfresh]
  exact get_update_self s.table k ha.storable

/-- The insertion moves only the call that makes it. -/
theorem insert_pc (s : State K ι) {k : K} (call other : ι) {a : Word} (ha : IsAddress a)
    (hfresh : s.table.get k ≠ a) :
    (s.insert k call a).pc other =
      if other = call then afterInsert a (s.table.get k) else s.pc other := by
  simp [State.insert, compareAndSwap_insert s.table k ha hfresh, Function.update_apply]

/-! ## The invariant -/

/-- What holds of the table and the calls in every state. -/
structure Invariant (k : K) (tombstone : Word) (s : State K ι) : Prop where
  tombstone_mem : tombstone ∈ s.allocated
  value : s.table.get k = doesNotExist ∨
    (s.table.get k ∈ s.allocated ∧ s.table.get k ≠ tombstone)
  decided_mem : ∀ call a, (s.pc call).decided = some a → a ∈ s.allocated
  /-- A value is there once an insertion has taken place, and stays. -/
  present : ∀ call, s.pc call = .lookUpAgain ∨ (s.pc call).decided ≠ none →
    s.table.get k ≠ doesNotExist
  /-- A call that found no value is overtaken only by a call that has settled. -/
  overtaken : ∀ call, s.pc call = .insert → s.table.get k ≠ doesNotExist →
    ∃ other, (s.pc other).decided ≠ none

/-- All calls that have settled did so on the atomic that the table has for the key. -/
def UniqueAtomic (k : K) (s : State K ι) : Prop :=
  ∀ call a, (s.pc call).decided = some a → s.table.get k = a

/-- An insertion takes place only where the table has no value for the key. -/
def InsertsWhereAbsent (k : K) (s : State K ι) : Action ι → State K ι → Prop
  | .compareAndSwap _ _, _ => s.table.get k = doesNotExist
  | _, _ => True

omit [DecidableEq K] in
@[simp]
theorem setPc_table (s : State K ι) (call : ι) (pc : Pc) :
    (s.setPc call pc).table = s.table :=
  rfl

omit [DecidableEq K] in
@[simp]
theorem setPc_allocated (s : State K ι) (call : ι) (pc : Pc) :
    (s.setPc call pc).allocated = s.allocated :=
  rfl

omit [DecidableEq K] in
/-- Only `call` moves. -/
theorem setPc_pc (s : State K ι) (call other : ι) (pc : Pc) :
    (s.setPc call pc).pc other = if other = call then pc else s.pc other := by
  simp [State.setPc, Function.update_apply]

omit [DecidableEq K] [DecidableEq ι] in
theorem invariant_of_initial {k : K} {tombstone : Word} {s : State K ι}
    (h : Initial k tombstone s) : Invariant k tombstone s where
  tombstone_mem := h.2.1
  value := h.2.2
  decided_mem := by simp [h.1, Pc.decided]
  present := by simp [h.1, Pc.decided]
  overtaken := by simp [h.1]

omit [DecidableEq K] in
/-- A step that only moves one call keeps the invariant, if the call settles on
the atomic in the table, and inserts only after it found none. -/
theorem Invariant.setPc {k : K} {tombstone : Word} {s : State K ι}
    (h : Invariant k tombstone s) {call : ι} {pc : Pc}
    (hkeep : (s.pc call).decided ≠ none → pc.decided ≠ none)
    (hmem : ∀ a, pc.decided = some a → a ∈ s.allocated)
    (hpresent : pc = .lookUpAgain ∨ pc.decided ≠ none → s.table.get k ≠ doesNotExist)
    (hinsert : pc = .insert → s.table.get k = doesNotExist) :
    Invariant k tombstone (s.setPc call pc) where
  tombstone_mem := h.tombstone_mem
  value := h.value
  decided_mem := by
    intro other a hdecided
    rw [setPc_pc] at hdecided
    split at hdecided
    · exact hmem a hdecided
    · exact h.decided_mem other a hdecided
  present := by
    intro other hother
    rw [setPc_pc] at hother
    split at hother
    · exact hpresent hother
    · exact h.present other hother
  overtaken := by
    intro other hother hvalue
    rw [setPc_pc] at hother
    split at hother
    · exact absurd (hinsert hother) hvalue
    · obtain ⟨third, hthird⟩ := h.overtaken other hother hvalue
      refine ⟨third, ?_⟩
      rw [setPc_pc]
      split
      · rename_i heq
        exact hkeep (heq ▸ hthird)
      · exact hthird

omit [DecidableEq K] [DecidableEq ι] in
/-- A fresh atomic is not the one bound. -/
theorem fresh_ne_get {k : K} {tombstone : Word} {s : State K ι}
    (h : Invariant k tombstone s) {a : Word} (ha : IsAddress a)
    (hfresh : a ∉ s.allocated) : s.table.get k ≠ a := by
  intro heq
  rcases h.value with hnone | hsome
  · exact ha.1 (heq.symm.trans hnone)
  · exact hfresh (heq ▸ hsome.1)

/-- Every operation keeps the invariant. -/
theorem Invariant.step {k : K} {tombstone : Word} {s t : State K ι} {a : Action ι}
    (h : Invariant k tombstone s) (hstep : Step k tombstone s a t) :
    Invariant k tombstone t := by
  cases hstep with
  | @get call hpc =>
      have hvalue := h.value
      refine h.setPc (by simp [hpc, Pc.decided]) ?_ ?_ ?_
      · unfold afterLookUp
        grind [Pc.decided]
      · unfold afterLookUp
        grind [Pc.decided]
      · unfold afterLookUp
        grind
  | @getAgain call hpc =>
      have hpresent := h.present call (Or.inl hpc)
      refine h.setPc (by simp [Pc.decided]) ?_ (fun _ => hpresent) (by simp)
      intro a ha
      obtain rfl : s.table.get k = a := by simpa [Pc.decided] using ha
      exact (h.value.resolve_left hpresent).1
  | @compareAndSwap call newAtomic hpc haddress hfresh =>
      have hne := fresh_ne_get h haddress hfresh
      have hget := insert_get s call haddress hne
      have hpcs := fun other => insert_pc s call other haddress hne
      refine ⟨List.mem_cons_of_mem _ h.tombstone_mem, Or.inr ?_, ?_, ?_, ?_⟩
      · rw [hget]
        exact ⟨List.mem_cons_self, fun heq => hfresh (heq ▸ h.tombstone_mem)⟩
      · intro other a hdecided
        rw [hpcs] at hdecided
        split at hdecided
        · unfold afterInsert at hdecided
          grind [Pc.decided, State.insert]
        · exact List.mem_cons_of_mem _ (h.decided_mem other a hdecided)
      · intro other _
        rw [hget]
        exact haddress.1
      · intro other hother _
        rw [hpcs] at hother
        split at hother
        · unfold afterInsert at hother
          grind
        · by_cases hvalue : s.table.get k = doesNotExist
          · exact ⟨call, by simp [hpcs, afterInsert, hvalue, Pc.decided]⟩
          · obtain ⟨third, hthird⟩ := h.overtaken other hother hvalue
            have hthird_ne : third ≠ call := by
              rintro rfl
              simp [hpc, Pc.decided] at hthird
            exact ⟨third, by simpa [hpcs, hthird_ne] using hthird⟩
  | @getPersistentKey call atomic hpc _ =>
      have hdecided : (s.pc call).decided = some atomic := by simp [hpc, Pc.decided]
      have hpresent := h.present call (Or.inr (by simp [hdecided]))
      refine h.setPc (by simp [Pc.decided]) ?_ (fun _ => hpresent) (by simp)
      intro a ha
      obtain rfl : atomic = a := by simpa [Pc.decided] using ha
      exact h.decided_mem call atomic hdecided

omit [DecidableEq K] [DecidableEq ι] in
/-- The assertion after {lit}`getPersistentKey` never fails. -/
theorem getPersistentKey_ne_none {k : K} {tombstone : Word} {s : State K ι}
    (h : Invariant k tombstone s) {call : ι} {atomic : Word}
    (hpc : s.pc call = .persistentKey atomic) : s.table.getPersistentKey k ≠ none := by
  have hpresent := h.present call (Or.inr (by simp [hpc, Pc.decided]))
  cases hslot : s.table k with
  | none => exact absurd (by simp [HashTable.get, Slot.get, hslot]) hpresent
  | some v => simp [HashTable.getPersistentKey, hslot]

/-- No call gets stuck: one that has not returned can go on, as long as there is memory for a new
atomic. -/
theorem exists_step {k : K} {tombstone : Word} {s : State K ι}
    (h : Invariant k tombstone s) {call : ι} (hcall : ∀ atomic, s.pc call ≠ .returned atomic)
    (hmemory : ∃ newAtomic, IsAddress newAtomic ∧ newAtomic ∉ s.allocated) :
    ∃ a t, Step k tombstone s a t ∧ a.caller = call := by
  cases hpc : s.pc call with
  | lookUp => exact ⟨_, _, Step.get hpc, rfl⟩
  | insert =>
      obtain ⟨newAtomic, haddress, hfresh⟩ := hmemory
      exact ⟨_, _, Step.compareAndSwap hpc haddress hfresh, rfl⟩
  | lookUpAgain => exact ⟨_, _, Step.getAgain hpc, rfl⟩
  | persistentKey atomic =>
      exact ⟨_, _, Step.getPersistentKey hpc (getPersistentKey_ne_none h hpc), rfl⟩
  | returned atomic => exact absurd hpc (hcall atomic)

/-! ## One atomic for the key -/

omit [DecidableEq K] in
/-- A step that only moves one call keeps the atomic unique, if what the call
settles on is the atomic in the table. -/
theorem uniqueAtomic_setPc {k : K} {s : State K ι} (h : UniqueAtomic k s) {call : ι}
    {pc : Pc} (hpc : ∀ a, pc.decided = some a → s.table.get k = a) :
    UniqueAtomic k (s.setPc call pc) := by
  intro other a hdecided
  rw [setPc_pc] at hdecided
  split at hdecided
  · exact hpc a hdecided
  · exact h other a hdecided

/-- One operation keeps the atomic of the key unique exactly when, if it is an
insertion, the table has no value for the key. -/
theorem uniqueAtomic_step_iff {k : K} {tombstone : Word} {s t : State K ι}
    {a : Action ι} (hs : Invariant k tombstone s) (h : UniqueAtomic k s)
    (hstep : Step k tombstone s a t) :
    UniqueAtomic k t ↔ InsertsWhereAbsent k s a t := by
  cases hstep with
  | @get call hpc =>
      refine iff_of_true (uniqueAtomic_setPc h ?_) trivial
      unfold afterLookUp
      grind [Pc.decided]
  | @getAgain call hpc =>
      exact iff_of_true (uniqueAtomic_setPc h (by simp [Pc.decided])) trivial
  | @getPersistentKey call atomic hpc _ =>
      refine iff_of_true (uniqueAtomic_setPc h ?_) trivial
      intro a ha
      exact h call a (by simpa [hpc, Pc.decided] using ha)
  | @compareAndSwap call newAtomic hpc haddress hfresh =>
      have hne := fresh_ne_get hs haddress hfresh
      have hget := insert_get s call haddress hne
      have hpcs := fun other => insert_pc s call other haddress hne
      constructor
      · intro hunique
        -- a value in the table means that some call has settled, on an older atomic
        by_contra hvalue
        obtain ⟨other, hother⟩ := hs.overtaken call hpc hvalue
        obtain ⟨b, hb⟩ := Option.ne_none_iff_exists'.mp hother
        have hcall : other ≠ call := by
          rintro rfl
          simp [hpc, Pc.decided] at hb
        have hnew := hunique other b (by simpa [hpcs, hcall] using hb)
        rw [hget] at hnew
        exact hfresh (hnew ▸ hs.decided_mem other b hb)
      · intro habsent other b hdecided
        have habsent : s.table.get k = doesNotExist := habsent
        rw [hpcs] at hdecided
        rw [hget]
        split at hdecided
        · simpa [afterInsert, habsent, Pc.decided] using hdecided
        · exact absurd habsent (hs.present other (Or.inr (by simp [hdecided])))

/--
For any number of calls with one key and any interleaving of their operations, the
calls all settle on the one atomic that the table has for the key, in every state,
exactly when every insertion takes place where the table has no value for the key.
-/
theorem get_unique_iff {k : K} {tombstone : Word} {s : State K ι}
    (hinit : Initial k tombstone s) {path : List (Action ι × State K ι)}
    (h : (system K ι k tombstone).Run s path) :
    TransitionSystem.StatesMeet (UniqueAtomic k) path ↔
      TransitionSystem.StepsMeet (InsertsWhereAbsent k) s path := by
  have hinvariant : ∀ s a t, Invariant k tombstone s →
      (system K ι k tombstone).step s a t → Invariant k tombstone t :=
    fun _ _ _ hs hstep => Invariant.step hs hstep
  have hunique : UniqueAtomic k s := by
    intro call a hdecided
    simp [hinit.1, Pc.decided] at hdecided
  exact h.statesMeet_iff_stepsMeet hinvariant
    (fun _ _ _ hs hunique hstep => uniqueAtomic_step_iff hs hunique hstep)
    (invariant_of_initial hinit) hunique

/-! ## Two overlapping first accesses -/

/-- An empty table and two calls; the shared tombstone is at address 8. -/
def twoCalls : State Unit Bool where
  table := fun _ => none
  allocated := [8]
  pc := fun _ => .lookUp

theorem initial_twoCalls : Initial () 8 twoCalls :=
  ⟨fun _ => rfl, by decide, Or.inl rfl⟩

/-- Both calls find the key absent, and then both insert. -/
def overlappingRun : List (Action Bool × State Unit Bool) :=
  let first := twoCalls.setPc false .insert
  let second := first.setPc true .insert
  let inserted := second.insert () false 16
  let replaced := inserted.insert () true 24
  [(.get false, first), (.get true, second), (.compareAndSwap false 16, inserted),
    (.compareAndSwap true 24, replaced),
    (.get true, replaced.setPc true (.persistentKey (replaced.table.get ())))]

theorem run_overlappingRun : (system Unit Bool () 8).Run twoCalls overlappingRun := by
  refine .cons (.get rfl) (.cons (.get rfl) ?_)
  refine .cons (.compareAndSwap rfl ⟨by decide, by decide⟩ (by decide)) ?_
  refine .cons (.compareAndSwap rfl ⟨by decide, by decide⟩ (by decide)) ?_
  exact .cons (.getAgain rfl) (.nil _)

/-- The first call settles on its own atomic, the second on another one. -/
theorem not_uniqueAtomic_overlappingRun :
    ¬ ∀ s : State Unit Bool, Initial () 8 s → ∀ path, (system Unit Bool () 8).Run s path →
      TransitionSystem.StatesMeet (UniqueAtomic ()) path := by
  intro h
  have hlast := h twoCalls initial_twoCalls overlappingRun run_overlappingRun _
    (List.mem_of_getLast? rfl)
  have hfirst := hlast false 16 rfl
  exact absurd hfirst (by decide)

theorem get_unique_iff_overlappingRun :
    TransitionSystem.StatesMeet (UniqueAtomic ()) overlappingRun ↔
      TransitionSystem.StepsMeet (InsertsWhereAbsent ()) twoCalls overlappingRun :=
  get_unique_iff initial_twoCalls run_overlappingRun

end AtomicMapUnordered
end Lockfree
end OFlux
