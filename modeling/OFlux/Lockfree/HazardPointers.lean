import OFlux.Library.BinarySearch
import OFlux.Library.Fallible

/-!
# Hazard pointers

A thread that gives memory back defers this as long as a hazard pointer of some thread holds it.
The deferred pointers of a thread are in a list of bounded length; when it is full, {lit}`scan`
compares it with all hazard pointers, keeps the pointers that are held, and hands the others to
their allocators.

Main results:

- Theorem {lit}`scan_spec`: what a scan keeps and hands back.
- Theorem {lit}`deferAll_spec`: what is deferred comes back once, or is still deferred.
- Theorem {lit}`scan_exact`: nothing is lost, handed back twice or while it is held, and nothing
  fails.
-/

namespace OFlux
namespace Lockfree
namespace Smr

open Library
open Library.Fallible (bind_eq_ok foldlM_cons_eq_ok)

variable {κ : Type}

/-! ## The list of a thread -/

/-- The bound on the number of threads. -/
def smrP : Nat := 32

/-- The number of hazard pointers of a thread. -/
def smrK : Nat := 2

/-- The number of hazards of all threads. -/
def smrN : Nat := smrP * smrK

/-- The length of the list. -/
def smrR : Nat := 2 * smrN

/-- What the hazard pointers of the threads hold; an address is null if it is 0. -/
structure Hazard where
  numThreads : Nat
  h : Nat → Nat → Nat

/-- An entry of the list, with an allocator from {lit}`κ`. -/
structure DListEntry (κ : Type) where
  v : Nat
  alloc : Option κ
deriving DecidableEq

/-- The deferred frees of one thread. -/
structure PerThread (κ : Type) where
  dlist : Vector (DListEntry κ) smrR
  dcount : Nat

/-- Why a call fails. -/
inductive Failure where
  | outOfBounds
  | nullPointer
  | assertion
deriving DecidableEq

/-- A thread begins with nothing deferred. -/
def initPerThread : PerThread κ where
  dlist := Vector.replicate smrR { v := 0, alloc := none }
  dcount := 0

/-- Write to the list, unless that is outside of it. -/
def store (dlist : Vector (DListEntry κ) smrR) (i : Nat) (ent : DListEntry κ) :
    Except Failure (Vector (DListEntry κ) smrR) :=
  if h : i < smrR then .ok (dlist.set i ent h) else .error .outOfBounds

/-- The entry at `i`, inside the bounds of the list. -/
def load (dlist : Vector (DListEntry κ) smrR) (i : Nat) : Except Failure (DListEntry κ) :=
  if h : i < smrR then .ok dlist[i] else .error .outOfBounds

/-! ## The scan -/

/-- The slots that are looked at, in their order. -/
def slots (numThreads : Nat) : List (Nat × Nat) :=
  (List.range numThreads).flatMap fun thrI => (List.range smrK).map fun hpK => (thrI, hpK)

/-- One slot of the first stage. -/
def collectSlot (hazard : Hazard) (plist : List Nat) (slot : Nat × Nat) :
    Except Failure (List Nat) :=
  let h := hazard.h slot.1 slot.2
  if h = 0 then .ok plist
  else if plist.length < smrN then .ok (plist ++ [h]) else .error .outOfBounds

/-- The first pass of a scan: the hazards that are set. -/
def collect (hazard : Hazard) : Except Failure (List Nat) :=
  if hazard.numThreads < smrP then (slots hazard.numThreads).foldlM (collectSlot hazard) []
  else .error .assertion

/-- A pointer that is handed back, and the allocator that gets it. -/
structure Deferred (κ : Type) where
  v : Nat
  alloc : κ
deriving DecidableEq

/-- The second pass of a scan: the list rewritten so far, and what was freed. -/
structure ScanState (κ : Type) where
  dlist : Vector (DListEntry κ) smrR
  newDcount : Nat
  puts : List (Deferred κ)

/-- One entry of the stages 3 and 4. -/
def scanEntry (plist : List Nat) (st : ScanState κ) (dlI : Nat) :
    Except Failure (ScanState κ) := do
  let ent ← load st.dlist dlI
  if plist.length > 0 && binarySearch plist ent.v 0 plist.length le_rfl then
    return { st with
      dlist := ← store st.dlist st.newDcount ent
      newDcount := st.newDcount + 1 }
  else
    match ent.alloc with
    | none => throw .nullPointer
    | some alloc =>
        return { st with
          dlist := ← store st.dlist dlI { v := 0, alloc := none }
          puts := st.puts ++ [{ v := ent.v, alloc := alloc }] }

/-- {lit}`PerThread::scan`, with the pointers that it hands back. -/
def scan (hazard : Hazard) (s : PerThread κ) :
    Except Failure (PerThread κ × List (Deferred κ)) := do
  let plist := (← collect hazard).insertionSort (· ≤ ·)
  let st ← (List.range s.dcount).foldlM (scanEntry plist)
    { dlist := s.dlist, newDcount := 0, puts := [] }
  return ({ dlist := st.dlist, dcount := st.newDcount }, st.puts)

/-- A full list is scanned. -/
def scanIfFull (hazard : Hazard) (s : PerThread κ) :
    Except Failure (PerThread κ × List (Deferred κ)) :=
  if s.dcount ≥ smrR then scan hazard s else .ok (s, [])

/-- {lit}`PerThread::defer_put` -/
def deferPut (hazard : Hazard) (s : PerThread κ) (v : Nat) (ai : κ) :
    Except Failure (PerThread κ × List (Deferred κ)) := do
  let dlist ← store s.dlist s.dcount { v := v, alloc := some ai }
  let (s, puts) ← scanIfFull hazard { dlist := dlist, dcount := s.dcount + 1 }
  if s.dcount < smrR then return (s, puts) else throw .assertion

/-! ## Hazard pointers that hold something -/

/-- The pointer stands in a hazard slot. -/
def Held (hazard : Hazard) (v : Nat) : Prop :=
  v ≠ 0 ∧ ∃ thrI < hazard.numThreads, ∃ hpK < smrK, hazard.h thrI hpK = v

instance (hazard : Hazard) (v : Nat) : Decidable (Held hazard v) := by
  unfold Held
  infer_instance

/-- The hazards of the threads there are. -/
theorem mem_slots {numThreads : Nat} {slot : Nat × Nat} :
    slot ∈ slots numThreads ↔ slot.1 < numThreads ∧ slot.2 < smrK := by
  obtain ⟨thrI, hpK⟩ := slot
  simp [slots]

/-- The number of hazards. -/
theorem length_slots (numThreads : Nat) : (slots numThreads).length = numThreads * smrK := by
  simp [slots, List.length_flatMap]

/-- The first stage finds what is held, with repetitions, and has room for it. -/
theorem foldlM_collectSlot (hazard : Hazard) (l : List (Nat × Nat)) (plist : List Nat)
    (hroom : plist.length + l.length ≤ smrN) :
    l.foldlM (collectSlot hazard) plist = .ok (plist ++
      (l.map fun slot => hazard.h slot.1 slot.2).filter (· ≠ 0)) := by
  induction l generalizing plist with
  | nil =>
      rw [List.map_nil, List.filter_nil, List.append_nil]
      rfl
  | cons slot l ih =>
      rw [List.length_cons] at hroom
      by_cases hnull : hazard.h slot.1 slot.2 = 0
      · refine foldlM_cons_eq_ok.mpr ⟨plist, by simp [collectSlot, hnull], ?_⟩
        simpa [hnull] using ih plist (by omega)
      · have hstep : collectSlot hazard plist slot =
            .ok (plist ++ [hazard.h slot.1 slot.2]) := by
          simp [collectSlot, hnull, show plist.length < smrN by omega]
        refine foldlM_cons_eq_ok.mpr ⟨_, hstep, ?_⟩
        have hrest := ih (plist ++ [hazard.h slot.1 slot.2]) (by
          rw [List.length_append, List.length_singleton]
          omega)
        simpa [hnull] using hrest

/-- The first pass collects the hazards that are set. -/
theorem collect_spec {hazard : Hazard} (hthreads : hazard.numThreads < smrP) :
    ∃ plist, collect hazard = .ok plist ∧ plist.length < smrN ∧ ∀ v, v ∈ plist ↔ Held hazard v := by
  have hlength : (slots hazard.numThreads).length < smrN := by
    rw [length_slots, smrN]
    exact Nat.mul_lt_mul_of_pos_right hthreads (by decide)
  have hcollect := foldlM_collectSlot hazard (slots hazard.numThreads) []
    (by rw [List.length_nil]; omega)
  refine ⟨_, (if_pos hthreads).trans hcollect, ?_, fun v => ?_⟩
  · refine Nat.lt_of_le_of_lt (List.length_filter_le _ _) ?_
    rwa [List.length_map]
  · simp only [List.nil_append, List.mem_filter, List.mem_map, mem_slots, Held, ne_eq,
      decide_not, Bool.not_eq_eq_eq_not, Bool.not_true, decide_eq_false_iff_not]
    constructor
    · rintro ⟨⟨slot, hslot, rfl⟩, hnull⟩
      exact ⟨hnull, slot.1, hslot.1, slot.2, hslot.2, rfl⟩
    · rintro ⟨hnull, thrI, hthr, hpK, hhp, rfl⟩
      exact ⟨⟨(thrI, hpK), ⟨hthr, hhp⟩, rfl⟩, hnull⟩

/-! ## The loop over the list -/

/-- The list entry of a deferred free. -/
def Deferred.entry (e : Deferred κ) : DListEntry κ where
  v := e.v
  alloc := some e.alloc

/-- The list of a thread holds these pointers. -/
structure PerThread.Holds (s : PerThread κ) (entries : List (Deferred κ)) : Prop where
  dcount_eq : s.dcount = entries.length
  take_eq : s.dlist.toList.take s.dcount = entries.map Deferred.entry

/-- What the loop has done with the entries up to its index. -/
structure Scanned (hazard : Hazard) (dlist : Vector (DListEntry κ) smrR)
    (done : List (Deferred κ)) (st : ScanState κ) : Prop where
  newDcount_eq : st.newDcount = (done.filter fun e => Held hazard e.v).length
  take_eq : st.dlist.toList.take st.newDcount =
    (done.filter fun e => Held hazard e.v).map Deferred.entry
  drop_eq : st.dlist.toList.drop done.length = dlist.toList.drop done.length
  puts_eq : st.puts = done.filter fun e => ¬ Held hazard e.v

section Loop

variable {hazard : Hazard} {plist : List Nat} {dlist : Vector (DListEntry κ) smrR}

/-- No more entries are kept than scanned. -/
theorem Scanned.newDcount_le {done : List (Deferred κ)} {st : ScanState κ}
    (h : Scanned hazard dlist done st) : st.newDcount ≤ done.length := by
  rw [h.newDcount_eq]
  exact List.length_filter_le _ _

/-- The search of a nonempty sorted list. -/
theorem search_iff (hplist : ∀ v, v ∈ plist ↔ Held hazard v) (hsorted : plist.Pairwise (· ≤ ·))
    (v : Nat) :
    (decide (plist.length > 0) && binarySearch plist v 0 plist.length le_rfl) = true ↔
      Held hazard v := by
  rw [Bool.and_eq_true, decide_eq_true_iff, binarySearch_iff hsorted, hplist, and_iff_right_iff_imp]
  exact fun hheld => List.length_pos_of_mem ((hplist v).mpr hheld)

/-- A kept entry is written to the end of those that were kept. -/
theorem scanEntry_of_held {st : ScanState κ} {i : Nat} {e : Deferred κ}
    (hplist : ∀ v, v ∈ plist ↔ Held hazard v) (hsorted : plist.Pairwise (· ≤ ·))
    (hload : load st.dlist i = .ok e.entry) (hheld : Held hazard e.v)
    (hlt : st.newDcount < smrR) :
    scanEntry plist st i = .ok { st with
      dlist := st.dlist.set st.newDcount e.entry hlt
      newDcount := st.newDcount + 1 } := by
  rw [scanEntry, hload]
  refine (if_pos ((search_iff hplist hsorted e.v).mpr hheld)).trans ?_
  rw [store, dif_pos hlt]
  rfl

/-- An entry that no hazard holds is freed. -/
theorem scanEntry_of_not_held {st : ScanState κ} {i : Nat} {e : Deferred κ}
    (hplist : ∀ v, v ∈ plist ↔ Held hazard v) (hsorted : plist.Pairwise (· ≤ ·))
    (hload : load st.dlist i = .ok e.entry) (hheld : ¬ Held hazard e.v) (hlt : i < smrR) :
    scanEntry plist st i = .ok { st with
      dlist := st.dlist.set i { v := 0, alloc := none } hlt
      puts := st.puts ++ [e] } := by
  rw [scanEntry, hload]
  refine (if_neg (mt (search_iff hplist hsorted e.v).mp hheld)).trans ?_
  rw [store, dif_pos hlt]
  rfl

/-- One entry is kept or handed back. -/
theorem Scanned.step {done : List (Deferred κ)} {st : ScanState κ} {e : Deferred κ}
    (h : Scanned hazard dlist done st) (hplist : ∀ v, v ∈ plist ↔ Held hazard v)
    (hsorted : plist.Pairwise (· ≤ ·)) (hlt : done.length < smrR)
    (he : dlist[done.length] = e.entry) :
    ∃ st', scanEntry plist st done.length = .ok st' ∧ Scanned hazard dlist (done ++ [e]) st' := by
  have hload : load st.dlist done.length = .ok e.entry := by
    have hget := congrArg List.head? h.drop_eq
    rw [List.head?_drop, List.head?_drop] at hget
    rw [load, dif_pos hlt, ← he]
    simpa [hlt] using hget
  have hle := h.newDcount_le
  have hdrop : st.dlist.toList.drop (done.length + 1) = dlist.toList.drop (done.length + 1) := by
    rw [← List.drop_drop, h.drop_eq, List.drop_drop]
  by_cases hheld : Held hazard e.v
  · have hnew : st.newDcount < smrR := by omega
    refine ⟨_, scanEntry_of_held hplist hsorted hload hheld hnew, ?_, ?_, ?_, ?_⟩
    · simp [hheld, h.newDcount_eq]
    · have hlength : st.newDcount < st.dlist.toList.length := by rwa [Vector.length_toList]
      rw [Vector.toList_set, List.take_succ_eq_append_getElem (by rwa [List.length_set]),
        List.take_set_of_le le_rfl, List.getElem_set_self, h.take_eq]
      simp [hheld]
    · rw [Vector.toList_set, List.length_append, List.length_singleton,
        List.drop_set_of_lt (by omega), hdrop]
    · simp [hheld, h.puts_eq]
  · refine ⟨_, scanEntry_of_not_held hplist hsorted hload hheld hlt, ?_, ?_, ?_, ?_⟩
    · simp [hheld, h.newDcount_eq]
    · -- what was kept stands in front of the index
      rw [Vector.toList_set, List.take_set_of_le hle, h.take_eq]
      simp [hheld]
    · rw [Vector.toList_set, List.length_append, List.length_singleton,
        List.drop_set_of_lt (by omega), hdrop]
    · simp [hheld, h.puts_eq]

/-- The loop over the entries that are left. -/
theorem Scanned.loop {done rest : List (Deferred κ)} {behind : List (DListEntry κ)}
    {st : ScanState κ} (h : Scanned hazard dlist done st)
    (hplist : ∀ v, v ∈ plist ↔ Held hazard v) (hsorted : plist.Pairwise (· ≤ ·))
    (hrest : dlist.toList.drop done.length = rest.map Deferred.entry ++ behind) :
    ∃ st', (List.range' done.length rest.length).foldlM (scanEntry plist) st = .ok st' ∧
      Scanned hazard dlist (done ++ rest) st' := by
  induction rest generalizing done st with
  | nil =>
      rw [List.append_nil]
      exact ⟨st, rfl, h⟩
  | cons e rest ih =>
      have hfirst := congrArg List.head? hrest
      have hbehind := congrArg List.tail hrest
      rw [List.head?_drop] at hfirst
      rw [List.tail_drop] at hbehind
      obtain ⟨hlt, he⟩ := List.getElem?_eq_some_iff.mp hfirst
      rw [Vector.length_toList] at hlt
      obtain ⟨st', hstep, h'⟩ := h.step hplist hsorted hlt (e := e) (by simpa using he)
      have hlength : (done ++ [e]).length = done.length + 1 := by simp
      obtain ⟨st'', hloop, h''⟩ := ih h' (by rw [hlength]; exact hbehind)
      rw [hlength] at hloop
      refine ⟨st'', ?_, by simpa using h''⟩
      rw [List.length_cons, List.range'_succ]
      exact foldlM_cons_eq_ok.mpr ⟨st', hstep, hloop⟩

end Loop

/-! ## Whole scans -/

/-- The list has a bounded length. -/
theorem PerThread.Holds.length_le {s : PerThread κ} {entries : List (Deferred κ)}
    (h : s.Holds entries) : entries.length ≤ smrR := by
  have hlength := congrArg List.length h.take_eq
  rw [List.length_take, List.length_map, Vector.length_toList] at hlength
  omega

/-- Distinct pointers that are held are fewer than there are hazard slots. -/
theorem length_held_lt {hazard : Hazard} (hthreads : hazard.numThreads < smrP)
    {entries : List (Deferred κ)} (hnodup : (entries.map Deferred.v).Nodup) :
    (entries.filter fun e => Held hazard e.v).length < smrN := by
  obtain ⟨plist, -, hlength, hplist⟩ := collect_spec hthreads
  have hsublist := (List.filter_sublist (p := fun e => decide (Held hazard e.v))
    (l := entries)).map Deferred.v
  have hsubset : (entries.filter fun e => Held hazard e.v).map Deferred.v ⊆ plist := by
    intro v hv
    obtain ⟨e, he, rfl⟩ := List.mem_map.mp hv
    exact (hplist e.v).mpr (of_decide_eq_true (List.mem_filter.mp he).2)
  have hle := (List.subperm_of_subset (hnodup.sublist hsublist) hsubset).length_le
  rw [List.length_map] at hle
  omega

/-- A scan keeps the pointers that a hazard pointer holds, in their order, and hands back the
others. -/
theorem scan_spec {hazard : Hazard} {s : PerThread κ} {entries : List (Deferred κ)}
    (hthreads : hazard.numThreads < smrP) (h : s.Holds entries) :
    ∃ s', scan hazard s = .ok (s', entries.filter fun e => ¬ Held hazard e.v) ∧
      s'.Holds (entries.filter fun e => Held hazard e.v) := by
  obtain ⟨plist, hcollect, -, hplist⟩ := collect_spec hthreads
  have hsorted : (plist.insertionSort (· ≤ ·)).Pairwise (· ≤ ·) :=
    List.pairwise_insertionSort _ _
  have hmem : ∀ v, v ∈ plist.insertionSort (· ≤ ·) ↔ Held hazard v := fun v => by
    rw [List.mem_insertionSort, hplist]
  have hstart : Scanned hazard s.dlist [] { dlist := s.dlist, newDcount := 0, puts := [] } :=
    ⟨rfl, rfl, rfl, rfl⟩
  have hentries : s.dlist.toList.drop 0 =
      entries.map Deferred.entry ++ s.dlist.toList.drop s.dcount := by
    rw [← h.take_eq, List.take_append_drop, List.drop_zero]
  obtain ⟨st, hloop, hst⟩ := hstart.loop hmem hsorted hentries
  rw [List.nil_append] at hst
  refine ⟨{ dlist := st.dlist, dcount := st.newDcount }, ?_, hst.newDcount_eq, hst.take_eq⟩
  rw [scan, hcollect]
  refine bind_eq_ok.mpr ⟨plist, rfl, bind_eq_ok.mpr ⟨st, ?_, ?_⟩⟩
  · rw [h.dcount_eq, List.range_eq_range']
    exact hloop
  · rw [← hst.puts_eq]
    rfl

/-- Between two calls the list has room, and no pointer is in it twice. -/
structure PerThread.Defers (s : PerThread κ) (entries : List (Deferred κ)) : Prop
    extends s.Holds entries where
  nodup : (entries.map Deferred.v).Nodup
  length_lt : entries.length < smrR

/-- A scan leaves the entries that hazards hold. -/
theorem holds_of_scan {hazard : Hazard} {s : PerThread κ} {entries : List (Deferred κ)}
    (hthreads : hazard.numThreads < smrP) (h : s.Holds entries)
    (hnodup : (entries.map Deferred.v).Nodup) :
    ∃ s', scan hazard s = .ok (s', entries.filter fun e => ¬ Held hazard e.v) ∧
      s'.Defers (entries.filter fun e => Held hazard e.v) := by
  obtain ⟨s', hscan, hholds⟩ := scan_spec hthreads h
  refine ⟨s', hscan, hholds, hnodup.sublist (List.filter_sublist.map _), ?_⟩
  have hlt := length_held_lt hthreads hnodup
  have hbatch : smrN ≤ smrR := by decide
  omega

/-! ## Calls one after another -/

/-- A call of {lit}`defer_put`, with what the hazard pointers hold during it. -/
structure DeferCall (κ : Type) where
  v : Nat
  ai : κ
  hazard : Hazard

/-- The free that a call defers. -/
def DeferCall.deferred (c : DeferCall κ) : Deferred κ where
  v := c.v
  alloc := c.ai

/-- The calls of one thread, with what each of them hands back. -/
def deferAll (s : PerThread κ) :
    List (DeferCall κ) → Except Failure (PerThread κ × List (List (Deferred κ)))
  | [] => .ok (s, [])
  | c :: calls => do
      let (s, puts) ← deferPut c.hazard s c.v c.ai
      let (s, answers) ← deferAll s calls
      return (s, puts :: answers)

/-- There are fewer threads than the bound, and no call defers a pointer that is still deferred. -/
def Fresh (s : PerThread κ) : List (DeferCall κ) → Prop
  | [] => True
  | c :: calls => c.hazard.numThreads < smrP ∧
      (∀ ent ∈ s.dlist.toList.take s.dcount, ent.v ≠ c.v) ∧
      ∀ s' puts, deferPut c.hazard s c.v c.ai = .ok (s', puts) → Fresh s' calls

/-- A pointer is put behind the others. -/
theorem PerThread.Holds.push {s : PerThread κ} {entries : List (Deferred κ)} (h : s.Holds entries)
    (e : Deferred κ) (hlt : s.dcount < smrR) :
    PerThread.Holds { dlist := s.dlist.set s.dcount e.entry hlt, dcount := s.dcount + 1 }
      (entries ++ [e]) := by
  refine ⟨by simp [h.dcount_eq], ?_⟩
  have hlength : s.dcount < s.dlist.toList.length := by rwa [Vector.length_toList]
  rw [Vector.toList_set, List.take_succ_eq_append_getElem (by rwa [List.length_set]),
    List.take_set_of_le le_rfl, List.getElem_set_self, h.take_eq, List.map_append]
  rfl

/-- What a call takes, hands back and leaves. -/
theorem PerThread.Defers.deferPut {s : PerThread κ} {entries : List (Deferred κ)}
    {c : DeferCall κ} (h : s.Defers entries) (hthreads : c.hazard.numThreads < smrP)
    (hfresh : ∀ ent ∈ s.dlist.toList.take s.dcount, ent.v ≠ c.v) :
    ∃ s' puts left, Smr.deferPut c.hazard s c.v c.ai = .ok (s', puts) ∧ s'.Defers left ∧
      (entries ++ [c.deferred]).Perm (puts ++ left) ∧ ∀ e ∈ puts, ¬ Held c.hazard e.v := by
  have hlt : s.dcount < smrR := by
    rw [h.dcount_eq]
    exact h.length_lt
  have hpush := h.toHolds.push c.deferred hlt
  have hnew : c.v ∉ entries.map Deferred.v := by
    intro hmem
    obtain ⟨e, he, hv⟩ := List.mem_map.mp hmem
    refine hfresh e.entry ?_ hv
    rw [h.take_eq]
    exact List.mem_map_of_mem he
  have hnodup : ((entries ++ [c.deferred]).map Deferred.v).Nodup := by
    rw [List.map_append]
    exact h.nodup.append (List.nodup_singleton _) (List.disjoint_singleton.mpr hnew)
  have hstore : store s.dlist s.dcount { v := c.v, alloc := some c.ai } =
      .ok (s.dlist.set s.dcount c.deferred.entry hlt) := dif_pos hlt
  by_cases hfull : s.dcount + 1 ≥ smrR
  · obtain ⟨s', hscan, hdefers⟩ := holds_of_scan hthreads hpush hnodup
    have hroom : s'.dcount < smrR := by
      rw [hdefers.dcount_eq]
      exact hdefers.length_lt
    refine ⟨s', (entries ++ [c.deferred]).filter fun e => ¬ Held c.hazard e.v, _, ?_, hdefers, ?_,
      fun e he => ?_⟩
    · rw [Smr.deferPut, hstore]
      exact bind_eq_ok.mpr ⟨_, rfl, bind_eq_ok.mpr ⟨_, (if_pos hfull).trans hscan, if_pos hroom⟩⟩
    · have hsplit := List.filter_append_perm (fun e => decide (Held c.hazard e.v))
        (entries ++ [c.deferred])
      simp only [← decide_not] at hsplit
      exact hsplit.symm.trans List.perm_append_comm
    · exact of_decide_eq_true (List.mem_filter.mp he).2
  · refine ⟨_, [], entries ++ [c.deferred], ?_, ⟨hpush, hnodup, ?_⟩, List.Perm.refl _,
      fun e he => ?_⟩
    · rw [Smr.deferPut, hstore]
      refine bind_eq_ok.mpr ⟨_, rfl, bind_eq_ok.mpr ⟨_, if_neg hfull, if_pos ?_⟩⟩
      exact Nat.lt_of_not_ge hfull
    · rw [← hpush.dcount_eq]
      exact Nat.lt_of_not_ge hfull
    · cases he

/-- What is deferred comes back once, or is still deferred. -/
theorem deferAll_spec {calls : List (DeferCall κ)} {s : PerThread κ} {entries : List (Deferred κ)}
    (h : s.Defers entries) (hfresh : Fresh s calls) :
    ∃ s' answers left, deferAll s calls = .ok (s', answers) ∧ s'.Defers left ∧
      (entries ++ calls.map DeferCall.deferred).Perm (answers.flatten ++ left) ∧
      List.Forall₂ (fun c puts => ∀ e ∈ puts, ¬ Held c.hazard e.v) calls answers := by
  induction calls generalizing s entries with
  | nil =>
      refine ⟨s, [], entries, rfl, h, ?_, .nil⟩
      rw [List.map_nil, List.append_nil, List.flatten_nil, List.nil_append]
  | cons c calls ih =>
      obtain ⟨hthreads, hnew, hrest⟩ := hfresh
      obtain ⟨s1, puts, left1, hcall, hdefers, hperm, hputs⟩ := h.deferPut hthreads hnew
      obtain ⟨s2, answers, left2, hcalls, hdefers2, hperm2, hanswers⟩ :=
        ih hdefers (hrest s1 puts hcall)
      refine ⟨s2, puts :: answers, left2, ?_, hdefers2, ?_, .cons hputs hanswers⟩
      · exact bind_eq_ok.mpr ⟨_, hcall, bind_eq_ok.mpr ⟨_, hcalls, rfl⟩⟩
      · have hrest := hperm2.append_left puts
        rw [← List.append_assoc] at hrest
        rw [List.map_cons, List.append_cons, List.flatten_cons, List.append_assoc puts]
        exact (hperm.append_right _).trans hrest

/-- Nothing is deferred at the start. -/
theorem defers_initPerThread : (initPerThread : PerThread κ).Defers [] where
  dcount_eq := rfl
  take_eq := rfl
  nodup := List.nodup_nil
  length_lt := by
    rw [List.length_nil]
    decide

/-- A scan keeps exactly what a hazard pointer holds, in order, hands the rest to its allocators and
makes room; so over any calls of a thread every pointer comes back once or is still deferred, none
comes back while a hazard pointer holds it, and nothing fails. -/
theorem scan_exact (κ : Type) :
    (∀ (hazard : Hazard) (s : PerThread κ) (entries : List (Deferred κ)),
      hazard.numThreads < smrP → s.Holds entries → (entries.map Deferred.v).Nodup →
      ∃ s', scan hazard s = .ok (s', entries.filter fun e => ¬ Held hazard e.v) ∧
        s'.Holds (entries.filter fun e => Held hazard e.v) ∧ s'.dcount < smrR) ∧
    ∀ calls : List (DeferCall κ), Fresh initPerThread calls →
      ∃ s' answers left, deferAll initPerThread calls = .ok (s', answers) ∧ s'.Holds left ∧
        s'.dcount < smrR ∧ (calls.map DeferCall.deferred).Perm (answers.flatten ++ left) ∧
        List.Forall₂ (fun c puts => ∀ e ∈ puts, ¬ Held c.hazard e.v) calls answers := by
  refine ⟨fun hazard s entries hthreads h hnodup => ?_, fun calls hfresh => ?_⟩
  · obtain ⟨s', hscan, hdefers⟩ := holds_of_scan hthreads h hnodup
    exact ⟨s', hscan, hdefers.toHolds, hdefers.dcount_eq ▸ hdefers.length_lt⟩
  · obtain ⟨s', answers, left, hcalls, hdefers, hperm, hputs⟩ :=
      deferAll_spec defers_initPerThread hfresh
    exact ⟨s', answers, left, hcalls, hdefers.toHolds, hdefers.dcount_eq ▸ hdefers.length_lt, hperm,
      hputs⟩

/-- Calls are fresh when each of them defers another pointer. -/
theorem PerThread.Defers.fresh {s : PerThread κ} {entries : List (Deferred κ)}
    {calls : List (DeferCall κ)} (h : s.Defers entries)
    (hthreads : ∀ c ∈ calls, c.hazard.numThreads < smrP)
    (hnodup : (entries.map Deferred.v ++ calls.map DeferCall.v).Nodup) : Fresh s calls := by
  induction calls generalizing s entries with
  | nil => trivial
  | cons c calls ih =>
      rw [List.forall_mem_cons] at hthreads
      rw [List.map_cons, List.append_cons] at hnodup
      have hnew : ∀ ent ∈ s.dlist.toList.take s.dcount, ent.v ≠ c.v := by
        intro ent hent heq
        rw [h.take_eq] at hent
        obtain ⟨e, he, rfl⟩ := List.mem_map.mp hent
        have hdisjoint := List.disjoint_of_nodup_append (List.nodup_append.mp hnodup).1
        exact hdisjoint (List.mem_map_of_mem he) (List.mem_singleton.mpr heq)
      refine ⟨hthreads.1, hnew, fun s' puts hcall => ?_⟩
      obtain ⟨s1, puts1, left, hcall1, hdefers, hperm, -⟩ := h.deferPut hthreads.1 hnew
      obtain ⟨rfl, -⟩ := Prod.mk.inj (Except.ok.inj (hcall1.symm.trans hcall))
      have hsplit := ((hperm.map Deferred.v).append_right (calls.map DeferCall.v)).nodup_iff.mp
        (by simpa [DeferCall.deferred] using hnodup)
      rw [List.map_append, List.append_assoc] at hsplit
      exact ih hdefers hthreads.2 (List.nodup_append.mp hsplit).2.1

/-- One thread holds the pointer 8. -/
def hazardOfEight : Hazard where
  numThreads := 1
  h := fun _ hpK => if hpK = 0 then 8 else 0

/-- Calls that defer one pointer after the other until the list is full; the first one of them is
held. -/
def deferMany : List (DeferCall Unit) :=
  (List.range smrR).map fun i => { v := 8 * (i + 1), ai := (), hazard := hazardOfEight }

/-- The calls of the example see one hazard. -/
theorem hazard_of_mem_deferMany {c : DeferCall Unit} (hc : c ∈ deferMany) :
    c.hazard = hazardOfEight := by
  obtain ⟨i, -, rfl⟩ := List.mem_map.mp hc
  rfl

/-- The calls of the example defer fresh addresses. -/
theorem fresh_deferMany : Fresh initPerThread deferMany := by
  refine defers_initPerThread.fresh (fun c hc => ?_) ?_
  · rw [hazard_of_mem_deferMany hc]
    decide
  · rw [deferMany, List.map_map]
    refine List.nodup_range.map fun i j hij => ?_
    have heq : 8 * (i + 1) = 8 * (j + 1) := hij
    omega

/-- The list holds a pointer that a hazard pointer holds, and another one. -/
def listOfTwo : PerThread Unit where
  dlist := (Vector.replicate smrR { v := 16, alloc := some () }).set 0 { v := 8, alloc := some () }
  dcount := 2

/-- A scan of two pointers hands back one of them.  The last one of many calls hands back something
as well, and the pointer that is held is still deferred. -/
theorem scan_exact_deferMany :
    (∃ s', scan hazardOfEight listOfTwo = .ok (s', [{ v := 16, alloc := () }]) ∧
      s'.Holds [{ v := 8, alloc := () }] ∧ s'.dcount < smrR) ∧
    ∃ s' answers left, deferAll initPerThread deferMany = .ok (s', answers) ∧ s'.Holds left ∧
      s'.dcount < smrR ∧ (deferMany.map DeferCall.deferred).Perm (answers.flatten ++ left) ∧
      answers.flatten ≠ [] ∧ { v := 8, alloc := () } ∈ left := by
  refine ⟨(scan_exact Unit).1 hazardOfEight listOfTwo
    [{ v := 8, alloc := () }, { v := 16, alloc := () }] (by decide) ⟨rfl, by decide⟩ (by decide),
    ?_⟩
  obtain ⟨s', answers, left, hcalls, hleft, hroom, hperm, hputs⟩ :=
    (scan_exact Unit).2 deferMany fresh_deferMany
  refine ⟨s', answers, left, hcalls, hleft, hroom, hperm, fun hnone => ?_, ?_⟩
  · -- more was deferred than fits
    have hlength := hperm.length_eq
    rw [hnone, List.nil_append, ← hleft.dcount_eq, List.length_map, deferMany, List.length_map,
      List.length_range] at hlength
    omega
  · have hmem : ({ v := 8, alloc := () } : Deferred Unit) ∈ answers.flatten ++ left :=
      hperm.mem_iff.mp (List.mem_map_of_mem (List.mem_map_of_mem (List.mem_range.mpr
        (show 0 < smrR by decide))))
    refine (List.mem_append.mp hmem).resolve_left fun hback => ?_
    obtain ⟨puts, hmem, he⟩ := List.mem_flatten.mp hback
    obtain ⟨i, hi, rfl⟩ := List.getElem_of_mem hmem
    have hlt : i < deferMany.length := hputs.length_eq ▸ hi
    have hback := hputs.get hlt hi _ he
    rw [hazard_of_mem_deferMany (List.get_mem _ _)] at hback
    exact hback (by decide)

end Smr
end Lockfree
end OFlux
