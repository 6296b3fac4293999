import Mathlib.Data.Finset.SDiff
import OFlux.Library.TransitionSystem
import OFlux.Lockfree.HazardPointers

/-!
# Hazard pointers under interleavings

Threads read shared pointers while others defer, scan and hand back.  Every read and write of a
shared pointer or of a hazard pointer is one step; a scan reads the slots one after another and
treats one entry of its list at a time, and threads can start during a scan.

The data structures keep their part: they store only pointers that are allocated and not deferred,
and defer a pointer once, when no shared pointer holds it.

Main results:

- Theorem {lit}`Invariant.step`: what one step keeps.
- Theorem {lit}`checked_not_handed_back`: a pointer that a thread has checked stays allocated, every
  deferred pointer comes back once or is still deferred, and no scan fails.
- Theorem {lit}`failed_of_smrP_le`: too many threads make every scan fail.
- Theorem {lit}`counted_of_inOrder`: threads that start in the order of their indices are counted.
-/

namespace OFlux
namespace Lockfree
namespace Smr

open Library

variable {L κ : Type}

/-! ## State -/

/-- Where a thread is in {lit}`HAZARD_PTR_ASSIGN` for one of its hazard pointers. -/
inductive Reader (L : Type) where
  | idle
  | read (l : L) (v : Nat)
  | set (l : L) (v : Nat)
  | checked (v : Nat)

/-- Where a thread is in {lit}`scan`; {lit}`h` is what it has read from the slots. -/
inductive Scanner (κ : Type) where
  | idle
  | collecting (thrI hpK : Nat) (h : Nat → Nat → Nat)
  | sweeping (plist : List Nat) (dlI : Nat) (st : ScanState κ)
  | failed (why : Failure)

/-- Assign one slot of a table. -/
def setSlot {α : Type} (f : Nat → Nat → α) (i k : Nat) (a : α) : Nat → Nat → α :=
  fun i' k' => if i' = i ∧ k' = k then a else f i' k'

/-- The shared pointers, the hazard pointers, and the lists of the threads.  What each thread has
deferred and handed back is noted. -/
structure SharedSmr (L κ : Type) where
  numThreads : Nat := 0
  started : Finset Nat := ∅
  cell : L → Nat := fun _ => 0
  hazard : Nat → Nat → Nat := fun _ _ => 0
  reader : Nat → Nat → Reader L := fun _ _ => .idle
  list : Nat → PerThread κ := fun _ => initPerThread
  scanner : Nat → Scanner κ := fun _ => .idle
  allocated : Finset Nat := ∅
  retired : Finset Nat := ∅
  deferred : Nat → List (Deferred κ) := fun _ => []
  handed : Nat → List (Deferred κ) := fun _ => []

namespace Scanner

/-- The assertion before the first stage. -/
def start (numThreads : Nat) : Scanner κ :=
  if numThreads < smrP then .collecting 0 0 fun _ _ => 0 else .failed .assertion

/-- The second stage, before the loop over the list. -/
def sort (list : PerThread κ) : Except Failure (List Nat) → Scanner κ
  | .ok plist =>
      .sweeping (plist.insertionSort (· ≤ ·)) 0 { dlist := list.dlist, newDcount := 0, puts := [] }
  | .error why => .failed why

/-- The assertion at the end of {lit}`defer_put`. -/
def finish (dcount : Nat) : Scanner κ :=
  if dcount < smrR then .idle else .failed .assertion

end Scanner

namespace SharedSmr

/-- Moves hazard `k` of thread `i` to its next step. -/
@[simps]
def setReader (s : SharedSmr L κ) (i k : Nat) (r : Reader L) : SharedSmr L κ :=
  { s with reader := setSlot s.reader i k r }

/-- Publishes an address in hazard `k` of thread `i`. -/
@[simps]
def setHazard (s : SharedSmr L κ) (i k v : Nat) : SharedSmr L κ :=
  { s with hazard := setSlot s.hazard i k v }

/-- Writes the deferred frees of thread `j`. -/
@[simps]
def setList (s : SharedSmr L κ) (j : Nat) (list : PerThread κ) : SharedSmr L κ :=
  { s with list := Function.update s.list j list }

/-- Moves the scan of thread `j` to its next step. -/
@[simps]
def setScanner (s : SharedSmr L κ) (j : Nat) (sc : Scanner κ) : SharedSmr L κ :=
  { s with scanner := Function.update s.scanner j sc }

/-- The pointer is noted as deferred. -/
@[simps]
def retire (s : SharedSmr L κ) (j : Nat) (e : Deferred κ) : SharedSmr L κ :=
  { s with
    retired := insert e.v s.retired
    deferred := Function.update s.deferred j (s.deferred j ++ [e]) }

/-- The allocators get pointers back. -/
@[simps]
def handBack (s : SharedSmr L κ) (j : Nat) (puts : List (Deferred κ)) : SharedSmr L κ :=
  { s with
    allocated := s.allocated \ (puts.map Deferred.v).toFinset
    retired := s.retired \ (puts.map Deferred.v).toFinset
    handed := Function.update s.handed j (s.handed j ++ puts) }

/-! ## Steps -/

/-- One access by a reader, a writer or a scan. -/
inductive Action (L κ : Type) where
  | init (i : Nat)
  | alloc (p : Nat)
  | write (l : L) (v : Nat)
  | read (i k : Nat) (l : L)
  | set (i k : Nat)
  | check (i k : Nat)
  | release (i k : Nat)
  | deferPut (j v : Nat) (ai : κ)
  | scan (j : Nat)

/-- One step of a thread. -/
inductive Step [DecidableEq L] (s : SharedSmr L κ) : Action L κ → SharedSmr L κ → Prop where
  | init {i : Nat} :
      i ∉ s.started →
      Step s (.init i) { s with numThreads := s.numThreads + 1, started := insert i s.started }
  | alloc {p : Nat} :
      p ≠ 0 → p ∉ s.allocated → Step s (.alloc p) { s with allocated := insert p s.allocated }
  | write {l : L} {v : Nat} :
      v = 0 ∨ v ∈ s.allocated ∧ v ∉ s.retired →
      Step s (.write l v) { s with cell := Function.update s.cell l v }
  | read {i k : Nat} {l : L} :
      i ∈ s.started → k < smrK → Step s (.read i k l) (s.setReader i k (.read l (s.cell l)))
  | set {i k : Nat} {l : L} {v : Nat} :
      s.reader i k = .read l v → k < smrK →
      Step s (.set i k) ((s.setHazard i k v).setReader i k (.set l v))
  | check {i k : Nat} {l : L} {v : Nat} :
      s.reader i k = .set l v → s.cell l = v → Step s (.check i k) (s.setReader i k (.checked v))
  | checkFails {i k : Nat} {l : L} {v : Nat} :
      s.reader i k = .set l v → s.cell l ≠ v → Step s (.check i k) (s.setReader i k .idle)
  | release {i k : Nat} :
      i ∈ s.started → k < smrK →
      Step s (.release i k) ((s.setHazard i k 0).setReader i k .idle)
  | deferPut {j v : Nat} {a : κ} {dlist : Vector (DListEntry κ) smrR} :
      j ∈ s.started → s.scanner j = .idle → v ≠ 0 → v ∈ s.allocated → v ∉ s.retired →
      (∀ l, s.cell l ≠ v) →
      store (s.list j).dlist (s.list j).dcount { v := v, alloc := some a } = .ok dlist →
      Step s (.deferPut j v a)
        (((s.retire j { v := v, alloc := a }).setList j
          { dlist := dlist, dcount := (s.list j).dcount + 1 }).setScanner j
            (if (s.list j).dcount + 1 ≥ smrR then .start s.numThreads
              else .finish ((s.list j).dcount + 1)))
  | deferPutFails {j v : Nat} {ai : κ} {why : Failure} :
      s.scanner j = .idle →
      store (s.list j).dlist (s.list j).dcount { v := v, alloc := some ai } = .error why →
      Step s (.deferPut j v ai) (s.setScanner j (.failed why))
  | readSlot {j thrI hpK : Nat} {h : Nat → Nat → Nat} :
      s.scanner j = .collecting thrI hpK h → thrI < s.numThreads → hpK < smrK →
      Step s (.scan j)
        (s.setScanner j (.collecting thrI (hpK + 1) (setSlot h thrI hpK (s.hazard thrI hpK))))
  | nextThread {j thrI hpK : Nat} {h : Nat → Nat → Nat} :
      s.scanner j = .collecting thrI hpK h → thrI < s.numThreads → ¬ hpK < smrK →
      Step s (.scan j) (s.setScanner j (.collecting (thrI + 1) 0 h))
  | sort {j thrI hpK : Nat} {h : Nat → Nat → Nat} :
      s.scanner j = .collecting thrI hpK h → ¬ thrI < s.numThreads →
      Step s (.scan j)
        (s.setScanner j (.sort (s.list j) (collect { numThreads := thrI, h := h })))
  | sweep {j dlI : Nat} {plist : List Nat} {st st' : ScanState κ} :
      s.scanner j = .sweeping plist dlI st → dlI < (s.list j).dcount →
      scanEntry plist st dlI = .ok st' →
      Step s (.scan j)
        ((s.handBack j (st'.puts.drop st.puts.length)).setScanner j
          (.sweeping plist (dlI + 1) st'))
  | sweepFails {j dlI : Nat} {plist : List Nat} {st : ScanState κ} {why : Failure} :
      s.scanner j = .sweeping plist dlI st → dlI < (s.list j).dcount →
      scanEntry plist st dlI = .error why →
      Step s (.scan j) (s.setScanner j (.failed why))
  | finish {j dlI : Nat} {plist : List Nat} {st : ScanState κ} :
      s.scanner j = .sweeping plist dlI st → ¬ dlI < (s.list j).dcount →
      Step s (.scan j)
        ((s.setList j { dlist := st.dlist, dcount := st.newDcount }).setScanner j
          (.finish st.newDcount))

variable (L κ) in
/-- Readers, writers and scans over the shared hazards, one access a step. -/
def system [DecidableEq L] : TransitionSystem (SharedSmr L κ) (Action L κ) where
  init s := s = {}
  step := Step

/-- A thread that sets a hazard pointer is counted: a scan looks at its slots. -/
def Counted (s : SharedSmr L κ) (action : Action L κ) (_t : SharedSmr L κ) : Prop :=
  ∀ i k, action = .set i k → i < s.numThreads

/-- The threads start in the order of their indices. -/
def InOrder (s : SharedSmr L κ) (action : Action L κ) (_t : SharedSmr L κ) : Prop :=
  ∀ i, action = .init i → i = s.numThreads

/-! ## What the threads may rely on -/

/-- A thread that has set a hazard pointer is counted. -/
def ReaderSound (s : SharedSmr L κ) (i k : Nat) : Reader L → Prop
  | .set _ v => i < s.numThreads ∧ k < smrK ∧ s.hazard i k = v
  | .checked v =>
      i < s.numThreads ∧ k < smrK ∧ s.hazard i k = v ∧ (v ≠ 0 → v ∈ s.allocated)
  | _ => True

/-- A thread uses a pointer that it has checked. -/
def Uses (s : SharedSmr L κ) (i k v : Nat) : Prop :=
  s.reader i k = .checked v

/-- The loop over the list has treated the entries {lit}`done`; what stays is {lit}`left`. -/
structure Sweep (uses : Nat → Nat → Nat → Prop) (list : PerThread κ) (left : List (Deferred κ))
    (plist : List Nat) (dlI : Nat) (st : ScanState κ) (hazard : Hazard)
    (done rest : List (Deferred κ)) : Prop where
  bound : hazard.numThreads < smrP
  mem_iff : ∀ v, v ∈ plist ↔ Held hazard v
  sorted : plist.Pairwise (· ≤ ·)
  holds : list.Holds (done ++ rest)
  nodup : ((done ++ rest).map Deferred.v).Nodup
  index : dlI = done.length
  scanned : Scanned hazard list.dlist done st
  left : left = (done.filter fun e => Held hazard e.v) ++ rest
  uses : ∀ i k v, uses i k v → v ∈ rest.map Deferred.v → Held hazard v

/-- A scan has seen the deferred pointers in use in the slots that it has read. -/
def ScannerSound (uses : Nat → Nat → Nat → Prop) (numThreads : Nat) (list : PerThread κ)
    (left : List (Deferred κ)) : Scanner κ → Prop
  | .idle => list.Defers left
  | .collecting thrI hpK h => list.Holds left ∧ thrI ≤ numThreads ∧
      ∀ i k v, uses i k v → v ∈ left.map Deferred.v → i < thrI ∨ i = thrI ∧ k < hpK → h i k = v
  | .sweeping plist dlI st => ∃ hazard done rest, Sweep uses list left plist dlI st hazard done rest
  | .failed _ => False

/-- {lit}`left` are the pointers that each thread has deferred and not handed back. -/
structure Invariant (s : SharedSmr L κ) (left : Nat → List (Deferred κ)) : Prop where
  bound : s.numThreads < smrP
  reader : ∀ i k, s.ReaderSound i k (s.reader i k)
  scanner : ∀ j, ScannerSound s.Uses s.numThreads (s.list j) (left j) (s.scanner j)
  retired : ∀ v, v ∈ s.retired ↔ ∃ j, v ∈ (left j).map Deferred.v
  apart : ∀ i j v, v ∈ (left i).map Deferred.v → v ∈ (left j).map Deferred.v → i = j
  nodup : ∀ j, ((left j).map Deferred.v).Nodup
  live : ∀ v ∈ s.retired, v ≠ 0 ∧ v ∈ s.allocated
  cell : ∀ l, s.cell l = 0 ∨ s.cell l ∈ s.allocated ∧ s.cell l ∉ s.retired
  deferred : ∀ j, (s.deferred j).Perm (s.handed j ++ left j)

theorem setSlot_self {α : Type} (f : Nat → Nat → α) (i k : Nat) (a : α) :
    setSlot f i k a i k = a :=
  if_pos ⟨rfl, rfl⟩

theorem setSlot_of_ne {α : Type} (f : Nat → Nat → α) {i k i' k' : Nat} (a : α)
    (h : ¬ (i' = i ∧ k' = k)) : setSlot f i k a i' k' = f i' k' :=
  if_neg h

theorem start_eq {n : Nat} (h : n < smrP) :
    (Scanner.start n : Scanner κ) = .collecting 0 0 fun _ _ => 0 :=
  if_pos h

theorem finish_eq {n : Nat} (h : n < smrR) : (Scanner.finish n : Scanner κ) = .idle :=
  if_pos h

/-- What a thread knows of its list does not depend on the pointers that others defer. -/
theorem ScannerSound.mono {uses uses' : Nat → Nat → Nat → Prop} {n n' : Nat} {list : PerThread κ}
    {left : List (Deferred κ)} {sc : Scanner κ} (h : ScannerSound uses n list left sc)
    (hn : n ≤ n') (huses : ∀ i k v, uses' i k v → v ∈ left.map Deferred.v → uses i k v) :
    ScannerSound uses' n' list left sc := by
  cases sc with
  | idle => exact h
  | collecting thrI hpK slots =>
      obtain ⟨hholds, hle, hseen⟩ := h
      exact ⟨hholds, hle.trans hn, fun i k v hv hleft => hseen i k v (huses i k v hv hleft) hleft⟩
  | sweeping plist dlI st =>
      obtain ⟨hazard, done, rest, hsweep⟩ := h
      refine ⟨hazard, done, rest, { hsweep with uses := fun i k v hv hrest => ?_ }⟩
      refine hsweep.uses i k v (huses i k v hv ?_) hrest
      rw [hsweep.left, List.map_append]
      exact List.mem_append_right _ hrest
  | failed why => exact h

theorem ReaderSound.congr {s t : SharedSmr L κ} {i k : Nat} {r : Reader L}
    (h : s.ReaderSound i k r) (hnum : s.numThreads ≤ t.numThreads)
    (hhazard : t.hazard i k = s.hazard i k)
    (hallocated : ∀ v, r = .checked v → v ∈ s.allocated → v ∈ t.allocated) :
    t.ReaderSound i k r := by
  cases r with
  | idle => trivial
  | read l v => trivial
  | set l v =>
      obtain ⟨hi, hk, hv⟩ := h
      exact ⟨hi.trans_le hnum, hk, hhazard.trans hv⟩
  | checked v =>
      obtain ⟨hi, hk, hv, hmem⟩ := h
      exact ⟨hi.trans_le hnum, hk, hhazard.trans hv, fun hne => hallocated v rfl (hmem hne)⟩

/-- The first entry of the rest is kept or handed back. -/
theorem Sweep.step {uses : Nat → Nat → Nat → Prop} {list : PerThread κ} {left : List (Deferred κ)}
    {plist : List Nat} {dlI : Nat} {st : ScanState κ} {hazard : Hazard}
    {done rest : List (Deferred κ)} {e : Deferred κ}
    (h : Sweep uses list left plist dlI st hazard done (e :: rest)) :
    ∃ st', scanEntry plist st dlI = .ok st' ∧
      st'.puts.drop st.puts.length = (if Held hazard e.v then [] else [e]) ∧
      Sweep uses list ((done ++ [e]).filter (fun e => Held hazard e.v) ++ rest) plist (dlI + 1) st'
        hazard (done ++ [e]) rest := by
  have hsplit : done ++ e :: rest = done ++ [e] ++ rest := List.append_cons done e rest
  have hlt : done.length < list.dcount := by
    rw [h.holds.dcount_eq]
    simp
  have hlength := h.holds.length_le
  rw [← h.holds.dcount_eq] at hlength
  have hentry : list.dlist[done.length] = e.entry := by
    have hget := congrArg (·[done.length]?) h.holds.take_eq
    rw [List.getElem?_take_of_lt hlt] at hget
    simpa [hlt.trans_le hlength] using hget
  obtain ⟨st', hstep, hscanned⟩ := h.scanned.step h.mem_iff h.sorted (hlt.trans_le hlength) hentry
  refine ⟨st', h.index ▸ hstep, ?_, { h with
    holds := hsplit ▸ h.holds
    nodup := hsplit ▸ h.nodup
    index := by simp [h.index]
    scanned := hscanned
    left := rfl
    uses := fun i k v hv hrest => h.uses i k v hv (List.mem_cons_of_mem _ hrest) }⟩
  rw [hscanned.puts_eq, h.scanned.puts_eq, List.filter_append, List.drop_left]
  by_cases hheld : Held hazard e.v <;> simp [hheld]

/-- As long as the loop goes on, there is an entry left. -/
theorem Sweep.exists_cons {uses : Nat → Nat → Nat → Prop} {list : PerThread κ}
    {left : List (Deferred κ)} {plist : List Nat} {dlI : Nat} {st : ScanState κ} {hazard : Hazard}
    {done rest : List (Deferred κ)} (h : Sweep uses list left plist dlI st hazard done rest)
    (hlt : dlI < list.dcount) : ∃ e rest', rest = e :: rest' := by
  have hlength := h.holds.dcount_eq
  have hindex := h.index
  rw [List.length_append] at hlength
  exact List.exists_cons_of_length_pos (by omega)

/-- The loop ends with what the hazard pointers have held. -/
theorem Sweep.finish {uses : Nat → Nat → Nat → Prop} {list : PerThread κ}
    {left : List (Deferred κ)} {plist : List Nat} {dlI : Nat} {st : ScanState κ} {hazard : Hazard}
    {done rest : List (Deferred κ)} (h : Sweep uses list left plist dlI st hazard done rest)
    (hend : ¬ dlI < list.dcount) :
    rest = [] ∧ st.newDcount < smrR ∧
      PerThread.Defers { dlist := st.dlist, dcount := st.newDcount } left := by
  have hlength := h.holds.dcount_eq
  have hindex := h.index
  rw [List.length_append] at hlength
  have hrest : rest = [] := List.length_eq_zero_iff.mp (by omega)
  subst hrest
  have hleft := h.left
  have hnodup := h.nodup
  rw [List.append_nil] at hleft hnodup
  subst hleft
  have hlt := length_held_lt h.bound hnodup
  have hbatch : smrN ≤ smrR := by decide
  refine ⟨rfl, ?_, ⟨h.scanned.newDcount_eq, h.scanned.take_eq⟩,
    hnodup.sublist (List.filter_sublist.map _), ?_⟩
  · rw [h.scanned.newDcount_eq]
    omega
  · omega

namespace Invariant

variable {s : SharedSmr L κ} {left : Nat → List (Deferred κ)}

theorem initial : Invariant ({} : SharedSmr L κ) fun _ => [] where
  bound := show 0 < smrP by decide
  reader _ _ := trivial
  scanner _ := defers_initPerThread
  retired v := by simp
  apart := by simp
  nodup _ := List.nodup_nil
  live := by simp
  cell _ := .inl rfl
  deferred _ := .nil

/-- One more thread keeps the invariant. -/
theorem init (h : s.Invariant left) {i : Nat} (hn : s.numThreads + 1 < smrP) :
    SharedSmr.Invariant { s with numThreads := s.numThreads + 1, started := insert i s.started }
      left :=
  { h with
    bound := hn
    reader := fun i k => (h.reader i k).congr (Nat.le_succ _) rfl fun _ _ hv => hv
    scanner := fun j => (h.scanner j).mono (Nat.le_succ _) fun _ _ _ hv _ => hv }

/-- Allocating keeps the invariant. -/
theorem alloc (h : s.Invariant left) (p : Nat) :
    SharedSmr.Invariant { s with allocated := insert p s.allocated } left :=
  { h with
    reader := fun i k => (h.reader i k).congr le_rfl rfl fun _ _ hv => Finset.mem_insert_of_mem hv
    live := fun v hv => ⟨(h.live v hv).1, Finset.mem_insert_of_mem (h.live v hv).2⟩
    cell := fun l => (h.cell l).imp_right fun hcell => ⟨Finset.mem_insert_of_mem hcell.1, hcell.2⟩ }

/-- Writing a pointer that is not retired keeps the invariant. -/
theorem write [DecidableEq L] (h : s.Invariant left) {l : L} {v : Nat}
    (hv : v = 0 ∨ v ∈ s.allocated ∧ v ∉ s.retired) :
    SharedSmr.Invariant { s with cell := Function.update s.cell l v } left :=
  { h with
    cell := (Function.forall_update_iff s.cell fun _ p =>
      p = 0 ∨ p ∈ s.allocated ∧ p ∉ s.retired).mpr ⟨hv, fun l' _ => h.cell l'⟩ }

/-- A thread that goes on with one of its hazard pointers uses a pointer only if it is not
deferred. -/
theorem moveReader (h : s.Invariant left) {i k : Nat} {r : Reader L}
    (hazard : Nat → Nat → Nat)
    (hother : ∀ i' k', ¬ (i' = i ∧ k' = k) → hazard i' k' = s.hazard i' k')
    (hr : ReaderSound { s with hazard := hazard } i k r)
    (hnew : ∀ v, r = .checked v → v ∉ s.retired) :
    (setReader { s with hazard := hazard } i k r).Invariant left :=
  { h with
    reader := fun i' k' => by
      show ReaderSound _ i' k' (setSlot s.reader i k r i' k')
      by_cases hslot : i' = i ∧ k' = k
      · obtain ⟨rfl, rfl⟩ := hslot
        rw [setSlot_self]
        exact hr.congr le_rfl rfl fun _ _ hv => hv
      · rw [setSlot_of_ne _ _ hslot]
        exact (h.reader i' k').congr le_rfl (hother i' k' hslot) fun _ _ hv => hv
    scanner := fun j => (h.scanner j).mono le_rfl fun i' k' v hv hleft => by
      by_cases hslot : i' = i ∧ k' = k
      · obtain ⟨rfl, rfl⟩ := hslot
        have hchecked : r = .checked v := (setSlot_self s.reader i' k' r).symm.trans hv
        exact absurd ((h.retired v).mpr ⟨j, hleft⟩) (hnew v hchecked)
      · exact (setSlot_of_ne s.reader r hslot).symm.trans hv }

/-- Publishing a hazard keeps the invariant. -/
theorem set (h : s.Invariant left) {i k : Nat} {l : L} {v : Nat} (hk : k < smrK)
    (hi : i < s.numThreads) : ((s.setHazard i k v).setReader i k (.set l v)).Invariant left :=
  h.moveReader (setSlot s.hazard i k v) (fun _ _ hne => setSlot_of_ne _ _ hne)
    ⟨hi, hk, setSlot_self _ i k v⟩ nofun

/-- The pointer is still in its place, and so it is not deferred. -/
theorem check (h : s.Invariant left) {i k : Nat} {l : L} {v : Nat} (hr : s.reader i k = .set l v)
    (hcell : s.cell l = v) : (s.setReader i k (.checked v)).Invariant left := by
  have hset := h.reader i k
  rw [hr] at hset
  obtain ⟨hi, hk, hv⟩ := hset
  refine h.moveReader s.hazard (fun _ _ _ => rfl) ⟨hi, hk, hv, fun hne => ?_⟩ fun w hw => ?_
  · have hlive := h.cell l
    rw [hcell] at hlive
    exact (hlive.resolve_left hne).1
  · cases hw
    intro hretired
    have hlive := h.cell l
    rw [hcell] at hlive
    exact (hlive.resolve_left (h.live v hretired).1).2 hretired

/-- A scan that is sound keeps the invariant. -/
theorem setScanner (h : s.Invariant left) {j : Nat} {sc : Scanner κ}
    (hsc : ScannerSound s.Uses s.numThreads (s.list j) (left j) sc) :
    (s.setScanner j sc).Invariant left :=
  { h with
    reader := fun i k => (h.reader i k).congr le_rfl rfl fun _ _ hv => hv
    scanner := (Function.forall_update_iff s.scanner fun j sc =>
      ScannerSound s.Uses s.numThreads (s.list j) (left j) sc).mpr ⟨hsc, fun j _ => h.scanner j⟩ }

/-- One thread has a new list, and what it has deferred changes. -/
theorem moveScanner {t : SharedSmr L κ} (h : s.Invariant left) {j : Nat} {l : PerThread κ}
    {entries : List (Deferred κ)} {sc : Scanner κ}
    (hnum : t.numThreads = s.numThreads) (hreader : t.reader = s.reader)
    (hhazard : t.hazard = s.hazard) (hcell : t.cell = s.cell) (hlist : t.list = s.list)
    (hscanner : t.scanner = s.scanner)
    (hused : ∀ i k v, s.reader i k = .checked v → v ∈ s.allocated → v ∈ t.allocated)
    (hsc : ScannerSound s.Uses s.numThreads l entries sc)
    (hretired : ∀ v, v ∈ t.retired ↔ v ∈ entries.map Deferred.v ∨
      ∃ i, i ≠ j ∧ v ∈ (left i).map Deferred.v)
    (hapart : ∀ v ∈ entries.map Deferred.v, ∀ i, i ≠ j → v ∉ (left i).map Deferred.v)
    (hnodup : (entries.map Deferred.v).Nodup)
    (hlive : ∀ v ∈ t.retired, v ≠ 0 ∧ v ∈ t.allocated)
    (hcells : ∀ l, s.cell l = 0 ∨ s.cell l ∈ t.allocated ∧ s.cell l ∉ t.retired)
    (hdeferred : (t.deferred j).Perm (t.handed j ++ entries))
    (hothers : ∀ i, i ≠ j → t.deferred i = s.deferred i ∧ t.handed i = s.handed i) :
    ((t.setList j l).setScanner j sc).Invariant (Function.update left j entries) := by
  have huses : SharedSmr.Uses ((t.setList j l).setScanner j sc) = s.Uses := by
    funext i k v
    show (t.reader i k = _) = (s.reader i k = _)
    rw [hreader]
  refine ⟨hnum ▸ h.bound, fun i k => ?_, fun i => ?_, fun v => ?_, ?_, ?_, hlive, ?_, fun i => ?_⟩
  · show ReaderSound _ i k (t.reader i k)
    rw [hreader]
    exact (h.reader i k).congr hnum.ge (congrFun (congrFun hhazard i) k) fun v => hused i k v
  · rw [huses]
    show ScannerSound s.Uses t.numThreads (Function.update t.list j l i)
      (Function.update left j entries i) (Function.update t.scanner j sc i)
    rw [hnum, hlist, hscanner]
    rcases eq_or_ne i j with rfl | hne
    · simpa only [Function.update_self] using hsc
    · simpa only [Function.update_of_ne hne] using h.scanner i
  · refine (hretired v).trans ⟨?_, ?_⟩
    · rintro (hv | ⟨i, hne, hv⟩)
      · exact ⟨j, by rwa [Function.update_self]⟩
      · exact ⟨i, by rwa [Function.update_of_ne hne]⟩
    · rintro ⟨i, hv⟩
      rcases eq_or_ne i j with rfl | hne
      · rw [Function.update_self] at hv
        exact .inl hv
      · rw [Function.update_of_ne hne] at hv
        exact .inr ⟨i, hne, hv⟩
  · intro i i' v hi hi'
    rcases eq_or_ne i j with rfl | hne <;> rcases eq_or_ne i' i with rfl | hne'
    · rfl
    · rw [Function.update_self] at hi
      rw [Function.update_of_ne hne'] at hi'
      exact absurd hi' (hapart v hi i' hne')
    · rfl
    · rw [Function.update_of_ne hne] at hi
      rcases eq_or_ne i' j with rfl | hne''
      · rw [Function.update_self] at hi'
        exact absurd hi (hapart v hi' i hne)
      · rw [Function.update_of_ne hne''] at hi'
        exact h.apart i i' v hi hi'
  · exact (Function.forall_update_iff left fun _ entries => (entries.map Deferred.v).Nodup).mpr
      ⟨hnodup, fun i _ => h.nodup i⟩
  · show ∀ l, t.cell l = 0 ∨ t.cell l ∈ t.allocated ∧ t.cell l ∉ t.retired
    rw [hcell]
    exact hcells
  · show (t.deferred i).Perm (t.handed i ++ Function.update left j entries i)
    rcases eq_or_ne i j with rfl | hne
    · rwa [Function.update_self]
    · rw [Function.update_of_ne hne, (hothers i hne).1, (hothers i hne).2]
      exact h.deferred i

/-- The deferred pointer is one that a thread may still use. -/
theorem deferPut (h : s.Invariant left) {j v : Nat} {ai : κ}
    (hidle : s.scanner j = .idle) (hv : v ≠ 0) (hallocated : v ∈ s.allocated)
    (hretired : v ∉ s.retired) (hcell : ∀ l, s.cell l ≠ v) :
    ∃ hlt : (s.list j).dcount < smrR,
      (((s.retire j { v := v, alloc := ai }).setList j
        { dlist := (s.list j).dlist.set (s.list j).dcount { v := v, alloc := some ai } hlt
          dcount := (s.list j).dcount + 1 }).setScanner j
            (if (s.list j).dcount + 1 ≥ smrR then .start s.numThreads
              else .finish ((s.list j).dcount + 1))).Invariant
        (Function.update left j (left j ++ [{ v := v, alloc := ai }])) := by
  have hsc := h.scanner j
  rw [hidle] at hsc
  have hdefers : (s.list j).Defers (left j) := hsc
  have hlt : (s.list j).dcount < smrR := hdefers.dcount_eq ▸ hdefers.length_lt
  have hpush := hdefers.toHolds.push { v := v, alloc := ai } hlt
  have hfresh : ∀ i, v ∉ (left i).map Deferred.v := fun i hmem =>
    hretired ((h.retired v).mpr ⟨i, hmem⟩)
  have hentries : ∀ w, w ∈ (left j ++ [(⟨v, ai⟩ : Deferred κ)]).map Deferred.v ↔
      w ∈ (left j).map Deferred.v ∨ w = v := by
    simp
  have hnodup : ((left j ++ [(⟨v, ai⟩ : Deferred κ)]).map Deferred.v).Nodup := by
    rw [List.map_append]
    exact (h.nodup j).append (List.nodup_singleton _) (List.disjoint_singleton.mpr (hfresh j))
  refine ⟨hlt, h.moveScanner rfl rfl rfl rfl rfl rfl (fun _ _ _ _ hw => hw) ?_ (fun w => ?_)
    (fun w hw i hne hi => ?_) hnodup (fun w hw => ?_) (fun l => ?_) ?_ (fun i hne => ?_)⟩
  · split
    next hfull =>
      rw [start_eq h.bound]
      refine ⟨hpush, Nat.zero_le _, fun i k w _ _ hseen => ?_⟩
      omega
    next hroom =>
      rw [finish_eq (Nat.lt_of_not_ge hroom)]
      exact ⟨hpush, hnodup, hpush.dcount_eq ▸ Nat.lt_of_not_ge hroom⟩
  · rw [hentries, retire_retired, Finset.mem_insert, h.retired]
    constructor
    · rintro (rfl | ⟨i, hi⟩)
      · exact .inl (.inr rfl)
      · rcases eq_or_ne i j with rfl | hne
        · exact .inl (.inl hi)
        · exact .inr ⟨i, hne, hi⟩
    · rintro ((hj | rfl) | ⟨i, -, hi⟩)
      · exact .inr ⟨j, hj⟩
      · exact .inl rfl
      · exact .inr ⟨i, hi⟩
  · rcases (hentries w).mp hw with hj | rfl
    · exact hne (h.apart i j w hi hj)
    · exact hfresh i hi
  · rcases Finset.mem_insert.mp hw with rfl | hold
    · exact ⟨hv, hallocated⟩
    · exact h.live w hold
  · refine (h.cell l).imp_right fun hlive => ⟨hlive.1, fun hmem => ?_⟩
    rcases Finset.mem_insert.mp hmem with heq | hold
    · exact hcell l heq
    · exact hlive.2 hold
  · rw [retire_deferred, Function.update_self, retire_handed, ← List.append_assoc]
    exact (h.deferred j).append_right _
  · exact ⟨Function.update_of_ne hne _ _, rfl⟩

/-- Reading a hazard keeps the invariant. -/
theorem readSlot (h : s.Invariant left) {j thrI hpK : Nat} {slots : Nat → Nat → Nat}
    (hsc : s.scanner j = .collecting thrI hpK slots) :
    (s.setScanner j (.collecting thrI (hpK + 1)
      (setSlot slots thrI hpK (s.hazard thrI hpK)))).Invariant left := by
  have hold := h.scanner j
  rw [hsc] at hold
  obtain ⟨hholds, hle, hseen⟩ := hold
  refine h.setScanner ⟨hholds, hle, fun i k v hv hleft hmore => ?_⟩
  by_cases hslot : i = thrI ∧ k = hpK
  · obtain ⟨rfl, rfl⟩ := hslot
    have hreader := h.reader i k
    rw [hv] at hreader
    rw [setSlot_self]
    exact hreader.2.2.1
  · rw [setSlot_of_ne _ _ hslot]
    exact hseen i k v hv hleft (by omega)

/-- Going on to the next thread keeps the invariant. -/
theorem nextThread (h : s.Invariant left) {j thrI hpK : Nat} {slots : Nat → Nat → Nat}
    (hsc : s.scanner j = .collecting thrI hpK slots) (hthr : thrI < s.numThreads)
    (hall : ¬ hpK < smrK) : (s.setScanner j (.collecting (thrI + 1) 0 slots)).Invariant left := by
  have hold := h.scanner j
  rw [hsc] at hold
  obtain ⟨hholds, -, hseen⟩ := hold
  refine h.setScanner ⟨hholds, hthr, fun i k v hv hleft hmore => hseen i k v hv hleft ?_⟩
  have hreader := h.reader i k
  rw [hv] at hreader
  have hk := hreader.2.1
  omega

/-- The pointers in use are among those that the scan has read. -/
theorem sort (h : s.Invariant left) {j thrI hpK : Nat} {slots : Nat → Nat → Nat}
    (hsc : s.scanner j = .collecting thrI hpK slots) (hend : ¬ thrI < s.numThreads) :
    (s.setScanner j (.sort (s.list j) (collect { numThreads := thrI, h := slots }))).Invariant
      left := by
  have hold := h.scanner j
  rw [hsc] at hold
  obtain ⟨hholds, hle, hseen⟩ := hold
  have hbound : thrI < smrP := hle.trans_lt h.bound
  have hcounted : (Hazard.mk thrI slots).numThreads < smrP := hbound
  obtain ⟨plist, hcollect, -, hplist⟩ := collect_spec hcounted
  rw [hcollect]
  refine h.setScanner ⟨{ numThreads := thrI, h := slots }, [], left j,
    { bound := hbound
      mem_iff := fun v => by rw [List.mem_insertionSort, hplist]
      sorted := List.pairwise_insertionSort _ _
      holds := hholds
      nodup := h.nodup j
      index := rfl
      scanned := ⟨rfl, rfl, rfl, rfl⟩
      left := rfl
      uses := fun i k v hv hleft => ?_ }⟩
  have hreader := h.reader i k
  rw [hv] at hreader
  obtain ⟨hi, hk, -, -⟩ := hreader
  have hne := (h.live v ((h.retired v).mpr ⟨j, hleft⟩)).1
  have hlt : i < thrI := by omega
  exact ⟨hne, i, hlt, k, hk, hseen i k v hv hleft (.inl hlt)⟩

theorem handBack_nil (s : SharedSmr L κ) (j : Nat) : s.handBack j [] = s := by
  simp [handBack]

/-- What is handed back is in use nowhere. -/
theorem handBack (h : s.Invariant left) {j : Nat} {e : Deferred κ} {front rest : List (Deferred κ)}
    {sc : Scanner κ} (hleft : left j = front ++ e :: rest)
    (hunused : ∀ i k, s.reader i k ≠ .checked e.v)
    (hsc : ScannerSound s.Uses s.numThreads (s.list j) (front ++ rest) sc) :
    ((s.handBack j [e]).setScanner j sc).Invariant
      (Function.update left j (front ++ rest)) := by
  have hlist : (s.handBack j [e]).setList j (s.list j) = s.handBack j [e] := by
    simp [setList, SharedSmr.handBack]
  have hentries : ∀ w, w ∈ (left j).map Deferred.v ↔
      w ∈ (front ++ rest).map Deferred.v ∨ w = e.v := by
    intro w
    rw [hleft]
    simp only [List.map_append, List.map_cons, List.mem_append, List.mem_cons]
    tauto
  have hnodup := h.nodup j
  rw [hleft, List.map_append, List.map_cons, List.nodup_middle, List.nodup_cons,
    ← List.map_append] at hnodup
  have hback : ∀ w, w ∈ [e.v].toFinset ↔ w = e.v := by simp
  have hretired : e.v ∈ s.retired :=
    (h.retired e.v).mpr ⟨j, (hentries e.v).mpr (.inr rfl)⟩
  rw [← hlist]
  refine h.moveScanner rfl rfl rfl rfl rfl rfl (fun i k v hv hmem => ?_) hsc (fun w => ?_)
    (fun w hw i hne hi => hne (h.apart i j w hi ((hentries w).mpr (.inl hw)))) hnodup.2
    (fun w hw => ?_) (fun l => ?_) ?_ (fun i hne => ⟨rfl, Function.update_of_ne hne _ _⟩)
  · refine Finset.mem_sdiff.mpr ⟨hmem, fun heq => hunused i k ?_⟩
    exact (hback v).mp heq ▸ hv
  · refine Finset.mem_sdiff.trans ?_
    rw [h.retired]
    constructor
    · rintro ⟨⟨i, hi⟩, hne⟩
      rcases eq_or_ne i j with rfl | hij
      · exact .inl (((hentries w).mp hi).resolve_right fun heq => hne ((hback w).mpr heq))
      · exact .inr ⟨i, hij, hi⟩
    · rintro (hj | ⟨i, hij, hi⟩)
      · exact ⟨⟨j, (hentries w).mpr (.inl hj)⟩, fun heq => hnodup.1 ((hback w).mp heq ▸ hj)⟩
      · refine ⟨⟨i, hi⟩, fun heq => hij (h.apart i j w hi ?_)⟩
        exact (hentries w).mpr (.inr ((hback w).mp heq))
  · obtain ⟨hold, hne⟩ := Finset.mem_sdiff.mp hw
    exact ⟨(h.live w hold).1, Finset.mem_sdiff.mpr ⟨(h.live w hold).2, hne⟩⟩
  · refine (h.cell l).imp_right fun hlive => ⟨Finset.mem_sdiff.mpr ⟨hlive.1, fun heq => ?_⟩,
      fun hmem => hlive.2 (Finset.mem_sdiff.mp hmem).1⟩
    exact hlive.2 ((hback _).mp heq ▸ hretired)
  · rw [handBack_deferred, handBack_handed, Function.update_self, List.append_assoc]
    refine (h.deferred j).trans (List.Perm.append_left _ ?_)
    rw [hleft]
    exact List.perm_middle

/-- The next entry of the list is kept if it was held, and else no thread uses it. -/
theorem sweep (h : s.Invariant left) {j dlI : Nat} {plist : List Nat} {st st' : ScanState κ}
    (hsc : s.scanner j = .sweeping plist dlI st) (hlt : dlI < (s.list j).dcount)
    (hstep : scanEntry plist st dlI = .ok st') :
    ∃ entries, ((s.handBack j (st'.puts.drop st.puts.length)).setScanner j
      (.sweeping plist (dlI + 1) st')).Invariant (Function.update left j entries) := by
  have hold := h.scanner j
  rw [hsc] at hold
  obtain ⟨hazard, done, rest, hsweep⟩ := hold
  obtain ⟨e, rest, rfl⟩ := hsweep.exists_cons hlt
  obtain ⟨st'', hentry, hputs, hnext⟩ := hsweep.step
  obtain rfl : st' = st'' := Except.ok.inj (hstep.symm.trans hentry)
  have hleft := hsweep.left
  by_cases hheld : Held hazard e.v
  · rw [hputs, if_pos hheld, handBack_nil]
    refine ⟨left j, ?_⟩
    rw [Function.update_eq_self]
    have hsame : (done ++ [e]).filter (fun e => Held hazard e.v) ++ rest = left j := by
      rw [hleft]
      simp [hheld]
    exact h.setScanner ⟨hazard, done ++ [e], rest, hsame ▸ hnext⟩
  · rw [hputs, if_neg hheld]
    have hsame : (done ++ [e]).filter (fun e => Held hazard e.v) =
        done.filter fun e => Held hazard e.v := by
      simp [hheld]
    refine ⟨_, h.handBack hleft (fun i k hv => hheld ?_)
      ⟨hazard, done ++ [e], rest, hsame ▸ hnext⟩⟩
    exact hsweep.uses i k e.v hv (by simp)

/-- Ending a scan keeps the invariant. -/
theorem finish (h : s.Invariant left) {j dlI : Nat} {plist : List Nat} {st : ScanState κ}
    (hsc : s.scanner j = .sweeping plist dlI st) (hend : ¬ dlI < (s.list j).dcount) :
    ((s.setList j { dlist := st.dlist, dcount := st.newDcount }).setScanner j
      (.finish st.newDcount)).Invariant left := by
  have hold := h.scanner j
  rw [hsc] at hold
  obtain ⟨hazard, done, rest, hsweep⟩ := hold
  obtain ⟨-, hroom, hdefers⟩ := hsweep.finish hend
  rw [finish_eq hroom]
  rw [← Function.update_eq_self j left]
  refine h.moveScanner (t := s) rfl rfl rfl rfl rfl rfl (fun _ _ _ _ hv => hv) hdefers
    (fun v => ?_) (fun v hv i hne hi => hne (h.apart i j v hi hv)) (h.nodup j) h.live h.cell
    (h.deferred j) fun _ _ => ⟨rfl, rfl⟩
  rw [h.retired]
  constructor
  · rintro ⟨i, hi⟩
    rcases eq_or_ne i j with rfl | hne
    · exact .inl hi
    · exact .inr ⟨i, hne, hi⟩
  · rintro (hj | ⟨i, -, hi⟩)
    · exact ⟨j, hj⟩
    · exact ⟨i, hi⟩

/-- What one step keeps. -/
theorem step [DecidableEq L] {t : SharedSmr L κ} {action : Action L κ} (h : s.Invariant left)
    (hstep : Step s action t) (hcounted : Counted s action t) (hn : t.numThreads < smrP) :
    ∃ left', t.Invariant left' := by
  cases hstep with
  | init _ => exact ⟨_, h.init hn⟩
  | alloc _ _ => exact ⟨_, h.alloc _⟩
  | write hv => exact ⟨_, h.write hv⟩
  | read _ _ => exact ⟨_, h.moveReader s.hazard (fun _ _ _ => rfl) trivial nofun⟩
  | set _ hk => exact ⟨_, h.set hk (hcounted _ _ rfl)⟩
  | check hr hcell => exact ⟨_, h.check hr hcell⟩
  | checkFails _ _ => exact ⟨_, h.moveReader s.hazard (fun _ _ _ => rfl) trivial nofun⟩
  | release _ _ =>
      exact ⟨_, h.moveReader (setSlot s.hazard _ _ 0) (fun _ _ hne => setSlot_of_ne _ _ hne) trivial
        nofun⟩
  | deferPut _ hidle hv hallocated hretired hcell hstore =>
      obtain ⟨hlt, hnext⟩ := h.deferPut hidle hv hallocated hretired hcell
      rw [store, dif_pos hlt] at hstore
      cases hstore
      exact ⟨_, hnext⟩
  | @deferPutFails j _ _ _ hidle hstore =>
      have hsc := h.scanner j
      rw [hidle] at hsc
      have hlt : (s.list j).dcount < smrR := hsc.dcount_eq ▸ hsc.length_lt
      rw [store, dif_pos hlt] at hstore
      cases hstore
  | readSlot hsc _ _ => exact ⟨_, h.readSlot hsc⟩
  | nextThread hsc hthr hall => exact ⟨_, h.nextThread hsc hthr hall⟩
  | sort hsc hend => exact ⟨_, h.sort hsc hend⟩
  | sweep hsc hlt hentry =>
      obtain ⟨entries, hnext⟩ := h.sweep hsc hlt hentry
      exact ⟨_, hnext⟩
  | @sweepFails j dlI plist st why hsc hlt hentry =>
      have hold := h.scanner j
      rw [hsc] at hold
      obtain ⟨hazard, done, rest, hsweep⟩ := hold
      obtain ⟨e, rest, rfl⟩ := hsweep.exists_cons hlt
      obtain ⟨st', hok, -⟩ := hsweep.step
      cases hentry.symm.trans hok
  | finish hsc hend => exact ⟨_, h.finish hsc hend⟩

end Invariant

/-! ## Runs -/

section Runs

variable [DecidableEq L] {s : SharedSmr L κ}

/-- Threads start and do not end. -/
theorem Step.numThreads_le {t : SharedSmr L κ} {action : Action L κ} (h : Step s action t) :
    s.numThreads ≤ t.numThreads := by
  cases h with
  | init _ => exact Nat.le_succ _
  | _ => exact le_rfl

theorem exists_invariant (h : ((system L κ).restrict Counted).Reachable s)
    (hn : s.numThreads < smrP) : ∃ left, s.Invariant left := by
  refine h.invariant (P := fun s => s.numThreads < smrP → ∃ left, s.Invariant left) ?_ ?_ hn
  · rintro s rfl _
    exact ⟨_, Invariant.initial⟩
  · rintro s action t hs ⟨hstep, hcounted⟩ hn
    obtain ⟨left, hleft⟩ := hs (hstep.numThreads_le.trans_lt hn)
    exact hleft.step hstep hcounted hn

/-- In every interleaving in which only counted threads set hazard pointers, and as long as fewer
than {lit}`SMR_P` threads have started, a pointer that a thread has checked stays allocated, every
deferred pointer has come back once or is still in the list of its thread, and no scan fails. -/
theorem checked_not_handed_back (h : ((system L κ).restrict Counted).Reachable s)
    (hn : s.numThreads < smrP) :
    (∀ i k v, s.reader i k = .checked v → v ≠ 0 → v ∈ s.allocated) ∧
      (∀ j, ∃ left, (s.deferred j).Perm (s.handed j ++ left) ∧
        (s.scanner j = .idle → (s.list j).Defers left)) ∧
      ∀ j why, s.scanner j ≠ .failed why := by
  obtain ⟨left, hs⟩ := exists_invariant h hn
  refine ⟨fun i k v hv => ?_, fun j => ⟨left j, hs.deferred j, fun hidle => ?_⟩,
    fun j why hfailed => ?_⟩
  · have hreader := hs.reader i k
    rw [hv] at hreader
    exact hreader.2.2.2
  · have hsc := hs.scanner j
    rwa [hidle] at hsc
  · have hsc := hs.scanner j
    rwa [hfailed] at hsc

/-- One thread has checked a pointer that another one defers. -/
theorem checked_not_handed_back_deferred :
    ∃ s : SharedSmr Unit Unit, s.reader 1 0 = .checked 8 ∧ s.deferred 0 = [{ v := 8, alloc := () }] ∧
      8 ∈ s.allocated := by
  have hcounted : ∀ {s t : SharedSmr Unit Unit} {action : Action Unit Unit},
      (∀ i k, action ≠ .set i k) → Counted s action t :=
    fun hne i k hset => absurd hset (hne i k)
  have hnew : ((system Unit Unit).restrict Counted).Reachable {} := .init rfl
  have hstarted := ((hnew.step ⟨.init (i := 0) (by decide), hcounted nofun⟩).step
    ⟨.init (i := 1) (by decide), hcounted nofun⟩).step
    ⟨.alloc (p := 8) (by decide) (by decide), hcounted nofun⟩
  have hread := (hstarted.step ⟨.write (l := ()) (v := 8) (.inr (by decide)), hcounted nofun⟩).step
    ⟨.read (i := 1) (k := 0) (l := ()) (by decide) (by decide), hcounted nofun⟩
  have hset := hread.step ⟨.set (i := 1) (k := 0) (l := ()) (v := 8) rfl (by decide),
    fun i k heq => by cases heq; decide⟩
  have hchecked := (hset.step ⟨.check (i := 1) (k := 0) (l := ()) (v := 8) rfl rfl,
    hcounted nofun⟩).step ⟨.write (l := ()) (v := 0) (.inl rfl), hcounted nofun⟩
  have hdeferred := hchecked.step ⟨.deferPut (j := 0) (v := 8) (a := ()) (by decide) rfl (by decide)
    (by decide) (by decide) nofun rfl, hcounted nofun⟩
  exact ⟨_, rfl, rfl, (checked_not_handed_back hdeferred (by decide)).1 1 0 8 rfl (by decide)⟩

/-- With {lit}`SMR_P` threads each scan fails its first assertion. -/
theorem failed_of_smrP_le {t : SharedSmr L κ} {j v : Nat} {a : κ} (h : Step s (.deferPut j v a) t)
    (hn : smrP ≤ s.numThreads) (hfull : smrR ≤ (s.list j).dcount + 1) :
    ∃ why, t.scanner j = .failed why := by
  cases h with
  | deferPut _ _ _ _ _ _ _ =>
      refine ⟨.assertion, ?_⟩
      rw [if_pos hfull, Scanner.start, if_neg (Nat.not_lt.mpr hn), setScanner_scanner,
        Function.update_self]
  | @deferPutFails _ _ _ why _ _ =>
      exact ⟨why, by rw [setScanner_scanner, Function.update_self]⟩

/-- Threads that start in the order of their indices are counted. -/
theorem counted_of_inOrder {t : SharedSmr L κ} {action : Action L κ}
    (h : ((system L κ).restrict InOrder).Reachable s) (hstep : Step s action t) :
    Counted s action t := by
  have hstarted : (∀ i ∈ s.started, i < s.numThreads) ∧
      ∀ i k l v, s.reader i k = .read l v → i ∈ s.started := by
    refine h.invariant (P := fun s => (∀ i ∈ s.started, i < s.numThreads) ∧
      ∀ i k l v, s.reader i k = .read l v → i ∈ s.started) ?_ ?_
    · rintro s rfl
      exact ⟨nofun, nofun⟩
    · rintro s action t ⟨hcount, hread⟩ ⟨hstep, horder⟩
      have hslot : ∀ i k r, (∀ l v, r = .read l v → i ∈ s.started) →
          ∀ i' k' l v, setSlot s.reader i k r i' k' = .read l v → i' ∈ s.started := by
        intro i k r hr i' k' l v hv
        by_cases hsame : i' = i ∧ k' = k
        · obtain ⟨rfl, rfl⟩ := hsame
          exact hr l v ((setSlot_self s.reader i' k' r).symm.trans hv)
        · exact hread i' k' l v ((setSlot_of_ne s.reader r hsame).symm.trans hv)
      cases hstep with
      | @init i _ =>
          obtain rfl := horder i rfl
          refine ⟨fun i hi => ?_, fun i k l v hv => Finset.mem_insert_of_mem (hread i k l v hv)⟩
          rcases Finset.mem_insert.mp hi with rfl | hold
          · exact Nat.lt_succ_self _
          · exact Nat.lt_succ_of_lt (hcount i hold)
      | read hi _ => exact ⟨hcount, hslot _ _ _ fun _ _ _ => hi⟩
      | set _ _ => exact ⟨hcount, hslot _ _ _ nofun⟩
      | check _ _ => exact ⟨hcount, hslot _ _ _ nofun⟩
      | checkFails _ _ => exact ⟨hcount, hslot _ _ _ nofun⟩
      | release _ _ => exact ⟨hcount, hslot _ _ _ nofun⟩
      | _ => exact ⟨hcount, hread⟩
  intro i k hset
  subst hset
  cases hstep with
  | set hread _ => exact hstarted.1 i (hstarted.2 i k _ _ hread)

end Runs

end SharedSmr

end Smr
end Lockfree
end OFlux
