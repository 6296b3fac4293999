import OFlux.Guards.Atomic
import OFlux.Library.TransitionSystem
import Mathlib.Data.List.Perm.Basic
import Mathlib.Data.List.TakeWhile

/-!
# The read/write atomic as a lock

The read/write atomic keeps a count, a mode and a queue, and does not know its
holders.  Here the holders stand beside it, with the history of the calls, of the
grants and of the releases.

Main results:

- Theorem {lit}`RWLock.fair_lock`: a writer is alone, a free atomic has no queue,
  grants are made in the order of the calls, and no call is lost or doubled.
- Theorem {lit}`Twin.upgradeable_is_read_iff`: an upgradeable request behaves as a
  read request exactly as long as none is granted as the first holder.
-/

namespace OFlux
namespace Guards

open Library

variable {D : Type}

/-! ## Requests -/

/-- The modes of the requests on a read/write atomic. -/
inductive RWMode where
  | read
  | write
  | upgradeable
deriving DecidableEq

/-- The number of a mode. -/
def RWMode.wtype : RWMode → Nat
  | .read => WType.read
  | .write => WType.write
  | .upgradeable => WType.upgradeable

/-- The entry that a request leaves in the queue. -/
def RWMode.entry (mode : RWMode) (ev : EventId) : AtomicQueueEntry :=
  ⟨ev, mode.wtype⟩

namespace AtomicReadWrite

/-- The events that a release hands back, with the modes that the entries in front of the queue
ask for. -/
def handed (atom : AtomicReadWrite D) : List AtomicQueueEntry :=
  List.zipWith (fun ev entry => { event := ev, wtype := entry.wtype }) atom.release.2 atom.waiters

/-- A request on a held atomic joins the readers, or waits. -/
theorem acquireOrWait_of_held {atom : AtomicReadWrite D} (hheld : atom.held ≠ 0)
    (ev : EventId) (wtype : Nat) :
    atom.acquireOrWait ev wtype =
      if atom.mode = WType.read ∧ atom.waiters = [] ∧ atom.joinsReaders wtype = true then
        ({ atom with held := atom.held + 1 }, true)
      else ({ atom with waiters := atom.waiters ++ [⟨ev, wtype⟩] }, false) := by
  rw [acquireOrWait, if_neg hheld]

/-- One of several holders only counts itself out. -/
theorem release_of_others {atom : AtomicReadWrite D} (h : atom.held - 1 ≠ 0) :
    atom.release = ({ atom with held := atom.held - 1 }, []) := by
  rw [release, if_neg h]

/-- The last holder frees the atomic when nobody waits. -/
theorem release_of_no_waiters {atom : AtomicReadWrite D} (h : atom.held - 1 = 0)
    (hw : atom.waiters = []) :
    atom.release = ({ atom with held := 0, mode := WType.none }, []) := by
  rw [release, if_pos h]
  split
  · rfl
  next hcons => simp [hw] at hcons

/-- The last release hands over to a reader and the ones right behind it. -/
theorem release_of_reader {atom : AtomicReadWrite D} {entry : AtomicQueueEntry}
    {rest : List AtomicQueueEntry} (h : atom.held - 1 = 0)
    (hw : atom.waiters = entry :: rest) (hread : entry.wtype = WType.read) :
    atom.release =
      ({ atom with
          held := 1 + (rest.takeWhile fun next => atom.joinsReaders next.wtype).length,
          mode := WType.read,
          waiters := rest.dropWhile fun next => atom.joinsReaders next.wtype },
        entry.event ::
          (rest.takeWhile fun next => atom.joinsReaders next.wtype).map
            AtomicQueueEntry.event) := by
  rw [release, if_pos h]
  split
  next hnil => simp [hw] at hnil
  next entry' rest' hcons =>
    rw [hw] at hcons
    cases hcons
    rw [if_pos hread, hread]

/-- A waiting writer is handed the atomic alone. -/
theorem release_of_other {atom : AtomicReadWrite D} {entry : AtomicQueueEntry}
    {rest : List AtomicQueueEntry} (h : atom.held - 1 = 0)
    (hw : atom.waiters = entry :: rest) (hread : entry.wtype ≠ WType.read) :
    atom.release =
      ({ atom with held := 1, mode := entry.wtype, waiters := rest }, [entry.event]) := by
  rw [release, if_pos h]
  split
  next hnil => simp [hw] at hnil
  next entry' rest' hcons =>
    rw [hw] at hcons
    cases hcons
    rw [if_neg hread]

theorem zipWith_event_append (l l' : List AtomicQueueEntry) :
    List.zipWith (fun ev entry => { event := ev, wtype := entry.wtype })
      (l.map AtomicQueueEntry.event) (l ++ l') = l := by
  induction l with
  | nil => exact List.zipWith_nil_left
  | cons entry l ih => rw [List.map_cons, List.cons_append, List.zipWith_cons_cons, ih]

/-- A waiting reader is handed the atomic with the readers behind it. -/
theorem handed_of_reader {atom : AtomicReadWrite D} {entry : AtomicQueueEntry}
    {rest : List AtomicQueueEntry} (h : atom.held - 1 = 0)
    (hw : atom.waiters = entry :: rest) (hread : entry.wtype = WType.read) :
    atom.handed = entry :: rest.takeWhile fun next => atom.joinsReaders next.wtype := by
  obtain ⟨behind, hbehind⟩ :=
    List.takeWhile_prefix (l := rest) fun next => atom.joinsReaders next.wtype
  rw [handed, release_of_reader h hw hread, hw, List.zipWith_cons_cons]
  nth_rewrite 2 [← hbehind]
  rw [zipWith_event_append]

/-- What a release takes from the queue are the entries that it hands back. -/
theorem waiters_eq_handed (atom : AtomicReadWrite D) :
    atom.waiters = atom.handed ++ atom.release.1.waiters ∧
      atom.handed.map AtomicQueueEntry.event = atom.release.2 := by
  by_cases h : atom.held - 1 = 0
  · cases hw : atom.waiters with
    | nil => simp [handed, release_of_no_waiters h hw, hw]
    | cons entry rest =>
        by_cases hread : entry.wtype = WType.read
        · rw [handed_of_reader h hw hread, release_of_reader h hw hread]
          simp
        · simp [handed, release_of_other h hw hread, hw]
  · simp [handed, release_of_others h]

end AtomicReadWrite

/-! ## The lock -/

/-- A read/write atomic and its holders; the other fields are history. -/
structure RWLock (D : Type) where
  atom : AtomicReadWrite D
  holders : List AtomicQueueEntry := []
  calls : List AtomicQueueEntry := []
  granted : List AtomicQueueEntry := []
  released : List AtomicQueueEntry := []

namespace RWLock

/-- What happens to a lock: a request, the release of one holder, or a write to the data. -/
inductive Action (D : Type) where
  | acquireOrWait (ev : EventId) (mode : RWMode)
  | release (holder : AtomicQueueEntry)
  | setData (data : Option D)

/-- Events ask for the atomic, holders release it, and its data may change. -/
inductive Step : RWLock D → Action D → RWLock D → Prop where
  | acquireOrWait (s : RWLock D) (ev : EventId) (mode : RWMode) :
      Step s (.acquireOrWait ev mode) { s with
        atom := (s.atom.acquireOrWait ev mode.wtype).1,
        holders := s.holders ++
          if (s.atom.acquireOrWait ev mode.wtype).2 then [mode.entry ev] else [],
        granted := s.granted ++
          if (s.atom.acquireOrWait ev mode.wtype).2 then [mode.entry ev] else [],
        calls := s.calls ++ [mode.entry ev] }
  | release {s : RWLock D} {holder : AtomicQueueEntry} (hholder : holder ∈ s.holders) :
      Step s (.release holder) { s with
        atom := s.atom.release.1,
        holders := s.holders.erase holder ++ s.atom.handed,
        granted := s.granted ++ s.atom.handed,
        released := s.released ++ [holder] }
  | setData (s : RWLock D) (data : Option D) :
      Step s (.setData data) { s with atom := { s.atom with data := data } }

/-- The lock from its free state on. -/
def system (D : Type) : TransitionSystem (RWLock D) (Action D) where
  init s := ∃ data, s = { atom := { data := data } }
  step := Step

/-- What links the count, the mode and the queue to the holders. -/
structure Invariant (s : RWLock D) : Prop where
  held : s.atom.held = s.holders.length
  free : s.holders = [] → s.atom.waiters = []
  alone : s.atom.mode ≠ WType.read → s.holders.length ≤ 1
  readers : s.atom.mode = WType.read → ∀ x ∈ s.holders, x.wtype ≠ WType.write
  order : s.calls = s.granted ++ s.atom.waiters
  conserved : s.calls.Perm (s.holders ++ s.atom.waiters ++ s.released)

namespace Invariant

variable {s t : RWLock D}

theorem initial (data : Option D) : Invariant ({ atom := { data := data } } : RWLock D) := by
  constructor <;> simp

/-- The first holder of a free atomic. -/
theorem acquire_free (h : Invariant s) (ev : EventId) (mode : RWMode) (hfree : s.atom.held = 0) :
    Invariant { s with
      atom := { s.atom with held := 1, mode := mode.wtype },
      holders := s.holders ++ [mode.entry ev],
      granted := s.granted ++ [mode.entry ev],
      calls := s.calls ++ [mode.entry ev] } := by
  have hnone : s.holders = [] := List.length_eq_zero_iff.mp (h.held ▸ hfree)
  have hqueue := h.free hnone
  constructor
  · simp [hnone]
  · simp
  · simp [hnone]
  · intro hmode x hx
    simp only [hnone, List.nil_append, List.mem_singleton] at hx
    subst hx
    have hread : mode.wtype = WType.read := hmode
    simp [RWMode.entry, hread, WType.read, WType.write]
  · simp [h.order, hqueue]
  · have hcalls := h.conserved
    simp only [hnone, hqueue, List.nil_append, List.append_nil] at hcalls ⊢
    exact (hcalls.append_right _).trans List.perm_append_comm

/-- One more reader, while nobody waits. -/
theorem acquire_join (h : Invariant s) (ev : EventId) (mode : RWMode)
    (hread : s.atom.mode = WType.read) (hqueue : s.atom.waiters = [])
    (hjoins : s.atom.joinsReaders mode.wtype = true) :
    Invariant { s with
      atom := { s.atom with held := s.atom.held + 1 },
      holders := s.holders ++ [mode.entry ev],
      granted := s.granted ++ [mode.entry ev],
      calls := s.calls ++ [mode.entry ev] } := by
  constructor
  · simp [h.held]
  · simp
  · exact fun hmode => absurd hread hmode
  · intro _ x hx
    rcases List.mem_append.mp hx with hx | hx
    · exact h.readers hread x hx
    · rw [List.mem_singleton.mp hx]
      cases mode with
      | write => simp [AtomicReadWrite.joinsReaders, RWMode.wtype, WType.read, WType.write,
          WType.upgradeable] at hjoins
      | read => simp [RWMode.entry, RWMode.wtype, WType.read, WType.write]
      | upgradeable => simp [RWMode.entry, RWMode.wtype, WType.upgradeable, WType.write]
  · simp [h.order, hqueue]
  · have hcalls := h.conserved
    simp only [hqueue, List.append_nil] at hcalls ⊢
    refine (hcalls.append_right _).trans ?_
    rw [List.append_assoc, List.append_assoc]
    exact List.perm_append_comm.append_left _

/-- A request that waits keeps the invariant. -/
theorem acquire_wait (h : Invariant s) (ev : EventId) (mode : RWMode)
    (hheld : s.atom.held ≠ 0) :
    Invariant { s with
      atom := { s.atom with waiters := s.atom.waiters ++ [mode.entry ev] },
      calls := s.calls ++ [mode.entry ev] } := by
  constructor
  · exact h.held
  · intro hnone
    have hzero : s.atom.held = 0 := by
      have hnone : s.holders = [] := hnone
      rw [h.held, hnone, List.length_nil]
    exact absurd hzero hheld
  · exact h.alone
  · exact h.readers
  · simp [h.order]
  · refine (h.conserved.append_right _).trans ?_
    simp only [List.append_assoc]
    exact (List.perm_append_comm.append_left _).append_left _

/-- What a release does to the history. -/
theorem release_history (h : Invariant s) {holder : AtomicQueueEntry}
    (hholder : holder ∈ s.holders) :
    s.calls = s.granted ++ s.atom.handed ++ s.atom.release.1.waiters ∧
      s.calls.Perm (s.holders.erase holder ++ s.atom.handed ++ s.atom.release.1.waiters ++
        (s.released ++ [holder])) := by
  have hqueue := s.atom.waiters_eq_handed.1
  constructor
  · rw [List.append_assoc, ← hqueue]
    exact h.order
  · have hholders : s.holders.Perm (s.holders.erase holder ++ [holder]) :=
      (List.perm_cons_erase hholder).trans (List.perm_append_singleton _ _).symm
    have hcalls := h.conserved
    rw [hqueue] at hcalls
    refine hcalls.trans ?_
    refine ((hholders.append_right _).append_right _).trans ?_
    simp only [List.append_assoc]
    apply List.Perm.append_left
    refine List.perm_append_comm.trans ?_
    simp only [List.append_assoc]
    exact List.Perm.refl _

/-- A release keeps the invariant. -/
theorem release (h : Invariant s) {holder : AtomicQueueEntry} (hholder : holder ∈ s.holders) :
    Invariant { s with
      atom := s.atom.release.1,
      holders := s.holders.erase holder ++ s.atom.handed,
      granted := s.granted ++ s.atom.handed,
      released := s.released ++ [holder] } := by
  have hlength := List.length_erase_of_mem hholder
  have hpos := List.length_pos_of_mem hholder
  have hheld := h.held
  obtain ⟨horder, hconserved⟩ := h.release_history hholder
  by_cases hlast : s.atom.held - 1 = 0
  · have hnone : s.holders.erase holder = [] := List.length_eq_zero_iff.mp (by omega)
    cases hw : s.atom.waiters with
    | nil =>
        have hrelease := AtomicReadWrite.release_of_no_waiters hlast hw
        have hhanded : s.atom.handed = [] := by simp [AtomicReadWrite.handed, hrelease]
        constructor
        · simp [hrelease, hnone, hhanded]
        · simp [hrelease, hw]
        · simp [hnone, hhanded]
        · simp [hrelease, WType.none, WType.read]
        · exact horder
        · exact hconserved
    | cons entry rest =>
        by_cases hread : entry.wtype = WType.read
        · have hrelease := AtomicReadWrite.release_of_reader hlast hw hread
          have hhanded := AtomicReadWrite.handed_of_reader hlast hw hread
          constructor
          · simp [hrelease, hnone, hhanded, Nat.add_comm]
          · simp [hhanded]
          · simp [hrelease]
          · intro _ x hx
            simp only [hnone, hhanded, List.nil_append, List.mem_cons] at hx
            rcases hx with rfl | hx
            · simp [hread, WType.read, WType.write]
            · have hjoins := List.mem_takeWhile_imp hx
              intro hwrite
              simp [AtomicReadWrite.joinsReaders, hwrite, WType.read, WType.write,
                WType.upgradeable] at hjoins
          · exact horder
          · exact hconserved
        · have hrelease := AtomicReadWrite.release_of_other hlast hw hread
          have hhanded : s.atom.handed = [entry] := by
            simp [AtomicReadWrite.handed, hrelease, hw]
          constructor
          · simp [hrelease, hnone, hhanded]
          · simp [hhanded]
          · simp [hnone, hhanded]
          · simp [hrelease, hread]
          · exact horder
          · exact hconserved
  · have hrelease := AtomicReadWrite.release_of_others hlast
    have hhanded : s.atom.handed = [] := by simp [AtomicReadWrite.handed, hrelease]
    constructor
    · simp [hrelease, hhanded]
      omega
    · intro hnil
      simp only [hhanded, List.append_nil] at hnil
      rw [hnil, List.length_nil] at hlength
      omega
    · intro hmode
      have halone := h.alone (by simpa [hrelease] using hmode)
      omega
    · intro hmode x hx
      simp only [hhanded, List.append_nil] at hx
      exact h.readers (by simpa [hrelease] using hmode) x (List.mem_of_mem_erase hx)
    · exact horder
    · exact hconserved

theorem step {a : Action D} (h : Invariant s) (hstep : Step s a t) : Invariant t := by
  cases hstep with
  | acquireOrWait ev mode =>
      by_cases hfree : s.atom.held = 0
      · have hgrant : s.atom.acquireOrWait ev mode.wtype =
            ({ s.atom with held := 1, mode := mode.wtype }, true) := by
          rw [AtomicReadWrite.acquireOrWait, if_pos hfree]
        simpa [hgrant] using h.acquire_free ev mode hfree
      · rw [AtomicReadWrite.acquireOrWait_of_held hfree]
        split
        next hjoin => simpa using h.acquire_join ev mode hjoin.1 hjoin.2.1 hjoin.2.2
        next => simpa [RWMode.entry] using h.acquire_wait ev mode hfree
  | release hholder => exact h.release hholder
  | setData data =>
      exact ⟨h.held, h.free, h.alone, h.readers, h.order, h.conserved⟩

theorem of_reachable (h : (system D).Reachable s) : Invariant s := by
  have hkeep : ∀ s a t, Invariant s → (system D).step s a t → Invariant t :=
    fun _ _ _ hs hstep => Invariant.step hs hstep
  refine TransitionSystem.Reachable.invariant ?_ hkeep h
  rintro s ⟨data, rfl⟩
  exact initial data

end Invariant

/-- The read/write atomic in every reachable state. -/
theorem fair_lock {s : RWLock D} (h : (system D).Reachable s) :
    (∀ x ∈ s.holders, x.wtype = WType.write → s.holders = [x]) ∧
      s.atom.held = s.holders.length ∧
      (s.atom.held = 0 → s.atom.waiters = []) ∧
      s.calls = s.granted ++ s.atom.waiters ∧
      s.atom.handed.map AtomicQueueEntry.event = s.atom.release.2 ∧
      ∀ e : EventId,
        ((s.holders ++ s.atom.waiters).map AtomicQueueEntry.event).count e +
          (s.released.map AtomicQueueEntry.event).count e =
        (s.calls.map AtomicQueueEntry.event).count e := by
  have hinv := Invariant.of_reachable h
  refine ⟨fun x hx hwrite => ?_, hinv.held, fun hzero => ?_, hinv.order,
    s.atom.waiters_eq_handed.2, fun e => ?_⟩
  · have hmode : s.atom.mode ≠ WType.read := fun hread => hinv.readers hread x hx hwrite
    have hone : s.holders.length = 1 := by
      have hpos := List.length_pos_of_mem hx
      have hle := hinv.alone hmode
      omega
    obtain ⟨y, hy⟩ := List.length_eq_one_iff.mp hone
    rw [hy, List.mem_singleton] at hx
    rw [hy, hx]
  · exact hinv.free (List.length_eq_zero_iff.mp (hinv.held ▸ hzero))
  · have hcount := (hinv.conserved.map AtomicQueueEntry.event).count_eq e
    rw [hcount, ← List.count_append, ← List.map_append]

/-- A writer hands over to a reader that waited. -/
theorem fair_lock_handOver :
    ∃ s : RWLock Unit, (system Unit).Reachable s ∧ s.holders = [RWMode.read.entry 1] ∧
      s.atom.held = s.holders.length ∧ s.calls = s.granted ++ s.atom.waiters := by
  have hwriter : RWMode.write.entry 0 ∈ ([RWMode.write.entry 0] : List AtomicQueueEntry) := by
    decide
  have hinit : (system Unit).Reachable { atom := { data := none } } := .init ⟨none, rfl⟩
  have hrun := ((hinit.step (Step.acquireOrWait _ 0 .write)).step
    (Step.acquireOrWait _ 1 .read)).step (Step.release hwriter)
  have hfair := fair_lock hrun
  exact ⟨_, hrun, rfl, hfair.2.1, hfair.2.2.2.1⟩

end RWLock

/-! ## Upgradeable requests on populated data -/

/-- An upgradeable request, as a read request. -/
def RWMode.asRead : RWMode → RWMode
  | .upgradeable => .read
  | mode => mode

/-- One operation on an atomic whose data stays populated. -/
inductive RWOperation (D : Type) where
  | acquireOrWait (ev : EventId) (mode : RWMode)
  | release
  | setData (data : D)

namespace RWOperation

/-- The same operation, where an upgradeable request asks to read. -/
def asRead : RWOperation D → RWOperation D
  | .acquireOrWait ev mode => .acquireOrWait ev mode.asRead
  | op => op

/-- The atomic after an operation, whether a request is granted, and the events that a
release hands back. -/
def perform (atom : AtomicReadWrite D) : RWOperation D → AtomicReadWrite D × Bool × List EventId
  | .acquireOrWait ev mode =>
      ((atom.acquireOrWait ev mode.wtype).1, (atom.acquireOrWait ev mode.wtype).2, [])
  | .release => (atom.release.1, false, atom.release.2)
  | .setData data => ({ atom with data := some data }, false, [])

end RWOperation

/-- Two atomics, the second one with read requests for the upgradeable ones, and what
the last operation on each answered. -/
structure Twin (D : Type) where
  upgradeable : AtomicReadWrite D
  read : AtomicReadWrite D
  answers : (Bool × List EventId) × (Bool × List EventId) := ((false, []), (false, []))

namespace Twin

/-- One operation on both atomics, with both answers. -/
def perform (s : Twin D) (op : RWOperation D) : Twin D where
  upgradeable := (op.perform s.upgradeable).1
  read := (op.asRead.perform s.read).1
  answers := ((op.perform s.upgradeable).2, (op.asRead.perform s.read).2)

/-- Both atomics start free, with the same data. -/
def system (D : Type) : TransitionSystem (Twin D) (RWOperation D) where
  init s := ∃ data : D, s = { upgradeable := { data := some data },
                              read := { data := some data } }
  step s op t := t = s.perform op

/-- The same grants and events handed back, held counts and modes. -/
def SameBehaviour (s : Twin D) : Prop :=
  s.answers.1 = s.answers.2 ∧ s.upgradeable.held = s.read.held ∧
    s.upgradeable.mode = s.read.mode

/-- An operation that makes an upgradeable request the first holder. -/
def GrantsUpgradeableFirst (atom : AtomicReadWrite D) : RWOperation D → Prop
  | .acquireOrWait _ mode => mode = .upgradeable ∧ atom.held = 0
  | .release => atom.held - 1 = 0 ∧
      ∃ entry ∈ atom.waiters.head?, entry.wtype = WType.upgradeable
  | .setData _ => False

/-- An entry of the queue, with a read request for an upgradeable one. -/
def entryAsRead (entry : AtomicQueueEntry) : AtomicQueueEntry :=
  ⟨entry.event, if entry.wtype = WType.upgradeable then WType.read else entry.wtype⟩

/-- The data is populated and the queues differ in the mode of upgradeable requests. -/
structure Alike (s : Twin D) : Prop where
  populated : s.upgradeable.data.isSome = true
  data : s.read.data = s.upgradeable.data
  waiters : s.read.waiters = s.upgradeable.waiters.map entryAsRead

/-- The waiting entry of a mode as one that reads. -/
theorem entryAsRead_entry (mode : RWMode) (ev : EventId) :
    entryAsRead (mode.entry ev) = mode.asRead.entry ev := by
  cases mode <;> rfl

/-- Only the upgradeable mode changes. -/
theorem wtype_asRead_eq_iff (mode : RWMode) :
    mode.wtype = mode.asRead.wtype ↔ mode ≠ .upgradeable := by
  cases mode <;> decide

variable {s : Twin D}

/-- With populated data the two kinds of requests join readers alike. -/
theorem Alike.joinsReaders (h : s.Alike) (wtype : Nat) :
    s.read.joinsReaders (if wtype = WType.upgradeable then WType.read else wtype) =
      s.upgradeable.joinsReaders wtype := by
  have hread : s.read.data.isSome = true := by rw [h.data, h.populated]
  unfold AtomicReadWrite.joinsReaders
  split
  next hup => simp [hup, h.populated, WType.read, WType.upgradeable]
  next hup => simp [hread, h.populated]

/-- Both atomics let the same requests join. -/
theorem Alike.joinsReaders_asRead (h : s.Alike) (mode : RWMode) :
    s.read.joinsReaders mode.asRead.wtype = s.upgradeable.joinsReaders mode.wtype := by
  rw [← h.joinsReaders mode.wtype]
  cases mode <;> rfl

/-- A request gives the same behaviour unless it is an upgradeable one on a free atomic. -/
theorem Alike.acquireOrWait (h : s.Alike) (hsame : s.SameBehaviour) (ev : EventId)
    (mode : RWMode) :
    (s.perform (.acquireOrWait ev mode)).Alike ∧
      ((s.perform (.acquireOrWait ev mode)).SameBehaviour ↔
        ¬ GrantsUpgradeableFirst s.upgradeable (.acquireOrWait ev mode)) := by
  obtain ⟨-, hheld, hmode⟩ := hsame
  by_cases hfree : s.upgradeable.held = 0
  · have hup : s.upgradeable.acquireOrWait ev mode.wtype =
        ({ s.upgradeable with held := 1, mode := mode.wtype }, true) := by
      rw [AtomicReadWrite.acquireOrWait, if_pos hfree]
    have hread : s.read.acquireOrWait ev mode.asRead.wtype =
        ({ s.read with held := 1, mode := mode.asRead.wtype }, true) := by
      rw [AtomicReadWrite.acquireOrWait, if_pos (hheld ▸ hfree)]
    constructor
    · constructor <;>
        simp [perform, RWOperation.asRead, RWOperation.perform, hup, hread, h.populated,
          h.data, h.waiters]
    · simp [SameBehaviour, perform, RWOperation.asRead, RWOperation.perform, hup, hread,
        GrantsUpgradeableFirst, hfree, wtype_asRead_eq_iff]
  · have hup := AtomicReadWrite.acquireOrWait_of_held hfree ev mode.wtype
    have hread := AtomicReadWrite.acquireOrWait_of_held (hheld ▸ hfree) ev mode.asRead.wtype
    -- both join the readers or both wait
    simp only [h.joinsReaders_asRead, ← hmode, h.waiters, List.map_eq_nil_iff] at hread
    have hentry := entryAsRead_entry mode ev
    simp only [RWMode.entry] at hentry
    have hno : ¬ GrantsUpgradeableFirst s.upgradeable (.acquireOrWait ev mode) :=
      fun hfirst => hfree hfirst.2
    by_cases hjoin : s.upgradeable.mode = WType.read ∧ s.upgradeable.waiters = [] ∧
        s.upgradeable.joinsReaders mode.wtype = true
    · rw [if_pos hjoin] at hup hread
      constructor
      · constructor <;>
          simp [perform, RWOperation.asRead, RWOperation.perform, hup, hread, h.populated,
            h.data]
      · simp [SameBehaviour, perform, RWOperation.asRead, RWOperation.perform, hup, hread, hno,
          hheld, hmode]
    · rw [if_neg hjoin] at hup hread
      constructor
      · constructor <;>
          simp [perform, RWOperation.asRead, RWOperation.perform, hup, hread, h.populated,
            h.data, hentry]
      · simp [SameBehaviour, perform, RWOperation.asRead, RWOperation.perform, hup, hread, hno,
          hheld, hmode]

/-- A release gives the same behaviour unless it hands over to an upgradeable request. -/
theorem Alike.release (h : s.Alike) (hsame : s.SameBehaviour) :
    ((s.perform .release).SameBehaviour ↔ ¬ GrantsUpgradeableFirst s.upgradeable .release) ∧
      (¬ GrantsUpgradeableFirst s.upgradeable .release → (s.perform .release).Alike) := by
  obtain ⟨-, hheld, hmode⟩ := hsame
  by_cases hlast : s.upgradeable.held - 1 = 0
  · have hlast' : s.read.held - 1 = 0 := hheld ▸ hlast
    have hqueue := h.waiters
    cases hw : s.upgradeable.waiters with
    | nil =>
        rw [hw, List.map_nil] at hqueue
        have hup := AtomicReadWrite.release_of_no_waiters hlast hw
        have hread := AtomicReadWrite.release_of_no_waiters hlast' hqueue
        constructor
        · simp [SameBehaviour, perform, RWOperation.asRead, RWOperation.perform, hup, hread,
            GrantsUpgradeableFirst, hw]
        · intro _
          constructor <;>
            simp [perform, RWOperation.asRead, RWOperation.perform, hup, hread, h.populated,
              h.data, hw, hqueue]
    | cons entry rest =>
        rw [hw, List.map_cons] at hqueue
        by_cases hupgradeable : entry.wtype = WType.upgradeable
        · -- handed over in the mode of an upgradeable request, not of a reader
          have hup := AtomicReadWrite.release_of_other hlast hw
            (by simp [hupgradeable, WType.upgradeable, WType.read])
          have hread := AtomicReadWrite.release_of_reader hlast' hqueue
            (by simp [entryAsRead, hupgradeable])
          have hfirst : GrantsUpgradeableFirst s.upgradeable .release :=
            ⟨hlast, entry, by simp [hw], hupgradeable⟩
          constructor
          · refine ⟨fun hsame => ?_, fun hno => absurd hfirst hno⟩
            have hmodes := hsame.2.2
            simp [perform, RWOperation.asRead, RWOperation.perform, hup, hread, hupgradeable,
              WType.upgradeable, WType.read] at hmodes
          · exact fun hno => absurd hfirst hno
        · have hentry : entryAsRead entry = entry := by simp [entryAsRead, hupgradeable]
          have hno : ¬ GrantsUpgradeableFirst s.upgradeable .release := by
            rintro ⟨-, first, hfirst, hwtype⟩
            simp only [hw, List.head?_cons, Option.mem_some_iff] at hfirst
            exact hupgradeable (hfirst ▸ hwtype)
          rw [hentry] at hqueue
          by_cases hreader : entry.wtype = WType.read
          · have hup := AtomicReadWrite.release_of_reader hlast hw hreader
            have hread := AtomicReadWrite.release_of_reader hlast' hqueue hreader
            have hjoins : (fun next => s.read.joinsReaders next.wtype) ∘ entryAsRead =
                fun next => s.upgradeable.joinsReaders next.wtype := by
              funext next
              exact h.joinsReaders next.wtype
            rw [List.takeWhile_map, List.dropWhile_map, hjoins] at hread
            constructor
            · simp [SameBehaviour, perform, RWOperation.asRead, RWOperation.perform, hup, hread,
                hno, entryAsRead]
            · intro _
              constructor <;>
                simp [perform, RWOperation.asRead, RWOperation.perform, hup, hread, h.populated,
                  h.data]
          · have hup := AtomicReadWrite.release_of_other hlast hw hreader
            have hread := AtomicReadWrite.release_of_other hlast' hqueue hreader
            constructor
            · simp [SameBehaviour, perform, RWOperation.asRead, RWOperation.perform, hup, hread,
                hno]
            · intro _
              constructor <;>
                simp [perform, RWOperation.asRead, RWOperation.perform, hup, hread, h.populated,
                  h.data]
  · have hup := AtomicReadWrite.release_of_others hlast
    have hlast' : s.read.held - 1 ≠ 0 := hheld ▸ hlast
    have hread := AtomicReadWrite.release_of_others hlast'
    have hno : ¬ GrantsUpgradeableFirst s.upgradeable .release := fun hfirst => hlast hfirst.1
    constructor
    · simp [SameBehaviour, perform, RWOperation.asRead, RWOperation.perform, hup, hread, hno,
        hheld, hmode]
    · intro _
      constructor <;>
        simp [perform, RWOperation.asRead, RWOperation.perform, hup, hread, h.populated,
          h.data, h.waiters]

/-- A step keeps the behaviours the same unless it grants an upgradeable first. -/
theorem sameBehaviour_perform_iff (h : s.Alike) (hsame : s.SameBehaviour)
    (op : RWOperation D) :
    (s.perform op).SameBehaviour ↔ ¬ GrantsUpgradeableFirst s.upgradeable op := by
  cases op with
  | acquireOrWait ev mode => exact (h.acquireOrWait hsame ev mode).2
  | release => exact (h.release hsame).1
  | setData data =>
      simp [SameBehaviour, perform, RWOperation.asRead, RWOperation.perform,
        GrantsUpgradeableFirst, hsame.2.1, hsame.2.2]

/-- Any other step keeps the atomics alike. -/
theorem Alike.perform (h : s.Alike) (hsame : s.SameBehaviour) {op : RWOperation D}
    (hop : ¬ GrantsUpgradeableFirst s.upgradeable op) : (s.perform op).Alike := by
  cases op with
  | acquireOrWait ev mode => exact (h.acquireOrWait hsame ev mode).1
  | release => exact (h.release hsame).2 hop
  | setData data =>
      constructor <;>
        simp [Twin.perform, RWOperation.asRead, RWOperation.perform, h.waiters]

/-- On populated data upgradeable requests behave as read requests along a run exactly
when no operation makes one of them the first holder. -/
theorem upgradeable_is_read_iff {path : List (RWOperation D × Twin D)}
    (hinit : (system D).init s) (hrun : (system D).Run s path) :
    TransitionSystem.StatesMeet SameBehaviour path ↔
      TransitionSystem.StepsMeet
        (fun s op _ => ¬ GrantsUpgradeableFirst s.upgradeable op) s path := by
  obtain ⟨data, rfl⟩ := hinit
  refine hrun.statesMeet_iff_stepsMeet_of_kept (I := Alike) ?_ ?_ ⟨rfl, rfl, rfl⟩
    ⟨rfl, rfl, rfl⟩
  · rintro s op t hs hsame rfl hop
    exact hs.perform hsame hop
  · rintro s op t hs hsame rfl
    exact sameBehaviour_perform_iff hs hsame op

/-! ### A reader beside an upgradeable holder -/

/-- The states of a run of some operations. -/
def runOf (s : Twin D) : List (RWOperation D) → List (RWOperation D × Twin D)
  | [] => []
  | op :: rest => (op, s.perform op) :: (s.perform op).runOf rest

theorem run_runOf (s : Twin D) (ops : List (RWOperation D)) :
    (system D).Run s (s.runOf ops) := by
  induction ops generalizing s with
  | nil => exact .nil s
  | cons op rest ih => exact .cons rfl (ih _)

/-- The free atomics. -/
def free : Twin Unit where
  upgradeable := { data := some () }
  read := { data := some () }

/-- A reader, an upgradeable request beside it, a writer and a release. -/
theorem upgradeable_is_read_iff_besideReader :
    TransitionSystem.StatesMeet SameBehaviour
      (free.runOf [.acquireOrWait 0 .read, .acquireOrWait 1 .upgradeable,
        .acquireOrWait 2 .write, .release]) :=
  (upgradeable_is_read_iff ⟨(), rfl⟩ (run_runOf free _)).mpr (by
    simp [runOf, TransitionSystem.StepsMeet, GrantsUpgradeableFirst, perform,
      RWOperation.perform, AtomicReadWrite.acquireOrWait, AtomicReadWrite.joinsReaders,
      RWMode.wtype, free, WType.read, WType.write, WType.upgradeable])

/-- A reader is refused beside an upgradeable holder. -/
theorem not_sameBehaviour_upgradeableFirst :
    ¬ ∀ (s : Twin Unit) (path : List (RWOperation Unit × Twin Unit)),
        (system Unit).init s → (system Unit).Run s path →
        TransitionSystem.StatesMeet SameBehaviour path := by
  intro hall
  have hstates := hall free _ ⟨(), rfl⟩
    (run_runOf free [.acquireOrWait 0 .upgradeable, .acquireOrWait 1 .read])
  have hlast := hstates _ (List.mem_cons_of_mem _ (List.mem_singleton_self _))
  exact absurd hlast.1 (by decide)

end Twin

end Guards
end OFlux
