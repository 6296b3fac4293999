import OFlux.Util.CircularBuffer

/-!
# Submit calls that get stuck

A call waits in its planting loop while too many tickets are out.  The tickets of calls that have
not planted their items count as well, also its own: once as many tickets as there are slots have
been taken from its own on, the test of the loop fails until the item has been run, which cannot
happen before it is planted.

Main results:

- Theorem {lit}`stuck_of_full`: calls that wait while the buffer counts as full never return.
- Theorem {lit}`submit_not_stuck`: as long as tickets are taken only while no call is late for its
  test, the calls do not get stuck; otherwise one of them never returns.
-/

namespace OFlux
namespace Util

open Library TransitionSystem

variable {T ι : Type}

namespace Pc

/-- The call is in the planting loop. -/
def Planting : Pc ι → Prop
  | .readSlot _ _ => True
  | .readCounts _ _ _ _ => True
  | .plant _ _ => True
  | _ => False

/-- As many tickets as there are slots have been taken from that of the call on, before the call
read {lit}`_in` for its test; {lit}`n` tickets have been taken in all. -/
def Late (sz n : Nat) : Pc ι → Prop
  | .run1 k _ => k + sz ≤ n
  | .readSlot k _ => k + sz ≤ n
  | .readCounts k _ inSeen _ => k + sz ≤ inSeen.getD n
  | _ => False

/-- A thread that plants has an item. -/
theorem Planting.waiting {p : Pc ι} (h : p.Planting) : ∃ k x, p.waiting = some (k, x) := by
  cases p with
  | readSlot k x => exact ⟨k, x, rfl⟩
  | readCounts k x inSeen outSeen => exact ⟨k, x, rfl⟩
  | plant k x => exact ⟨k, x, rfl⟩
  | _ => exact h.elim

theorem Late.mono {sz m n : Nat} {p : Pc ι} (h : p.Late sz m) (hle : m ≤ n) : p.Late sz n := by
  cases p with
  | run1 k x => exact le_trans h hle
  | readSlot k x => exact le_trans h hle
  | readCounts k x inSeen outSeen =>
      cases inSeen with
      | none => exact le_trans h hle
      | some i => exact h
  | _ => exact h

end Pc

namespace CircularBuffer

variable [DecidableEq T] {sz : Nat} {s s' : CircularBuffer T ι} {planted : Finset Nat}
  {exec : Option T} {a : Action T ι} {t : T} {k : Nat} {x : ι}

/-- The step is one of a call in progress. -/
def Action.Continues : Action T ι → Prop
  | .submit _ _ => False
  | _ => True

variable (T ι) in
/-- The calls in progress take steps, and no other calls are made. -/
def running (logSize : Nat) : TransitionSystem (CircularBuffer T ι) (Action T ι) :=
  (system T ι logSize).restrict fun _ a _ => a.Continues

/-- Some calls are in progress, and none of them leaves the planting loop whatever steps they
take. -/
def Stuck (logSize : Nat) (s : CircularBuffer T ι) : Prop :=
  (∃ t, s.pc t ≠ .idle) ∧
    ∀ s', (running T ι logSize).Leads s s' → ∀ t, s.pc t ≠ .idle → (s'.pc t).Planting

/-- A ticket is taken only while this makes no call late for its test, and a test that read
{lit}`_in` in time fails only while there is time for another one. -/
def Room (sz : Nat) (s : CircularBuffer T ι) : Action T ι → Prop
  | .submit _ _ => ∀ t, ¬ (s.pc t).Late sz (s.inTicket + 1)
  | .countOut t => ∀ k x i, s.pc t = .readCounts k x (some i) none → i < k + sz →
      Full sz i s.out → s.inTicket < k + sz
  | _ => True

/-! ## Calls that are in time -/

/-- A thread that is not late makes no other late. -/
theorem late_setPc {p : Pc ι} {n : Nat} (h : ∀ u, ¬ (s.pc u).Late sz n) (hp : ¬ p.Late sz n)
    (u : T) : ¬ ((s.setPc t p).pc u).Late sz n := by
  by_cases hu : u = t
  · rw [hu, pc_setPc_self]
    exact hp
  · rw [pc_setPc_of_ne p hu]
    exact h u

/-- A thread that read the counts in time is not late. -/
theorem not_late_afterCounts {inSeen outSeen : Option Nat} {n : Nat}
    (hin : inSeen.getD n < k + sz)
    (hfull : ∀ i o, inSeen = some i → outSeen = some o → Full sz i o → n < k + sz) :
    ¬ (afterCounts sz k x inSeen outSeen).Late sz n := by
  unfold afterCounts
  split
  · rename_i i o
    split
    · rename_i h
      exact Nat.not_le_of_lt (hfull i o rfl rfl h)
    · exact id
  · exact Nat.not_le_of_lt hin

namespace Invariant

/-- The ticket of a waiting item is between the two counts. -/
theorem le_of_waiting (h : Invariant sz s planted exec) (hw : (s.pc t).waiting = some (k, x)) :
    s.out ≤ k ∧ k < s.inTicket := by
  obtain ⟨hhalf, -, hitem⟩ := h.waiting t k x hw
  exact ⟨le_trans (h.halfOut ▸ Nat.le_add_right ..) hhalf, h.lt_inTicket hitem⟩

/-- A call that passed the test finds its slot empty. -/
theorem plant_empty (h : Invariant sz s planted exec) (hpc : s.pc t = .plant k x) :
    s.array (k % sz) = none := by
  have hw : (s.pc t).waiting = some (k, x) := by rw [hpc]; rfl
  have hle := (h.le_of_waiting hw).1
  have hwin : k + 2 ≤ s.out + sz := by
    have hfacts := h.facts t
    rwa [hpc] at hfacts
  by_contra hfull
  obtain ⟨y, hy⟩ := Option.ne_none_iff_exists'.mp hfull
  obtain ⟨j, hj, hslot, -⟩ := (h.array _ _).mp hy
  have hwin' := h.inWindow j hj
  have heq : j = k := eq_of_slot_eq (o := s.out) hwin'.1 (by omega) hle (by omega) hslot
  exact (h.waiting t k x hw).2.1 (heq ▸ hj)

/-- The calls stay in time if the steps leave room. -/
theorem not_late_step (hsz : 2 ≤ sz) (h : Invariant sz s planted exec)
    (htime : ∀ u, ¬ (s.pc u).Late sz s.inTicket) (hstep : Step sz s a s') (hroom : Room sz s a) :
    ∀ u, ¬ (s'.pc u).Late sz s'.inTicket := by
  cases hstep with
  | submit hpc =>
      refine late_setPc (s := { s with inTicket := s.inTicket + 1 }) hroom ?_
      change ¬ s.inTicket + sz ≤ s.inTicket + 1
      omega
  | @run1 t k x hpc =>
      have ht := htime t
      rw [hpc] at ht
      exact late_setPc htime ht
  | @readSlot t k x hpc =>
      have ht := htime t
      rw [hpc] at ht
      refine late_setPc htime ?_
      split <;> exact ht
  | @countIn t k x outSeen hpc =>
      have ht := htime t
      rw [hpc] at ht
      have hlt : s.inTicket < k + sz := Nat.lt_of_not_le ht
      exact late_setPc htime (not_late_afterCounts hlt fun _ _ _ _ _ => hlt)
  | @countOut t k x inSeen hpc =>
      have ht := htime t
      rw [hpc] at ht
      have hlt : inSeen.getD s.inTicket < k + sz := Nat.lt_of_not_le ht
      refine late_setPc htime (not_late_afterCounts hlt ?_)
      rintro i o rfl ⟨⟩ hfull
      exact hroom k x i hpc hlt hfull
  | plant hpc _ => exact late_setPc htime id
  | plantFails hpc hfull => exact absurd (h.plant_empty hpc) hfull
  | readOut hpc =>
      refine late_setPc htime ?_
      split <;> exact id
  | @readItem t k hpc =>
      refine late_setPc htime ?_
      cases s.array (k % sz) <;> exact id
  | readBefore hpc =>
      refine late_setPc htime ?_
      split <;> exact id
  | claim hpc _ => exact late_setPc htime id
  | claimFails hpc _ => exact late_setPc htime id
  | clear hpc => exact late_setPc htime id
  | startRun2 hpc => exact late_setPc htime id
  | endRun2 hpc => exact late_setPc htime id
  | delete hpc => exact late_setPc htime id
  | advance hpc => exact late_setPc htime id

end Invariant

/-! ## A call that is in time and next out is planted -/

theorem leads_trans {logSize : Nat} {P : CircularBuffer T ι → Prop}
    (hstep : Step (size logSize) s a s') (ha : a.Continues)
    (hrest : ∃ u, (running T ι logSize).Leads s' u ∧ P u) :
    ∃ u, (running T ι logSize).Leads s u ∧ P u := by
  obtain ⟨u, hu, hP⟩ := hrest
  exact ⟨u, hu.head ⟨hstep, ha⟩, hP⟩

/-- The ticket has been taken and is next out, and its slot is empty. -/
structure Next (sz : Nat) (s : CircularBuffer T ι) (k : Nat) : Prop where
  out : s.out = k
  lt_inTicket : k < s.inTicket
  empty : s.array (k % sz) = none

section

variable {logSize : Nat} (hnext : Next (size logSize) s k)
include hnext

omit [DecidableEq T] in
/-- The buffer is not full for the next item. -/
theorem Next.not_full {i : Nat} (hi : k < i) (hi' : i < k + size logSize) :
    ¬ Full (size logSize) i s.out := by
  have hout := hnext.out
  unfold Full
  omega

/-- Moving a thread keeps the next item. -/
theorem Next.setPc (p : Pc ι) : Next (size logSize) (s.setPc t p) k where
  out := hnext.out
  lt_inTicket := hnext.lt_inTicket
  empty := hnext.empty

/-- A thread that plants can read the out count. -/
theorem leads_of_plant (hpc : s.pc t = .plant k x) :
    ∃ u, (running T ι logSize).Leads s u ∧ u.pc t = .readOut k :=
  leads_trans (.plant hpc hnext.empty) trivial ⟨_, .refl, pc_setPc_self ..⟩

/-- A call that has read {lit}`_in` in time. -/
theorem leads_of_countOut {i : Nat} (hpc : s.pc t = .readCounts k x (some i) none) (hi : k < i)
    (hi' : i < k + size logSize) :
    ∃ u, (running T ι logSize).Leads s u ∧ u.pc t = .readOut k := by
  refine leads_trans (.countOut hpc) trivial ?_
  refine leads_of_plant (x := x) (hnext.setPc _) ?_
  rw [pc_setPc_self, afterCounts, if_neg (hnext.not_full hi hi')]

/-- A thread with a free slot can plant and read the out count. -/
theorem leads_of_readSlot (hpc : s.pc t = .readSlot k x) (htime : s.inTicket < k + size logSize) :
    ∃ u, (running T ι logSize).Leads s u ∧ u.pc t = .readOut k := by
  refine leads_trans (.readSlot hpc) trivial ?_
  rw [if_pos hnext.empty]
  refine leads_trans (.countIn (pc_setPc_self ..)) trivial ?_
  exact leads_of_countOut ((hnext.setPc _).setPc _) (pc_setPc_self ..) hnext.lt_inTicket htime

/-- A call that has read only {lit}`_out`, perhaps long ago, may have to test again. -/
theorem leads_of_countIn {outSeen : Option Nat} (hpc : s.pc t = .readCounts k x none outSeen)
    (htime : s.inTicket < k + size logSize) :
    ∃ u, (running T ι logSize).Leads s u ∧ u.pc t = .readOut k := by
  refine leads_trans (.countIn hpc) trivial ?_
  cases outSeen with
  | none =>
      exact leads_of_countOut (hnext.setPc _) (pc_setPc_self ..) hnext.lt_inTicket htime
  | some o =>
      by_cases hfull : Full (size logSize) s.inTicket o
      · refine leads_of_readSlot (x := x) (hnext.setPc _) ?_ htime
        rw [pc_setPc_self, afterCounts, if_pos hfull]
      · refine leads_of_plant (x := x) (hnext.setPc _) ?_
        rw [pc_setPc_self, afterCounts, if_neg hfull]

end

/-- If all calls are in the planting loop, one of them has the ticket that is next out. -/
theorem Invariant.exists_next {u : T} (h : Invariant sz s planted exec) (hu : s.pc u ≠ .idle)
    (hplanting : ∀ t, s.pc t ≠ .idle → (s.pc t).Planting) :
    ∃ t x, (s.pc t).waiting = some (s.out, x) := by
  have hwait : ∀ t, s.pc t ≠ .idle → (s.pc t).executing = none ∧ (s.pc t).watching = none := by
    intro t ht
    obtain ⟨k, x, hw⟩ := (hplanting t ht).waiting
    obtain ⟨hexec, hwatch, -⟩ := Pc.of_waiting hw
    exact ⟨hexec, hwatch⟩
  have hexec : exec = none := by
    cases exec with
    | none => rfl
    | some t =>
        have ht := h.executing t
        rw [if_pos rfl] at ht
        by_cases hidle : s.pc t = .idle
        · rw [hidle] at ht
          contradiction
        · rw [(hwait t hidle).1] at ht
          contradiction
  subst hexec
  have hhalf : s.halfOut = s.out := h.halfOut
  obtain ⟨k, x, hw⟩ := (hplanting u hu).waiting
  have hle := h.le_of_waiting hw
  refine (h.covered s.out hhalf.le (lt_of_le_of_lt hle.1 hle.2)).resolve_left fun hmem => ?_
  obtain ⟨t, ht⟩ := h.watched hhalf hmem
  by_cases hidle : s.pc t = .idle
  · rw [hidle] at ht
    contradiction
  · rw [(hwait t hidle).2] at ht
    contradiction

/-- While no call is late, one of them leaves the planting loop. -/
theorem not_stuck {logSize : Nat} (h : Invariant (size logSize) s planted exec)
    (htime : ∀ u, ¬ (s.pc u).Late (size logSize) s.inTicket) : ¬ Stuck logSize s := by
  rintro ⟨⟨u, hu⟩, hstuck⟩
  have hplanting : ∀ t, s.pc t ≠ .idle → (s.pc t).Planting := hstuck s .refl
  obtain ⟨t, x, hw⟩ := h.exists_next hu hplanting
  have hidle : s.pc t ≠ .idle := by
    intro hpc
    rw [hpc] at hw
    contradiction
  have hnext : Next (size logSize) s s.out := by
    refine ⟨rfl, (h.le_of_waiting hw).2, ?_⟩
    by_contra hfull
    obtain ⟨y, hy⟩ := Option.ne_none_iff_exists'.mp hfull
    exact (h.waiting t _ x hw).2.1 (h.item_of_out rfl hy).1
  have hleads : ∃ v, (running T ι logSize).Leads s v ∧ v.pc t = .readOut s.out := by
    have htime := htime t
    have hfacts := h.facts t
    have hloop := hplanting t hidle
    cases hpc : s.pc t with
    | readSlot k y =>
        rw [hpc] at hw htime
        obtain ⟨rfl, rfl⟩ := Prod.mk.inj (Option.some.inj hw)
        exact leads_of_readSlot hnext hpc (Nat.lt_of_not_le htime)
    | readCounts k y inSeen outSeen =>
        rw [hpc] at hw htime hfacts
        obtain ⟨rfl, rfl⟩ := Prod.mk.inj (Option.some.inj hw)
        obtain ⟨hnone, hin, -⟩ := hfacts
        cases inSeen with
        | none => exact leads_of_countIn hnext hpc (Nat.lt_of_not_le htime)
        | some i =>
            obtain rfl := hnone.resolve_left (Option.some_ne_none i)
            exact leads_of_countOut hnext hpc (hin i rfl).1 (Nat.lt_of_not_le htime)
    | plant k y =>
        rw [hpc] at hw
        obtain ⟨rfl, rfl⟩ := Prod.mk.inj (Option.some.inj hw)
        exact leads_of_plant hnext hpc
    | _ =>
        rw [hpc] at hloop
        exact hloop.elim
  obtain ⟨v, hv, hpc⟩ := hleads
  have hloop := hstuck v hv t hidle
  rw [hpc] at hloop
  exact hloop

/-! ## A call that is late stays in its loop -/

omit [DecidableEq T] in
/-- A test that reads {lit}`_in` too late fails while the ticket of the call is not out. -/
theorem late_afterCounts {inSeen outSeen : Option Nat} {n : Nat} (hsz : 0 < sz)
    (hin : k + sz ≤ inSeen.getD n) (hseen : ∀ i ∈ inSeen, i ≤ n) (hout : ∀ o ∈ outSeen, o ≤ k) :
    (afterCounts sz k x inSeen outSeen).Late sz n := by
  unfold afterCounts
  split
  · rename_i i o
    have hi : k + sz ≤ i := hin
    have ho := hout o rfl
    rw [if_pos (by unfold Full; omega)]
    exact hi.trans (hseen i rfl)
  · exact hin

theorem Invariant.late_step (hsz : 0 < sz) (h : Invariant sz s planted exec)
    (hstep : Step sz s a s') (hlate : (s.pc t).Late sz s.inTicket) :
    (s'.pc t).Late sz s'.inTicket := by
  have hother : ∀ {u : T} {p : Pc ι}, (u = t → p.Late sz s.inTicket) →
      ((s.setPc u p).pc t).Late sz s.inTicket := by
    intro u p hp
    by_cases hut : t = u
    · rw [hut, pc_setPc_self]
      exact hp hut.symm
    · rw [pc_setPc_of_ne p hut]
      exact hlate
  have hnot : ∀ {u : T} {p : Pc ι}, s.pc u = p → ¬ p.Late sz s.inTicket → u ≠ t := by
    rintro u p hpc hp rfl
    exact hp (hpc ▸ hlate)
  cases hstep with
  | @submit u x hpc =>
      have hut := hnot hpc id
      rw [pc_setPc_of_ne _ hut.symm]
      exact hlate.mono (Nat.le_succ _)
  | run1 hpc =>
      refine hother ?_
      rintro rfl
      rw [hpc] at hlate
      exact hlate
  | readSlot hpc =>
      refine hother ?_
      rintro rfl
      rw [hpc] at hlate
      split <;> exact hlate
  | @countIn u k x outSeen hpc =>
      refine hother ?_
      rintro rfl
      have hle := (h.le_of_waiting (k := k) (x := x) (by rw [hpc]; rfl)).1
      have hfacts := h.facts u
      rw [hpc] at hlate hfacts
      refine late_afterCounts hsz hlate ?_ fun o ho => (hfacts.2.2 o ho).trans hle
      rintro i ⟨⟩
      exact le_rfl
  | @countOut u k x inSeen hpc =>
      refine hother ?_
      rintro rfl
      have hle := (h.le_of_waiting (k := k) (x := x) (by rw [hpc]; rfl)).1
      have hfacts := h.facts u
      rw [hpc] at hlate hfacts
      refine late_afterCounts hsz hlate (fun i hi => (hfacts.2.1 i hi).2) ?_
      rintro o ⟨⟩
      exact hle
  | plant hpc _ => exact hother fun hut => absurd hut (hnot hpc id)
  | plantFails hpc _ => exact hother fun hut => absurd hut (hnot hpc id)
  | readOut hpc => exact hother fun hut => absurd hut (hnot hpc id)
  | readItem hpc => exact hother fun hut => absurd hut (hnot hpc id)
  | readBefore hpc => exact hother fun hut => absurd hut (hnot hpc id)
  | claim hpc _ => exact hother fun hut => absurd hut (hnot hpc id)
  | claimFails hpc _ => exact hother fun hut => absurd hut (hnot hpc id)
  | clear hpc => exact hother fun hut => absurd hut (hnot hpc id)
  | startRun2 hpc => exact hother fun hut => absurd hut (hnot hpc id)
  | endRun2 hpc => exact hother fun hut => absurd hut (hnot hpc id)
  | delete hpc => exact hother fun hut => absurd hut (hnot hpc id)
  | advance hpc => exact hother fun hut => absurd hut (hnot hpc id)

/-- A step that leaves no room makes a call late. -/
theorem late_of_not_room (hstep : Step sz s a s') (hroom : ¬ Room sz s a) :
    ∃ t, (s'.pc t).Late sz s'.inTicket := by
  cases hstep with
  | @submit u x hpc =>
      obtain ⟨t, ht⟩ := not_forall_not.mp hroom
      have hut : t ≠ u := by
        rintro rfl
        rw [hpc] at ht
        exact ht
      refine ⟨t, ?_⟩
      rw [pc_setPc_of_ne _ hut]
      exact ht
  | @countOut u k x inSeen hpc =>
      simp only [Room, not_forall] at hroom
      obtain ⟨j, y, i, hpc', -, hfull, hlate⟩ := hroom
      obtain ⟨rfl, rfl, rfl, -⟩ := Pc.readCounts.inj (hpc.symm.trans hpc')
      refine ⟨u, ?_⟩
      rw [pc_setPc_self, afterCounts, if_pos hfull]
      exact Nat.le_of_not_lt hlate
  | _ => exact absurd trivial hroom

/-! ## Whole runs -/

/-- A late thread stays late for ever. -/
theorem late_of_leads {logSize : Nat} (h : ∃ planted exec, Invariant (size logSize) s planted exec)
    (hlate : (s.pc t).Late (size logSize) s.inTicket)
    (hleads : (system T ι logSize).Leads s s') : (s'.pc t).Late (size logSize) s'.inTicket := by
  suffices hboth : (∃ planted exec, Invariant (size logSize) s' planted exec) ∧
      (s'.pc t).Late (size logSize) s'.inTicket from hboth.2
  induction hleads with
  | refl => exact ⟨h, hlate⟩
  | tail _ hstep ih =>
      obtain ⟨⟨planted, exec, hinv⟩, hlate⟩ := ih
      obtain ⟨a, hstep⟩ := hstep
      exact ⟨hinv.step (size_pos logSize) hstep, hinv.late_step (size_pos logSize) hstep hlate⟩

/-- A run that once had no room leaves a late thread. -/
theorem late_of_run {logSize : Nat} {path : List (Action T ι × CircularBuffer T ι)}
    (h : ∃ planted exec, Invariant (size logSize) s planted exec)
    (hrun : (system T ι logSize).Run s path)
    (hroom : ¬ StepsMeet (fun s a _ => Room (size logSize) s a) s path) :
    ∃ t, ((lastState s path).pc t).Late (size logSize) (lastState s path).inTicket := by
  induction hrun with
  | nil s => exact absurd trivial hroom
  | @cons s s' a rest hstep hrest ih =>
      obtain ⟨planted, exec, hinv⟩ := h
      have hinv' := hinv.step (size_pos logSize) hstep
      by_cases ha : Room (size logSize) s a
      · exact ih hinv' fun hrest => hroom ⟨ha, hrest⟩
      · obtain ⟨t, hlate⟩ := late_of_not_room hstep ha
        exact ⟨t, late_of_leads hinv' hlate hrest.leads_lastState⟩

/-- While the steps of a run leave room, its calls do not get stuck.  Once one of them does not,
some call never returns, whatever steps follow. -/
theorem submit_not_stuck {logSize : Nat} (hlog : 1 ≤ logSize) {s : CircularBuffer T ι}
    {path : List (Action T ι × CircularBuffer T ι)} (hinit : Initial s)
    (hrun : (system T ι logSize).Run s path) :
    (StepsMeet (fun s a _ => Room (size logSize) s a) s path →
        StatesMeet (fun s => ¬ Stuck logSize s) path) ∧
      (¬ StepsMeet (fun s a _ => Room (size logSize) s a) s path →
        ∃ t, ∀ u, (system T ι logSize).Leads (lastState s path) u → u.pc t ≠ .idle) := by
  have hinv : ∃ planted exec, Invariant (size logSize) s planted exec := ⟨_, _, hinit.invariant⟩
  constructor
  · intro hroom
    have hsz : 2 ≤ size logSize := by
      rw [size, Nat.one_shiftLeft]
      exact Nat.pow_le_pow_right Nat.two_pos hlog
    have htime := Run.statesMeet_of_stepsMeet (I := fun _ => True)
      (P := fun s => (∃ planted exec, Invariant (size logSize) s planted exec) ∧
        ∀ u, ¬ (s.pc u).Late (size logSize) s.inTicket)
      (fun _ _ _ _ _ => trivial) ?_ trivial ⟨hinv, ?_⟩ hrun hroom
    · intro p hp
      obtain ⟨⟨planted, exec, hinv⟩, htime⟩ := htime p hp
      exact not_stuck hinv htime
    · rintro s a s' - ⟨⟨planted, exec, hinv⟩, htime⟩ hstep hroom
      exact ⟨hinv.step (size_pos logSize) hstep, hinv.not_late_step hsz htime hstep hroom⟩
    · intro u
      rw [hinit.pc]
      exact id
  · intro hroom
    obtain ⟨t, hlate⟩ := late_of_run hinv hrun hroom
    refine ⟨t, fun u hleads hidle => ?_⟩
    have hinv' : ∃ planted exec, Invariant (size logSize) (lastState s path) planted exec :=
      Invariant.of_reachable (hrun.reachable_lastState (.init hinit))
    have hu := late_of_leads hinv' hlate hleads
    rw [hidle] at hu
    exact hu

/-- Two calls in a buffer of four slots. -/
theorem submit_not_stuck_twoCalls : ∃ path : List (Action Bool Nat × CircularBuffer Bool Nat),
    (system Bool Nat 2).Run new path ∧ path.length = 2 ∧
      StatesMeet (fun s => ¬ Stuck 2 s) path := by
  have hrun : (system Bool Nat 2).Run new
      [(.submit false 5, _), (.submit true 6, _)] :=
    .cons (Step.submit rfl) (.cons (Step.submit rfl) (.nil _))
  refine ⟨_, hrun, rfl, (submit_not_stuck (by decide) initial_new hrun).1 ⟨?_, ?_, trivial⟩⟩
  · intro t
    exact id
  · intro t
    cases t with
    | false => exact Nat.not_le_of_lt (show 2 < 0 + size 2 by decide)
    | true => exact id

/-! ## A buffer that counts as full -/

/-- The call waits, and has read no other values of the counters than {lit}`i` and {lit}`o`. -/
def Spins (i o : Nat) : Pc ι → Prop
  | .readSlot _ _ => True
  | .readCounts _ _ inSeen outSeen => (∀ v ∈ inSeen, v = i) ∧ ∀ v ∈ outSeen, v = o
  | _ => False

omit [DecidableEq T] in
/-- A thread that read the counts of a full buffer spins. -/
theorem spins_afterCounts {i o : Nat} {inSeen outSeen : Option Nat} (hfull : Full sz i o)
    (hin : ∀ v ∈ inSeen, v = i) (hout : ∀ v ∈ outSeen, v = o) :
    Spins i o (afterCounts sz k x inSeen outSeen) := by
  unfold afterCounts
  split
  · rw [hin _ rfl, hout _ rfl, if_pos hfull]
    trivial
  · exact ⟨hin, hout⟩

omit [DecidableEq T] in
/-- A thread that spins still has its item. -/
theorem Spins.planting {i o : Nat} {p : Pc ι} (h : Spins i o p) : p.Planting := by
  cases p with
  | readSlot k x => trivial
  | readCounts k x inSeen outSeen => trivial
  | _ => exact h.elim

/-- While the buffer counts as full, a waiting call waits on, and the counters stay. -/
theorem spins_step {i o : Nat} (hfull : Full sz i o) (hi : s.inTicket = i) (ho : s.out = o)
    (h : ∀ t, s.pc t = .idle ∨ Spins i o (s.pc t)) (hstep : Step sz s a s') (ha : a.Continues) :
    s'.inTicket = i ∧ s'.out = o ∧
      ∀ t, s.pc t = .idle ∧ s'.pc t = .idle ∨ Spins i o (s'.pc t) := by
  have hmove : ∀ {u : T} {p : Pc ι}, Spins i o p → (s.setPc u p).inTicket = i ∧
      (s.setPc u p).out = o ∧ ∀ t, s.pc t = .idle ∧ (s.setPc u p).pc t = .idle ∨
        Spins i o ((s.setPc u p).pc t) := by
    refine fun {u p} hp => ⟨hi, ho, fun t => ?_⟩
    by_cases hut : t = u
    · rw [hut, pc_setPc_self]
      exact .inr hp
    · rw [pc_setPc_of_ne p hut]
      exact (h t).imp_left fun hidle => ⟨hidle, hidle⟩
  have hpcs : ∀ {u : T} {p : Pc ι}, s.pc u = p → p ≠ .idle → Spins i o p := by
    rintro u p rfl hidle
    exact (h u).resolve_left hidle
  cases hstep with
  | submit => exact ha.elim
  | run1 hpc => exact (hpcs hpc nofun).elim
  | readSlot hpc =>
      refine hmove ?_
      split
      · exact ⟨by simp, by simp⟩
      · trivial
  | countIn hpc =>
      exact hmove (spins_afterCounts hfull (by simp [hi]) (hpcs hpc nofun).2)
  | countOut hpc =>
      exact hmove (spins_afterCounts hfull (hpcs hpc nofun).1 (by simp [ho]))
  | plant hpc _ => exact (hpcs hpc nofun).elim
  | plantFails hpc _ => exact (hpcs hpc nofun).elim
  | readOut hpc => exact (hpcs hpc nofun).elim
  | readItem hpc => exact (hpcs hpc nofun).elim
  | readBefore hpc => exact (hpcs hpc nofun).elim
  | claim hpc _ => exact (hpcs hpc nofun).elim
  | claimFails hpc _ => exact (hpcs hpc nofun).elim
  | clear hpc => exact (hpcs hpc nofun).elim
  | startRun2 hpc => exact (hpcs hpc nofun).elim
  | endRun2 hpc => exact (hpcs hpc nofun).elim
  | delete hpc => exact (hpcs hpc nofun).elim
  | advance hpc => exact (hpcs hpc nofun).elim

/-- Calls that wait while the buffer counts as full wait for ever. -/
theorem stuck_of_full {logSize : Nat} (hfull : Full (size logSize) s.inTicket s.out)
    (hsome : ∃ t, s.pc t ≠ .idle)
    (h : ∀ t, s.pc t = .idle ∨ Spins s.inTicket s.out (s.pc t)) : Stuck logSize s := by
  refine ⟨hsome, fun u hleads => ?_⟩
  have hspins : u.inTicket = s.inTicket ∧ u.out = s.out ∧ ∀ t,
      s.pc t = .idle ∧ u.pc t = .idle ∨ Spins s.inTicket s.out (u.pc t) := by
    induction hleads with
    | refl => exact ⟨rfl, rfl, fun t => (h t).imp_left fun hidle => ⟨hidle, hidle⟩⟩
    | tail _ hstep ih =>
        obtain ⟨hi, ho, hu⟩ := ih
        obtain ⟨a, hstep, ha⟩ := hstep
        obtain ⟨hi', ho', hu'⟩ :=
          spins_step hfull hi ho (fun t => (hu t).imp_left And.right) hstep ha
        refine ⟨hi', ho', fun t => (hu' t).imp_left fun hidle => ⟨?_, hidle.2⟩⟩
        refine (hu t).elim And.left fun hloop => ?_
        rw [hidle.1] at hloop
        exact hloop.elim
  intro t ht
  exact ((hspins.2.2 t).resolve_left fun hidle => ht hidle.1).planting

/-- Two calls take the tickets of both slots of a buffer before either of them plants its item. -/
theorem submit_gets_stuck : ∃ s : CircularBuffer Bool Nat,
    (system Bool Nat 1).Reachable s ∧ Stuck 1 s := by
  have hnew : (system Bool Nat 1).Reachable new := .init initial_new
  have hfirst := reachable_next hnew (.submit (t := false) (x := 5) rfl)
  have hsecond := reachable_next hfirst (.submit (t := true) (x := 6) rfl)
  have hslot := reachable_next hsecond (.run1 (t := false) (k := 0) (x := 5) rfl)
  have hslots := reachable_next hslot (.run1 (t := true) (k := 1) (x := 6) rfl)
  refine ⟨_, hslots, stuck_of_full (by decide) ⟨false, ?_⟩ fun t => .inr ?_⟩
  · exact show Pc.readSlot 0 5 ≠ .idle from nofun
  · cases t <;> trivial

end CircularBuffer
end Util
end OFlux
