import OFlux.Lockfree.ExclusiveInterleavings

/-!
# No waiting event is lost

A pop clears the link of the node that it has taken off the list, and only then does the release mark
it.  In between, a push that has read the tail long ago can link its node behind this one, and its
event or the one in the node is lost.  As long as each push that succeeds in linking finds the node
to be the tail, the interleaved calls answer as those of the classic atomic.

Main results:

- Theorem {lit}`Kept.step`: what one step keeps of the waiting events.
- Theorem {lit}`waiting_events_kept`: the noted calls answer as those of the classic atomic, and when
  no call is going on, the list holds the events that wait.
- Theorem {lit}`exists_lost_event`: without the condition a waiting event can be lost.
-/

namespace OFlux
namespace Lockfree
namespace SharedExclusive

open Library
open Guards

variable {θ D : Type}

/-- The node for which a thread has linked the next one, and the event that it will store there. -/
def pending : ExclusivePc → Option (Pointer × EventId)
  | .pushSwing q t | .pushStore q t => some (t, q.ev)
  | _ => none

/-- The event that waits in a node, or will as soon as its thread has stored it. -/
def Waits (s : SharedExclusive θ) (a : Pointer) (ev : EventId) : Prop :=
  (s.waiters.nodes a).ev = some ev ∨
    (s.waiters.nodes a).ev = none ∧ ∃ i, pending (s.pc i) = some (a, ev)

/-- A push that links its node finds the tail there. -/
def LinksAtTail (s : SharedExclusive θ) (action : Action θ) (_t : SharedExclusive θ) : Prop :=
  ∀ i q tl, action = .write i → s.pc i = .pushLink q tl → s.waiters.tail = tl

/-- The classic atomic, as it answers one call after another. -/
def classicMachine (D : Type) :
    Machine (Guards.AtomicExclusive D) AtomicExclusive.Call ExclusiveReply :=
  .ofNext (fun atom => ∃ data, atom = { data := data }) classicNext

/-- What a thread knows of the events in the nodes. -/
structure Knows (w : ExclusiveWaiterList) (nodes : List Pointer) (handed : List EventId)
    (p : ExclusivePc) : Prop where
  pending : ∀ a ev, pending p = some (a, ev) → a ∈ nodes ∧ (w.nodes a).ev = none
  fresh : ∀ e, p.fresh = some e → (w.nodes e).ev = none
  popped : ∀ h hn, p = .popMoveHead h hn → (w.nodes h).ev ≠ none
  hand : ∀ r, p.hand = some r → (w.nodes r).ev.toList = handed

/-- The events in the nodes of the list, and the one that a release is handing over. -/
structure Events (s : SharedExclusive θ) (nodes : List Pointer) (last : Pointer)
    (handed evs : List EventId) : Prop where
  waits : List.Forall₂ s.Waits nodes evs
  knows : ∀ i, Knows s.waiters nodes handed (s.pc i)
  pending_eq : ∀ i j a ev ev', pending (s.pc i) = some (a, ev) →
    pending (s.pc j) = some (a, ev') → i = j
  lastEv : (s.waiters.nodes last).ev = none
  noHand : (∀ i, (s.pc i).hand = none) → handed = []
  lag : s.waiters.tail = last ∨ ∃ i q, s.pc i = .pushSwing q s.waiters.tail

/-- The noted calls lead to a classic atomic with the same waiting events. -/
structure Kept (s : SharedExclusive θ) (nodes : List Pointer) (last : Pointer) (owner : Owner θ)
    (handed evs : List EventId) (data : Option D) (atom : Guards.AtomicExclusive D) : Prop where
  invariant : s.Invariant nodes last owner
  events : s.Events nodes last handed evs
  noted : (classicMachine D).Trace { data := data } s.noted atom
  held : atom.held = 0 ↔ owner = .free
  waiters : atom.waiters.map AtomicQueueEntry.event = handed ++ evs

variable {s t : SharedExclusive θ} {nodes nodes' : List Pointer} {last last' : Pointer}
  {owner : Owner θ} {handed handed' evs evs' : List EventId} {i j : θ} {p : ExclusivePc}

/-- A thread between two calls. -/
theorem knows_idle {w : ExclusiveWaiterList} : Knows w nodes handed .idle :=
  ⟨nofun, nofun, nofun, nofun⟩

/-- What a thread knows stays right if the events in its nodes stay. -/
theorem Knows.congr {w w' : ExclusiveWaiterList} (h : Knows w nodes handed p)
    (hev : ∀ x, p.fresh = some x ∨ x ∈ p.uses → (w'.nodes x).ev = (w.nodes x).ev) :
    Knows w' nodes handed p where
  pending a ev ha := by
    refine ⟨(h.pending a ev ha).1, (hev a (.inr ?_)).trans (h.pending a ev ha).2⟩
    cases p <;> cases ha <;> exact List.mem_singleton_self a
  fresh e he := (hev e (.inl he)).trans (h.fresh e he)
  popped hd hn hp hnone := by
    subst hp
    exact h.popped hd hn rfl ((hev hd (.inr (List.mem_singleton_self hd))).symm.trans hnone)
  hand r hr := (congrArg Option.toList (hev r (.inr (Invariant.mem_uses_of_hand hr)))).trans
    (h.hand r hr)

/-- A waiting node still waits when its thread moves on. -/
theorem Waits.setPc [DecidableEq θ] {a : Pointer} {ev : EventId} (h : s.Waits a ev)
    (hpc : t.pc = s.pc) (hev : (t.waiters.nodes a).ev = (s.waiters.nodes a).ev)
    (hpending : pending (s.pc i) = some (a, ev) → pending p = some (a, ev)) :
    (t.setPc i p).Waits a ev := by
  rcases h with hstored | ⟨hnone, j, hj⟩
  · exact .inl (hev.trans hstored)
  · refine .inr ⟨hev.trans hnone, j, ?_⟩
    show pending (Function.update t.pc i p j) = some (a, ev)
    rcases eq_or_ne j i with rfl | hne
    · rw [Function.update_self]
      exact hpending hj
    · rw [Function.update_of_ne hne, hpc]
      exact hj

/-- Only the releasing thread has a node in its hand. -/
theorem Invariant.hand_eq_none (hs : s.Invariant nodes last owner)
    (hi : (s.pc i).releasing = true) (hj : j ≠ i) : (s.pc j).hand = none := by
  rw [Option.eq_none_iff_forall_not_mem]
  intro r hr
  exact hj (hs.eq_of_releasing (Invariant.of_hand hr).2.2 hi)

namespace Events

/-- The tail lags behind only while the thread that will move it is under way. -/
theorem lag_of_ne [DecidableEq θ] (h : s.Events nodes last handed evs)
    (hswing : ∀ q tl, s.pc i ≠ .pushSwing q tl) :
    s.waiters.tail = last ∨ ∃ j q, Function.update s.pc i p j = .pushSwing q s.waiters.tail := by
  rcases h.lag with htail | ⟨j, q, hj⟩
  · exact .inl htail
  · have hne : j ≠ i := fun heq => hswing q _ (heq ▸ hj)
    exact .inr ⟨j, q, by rw [Function.update_of_ne hne]; exact hj⟩

variable [DecidableEq θ]

/-- A thread moves on. -/
theorem move (h : s.Events nodes last handed evs) (hpc : t.pc = s.pc)
    (hwaits : List.Forall₂ (t.setPc i p).Waits nodes' evs') (hp : Knows t.waiters nodes' handed' p)
    (hothers : ∀ j, j ≠ i → Knows t.waiters nodes' handed' (s.pc j))
    (hpending : ∀ a ev, pending p = some (a, ev) → pending (s.pc i) = some (a, ev) ∨
      ∀ j, j ≠ i → ∀ ev', pending (s.pc j) ≠ some (a, ev'))
    (hlast : (t.waiters.nodes last').ev = none)
    (hhand : p.hand = none → (∀ j, j ≠ i → (s.pc j).hand = none) → handed' = [])
    (hlag : t.waiters.tail = last' ∨
      ∃ j q, Function.update s.pc i p j = .pushSwing q t.waiters.tail) :
    (t.setPc i p).Events nodes' last' handed' evs' := by
  have hupdate : (t.setPc i p).pc = Function.update s.pc i p := by
    show Function.update t.pc i p = Function.update s.pc i p
    rw [hpc]
  refine ⟨hwaits, ?_, fun j k a ev ev' hj hk => ?_, hlast, ?_, by rw [hupdate]; exact hlag⟩
  · rw [hupdate, setPc_waiters,
      Function.forall_update_iff s.pc fun _ p' => Knows t.waiters nodes' handed' p']
    exact ⟨hp, hothers⟩
  · rw [hupdate] at hj hk
    rcases eq_or_ne j i with rfl | hjne
    · rcases eq_or_ne k j with rfl | hkne
      · rfl
      · rw [Function.update_self] at hj
        rw [Function.update_of_ne hkne] at hk
        rcases hpending a ev hj with hold | hnone
        · exact h.pending_eq j k a ev ev' hold hk
        · exact absurd hk (hnone k hkne ev')
    · rw [Function.update_of_ne hjne] at hj
      rcases eq_or_ne k i with rfl | hkne
      · rw [Function.update_self] at hk
        rcases hpending a ev' hk with hold | hnone
        · exact h.pending_eq j k a ev ev' hj hold
        · exact absurd hj (hnone j hjne ev)
      · rw [Function.update_of_ne hkne] at hk
        exact h.pending_eq j k a ev ev' hj hk
  · rw [hupdate, Function.forall_update_iff s.pc fun _ p' => p'.hand = none]
    exact fun hnone => hhand hnone.1 hnone.2

/-- A thread moves on, and no event in the list changes. -/
theorem move_same (h : s.Events nodes last handed evs) (hpc : t.pc = s.pc)
    (hev : ∀ x ∈ nodes ++ [last], (t.waiters.nodes x).ev = (s.waiters.nodes x).ev)
    (hpending : pending p = pending (s.pc i)) (hp : Knows t.waiters nodes handed p)
    (hsame : p.hand = none → (s.pc i).hand = none)
    (hothers : ∀ j, j ≠ i → ∀ x, (s.pc j).fresh = some x ∨ x ∈ (s.pc j).uses →
      (t.waiters.nodes x).ev = (s.waiters.nodes x).ev)
    (hlag : t.waiters.tail = last ∨
      ∃ j q, Function.update s.pc i p j = .pushSwing q t.waiters.tail) :
    (t.setPc i p).Events nodes last handed evs := by
  have hwaits : List.Forall₂ (fun a ev => a ∈ nodes ∧ s.Waits a ev) nodes evs :=
    (List.forall₂_and_left nodes evs).mpr ⟨fun _ ha => ha, h.waits⟩
  refine h.move hpc (hwaits.imp fun a ev hwait => ?_) hp
    (fun j hj => (h.knows j).congr (hothers j hj)) (fun a ev ha => .inl (hpending ▸ ha))
    ((hev last (by simp)).trans h.lastEv) (fun hnone hrest => h.noHand fun j => ?_) hlag
  · exact hwait.2.setPc hpc (hev a (List.mem_append_left _ hwait.1)) fun hi => hpending.trans hi
  · rcases eq_or_ne j i with rfl | hj
    · exact hsame hnone
    · exact hrest j hj

/-- A step that only reads. -/
theorem read (h : s.Events nodes last handed evs) (hread : (s.pc i).read s.waiters = some p) :
    (s.setPc i p).Events nodes last handed evs := by
  obtain ⟨hfresh, -, hhand, -⟩ := read_uses hread
  have hcase : pending (s.pc i) = none ∧ pending p = none ∧
      (p.hand = none → (s.pc i).hand = none) ∧
      ∀ hd hn, p = .popMoveHead hd hn → (s.waiters.nodes hd).ev ≠ none := by
    generalize s.pc i = old at hread
    cases old <;> simp only [ExclusivePc.read, ExclusivePc.popElse, Option.some.injEq,
      reduceCtorEq] at hread <;>
      first
      | (split at hread <;> [cases hread; obtain rfl := Option.some.inj hread])
      | subst hread
    all_goals
      (try split) <;> (try split) <;> simp_all [pending, ExclusivePc.hand]
  obtain ⟨hold, hnew, hsame, hpopped⟩ := hcase
  have hswing : ∀ q tl, s.pc i ≠ .pushSwing q tl := by
    intro q tl hpc
    rw [hpc] at hold
    cases hold
  refine h.move_same rfl (fun _ _ => rfl) (hnew.trans hold.symm)
    ⟨fun a ev ha => ?_, fun e he => (h.knows i).fresh e (hfresh e he), hpopped,
      fun r hr => (h.knows i).hand r (hhand r hr)⟩ hsame (fun _ _ _ _ => rfl) (h.lag_of_ne hswing)
  rw [hnew] at ha
  cases ha

end Events

namespace Kept

variable [DecidableEq θ] {data : Option D} {atom : Guards.AtomicExclusive D}

/-- Beginning to acquire keeps what was handed over. -/
theorem acquireOrWait (h : s.Kept nodes last owner handed evs data atom) {ev : EventId}
    {wtype : Nat} {e : Pointer} (hpc : s.pc i = .idle) (hnode : IsNode e) (hnew : e ∉ s.inUse) :
    (setPc { s with
      waiters := ((s.waiters.construct e ev wtype).setNext e null).setEv e none
      inUse := insert e s.inUse } i (.pushHead ⟨e, ev, wtype⟩)).Kept nodes last owner handed evs
        data atom := by
  have hother : ∀ x ∈ s.inUse,
      (((s.waiters.construct e ev wtype).setNext e null).setEv e none).nodes x =
        s.waiters.nodes x := fun x hx => by
    have hne : x ≠ e := fun heq => hnew (heq ▸ hx)
    simp [hne]
  refine ⟨h.invariant.acquireOrWait hpc hnode hnew, h.events.move_same rfl (fun x hx => ?_)
    (by rw [hpc]; rfl) ⟨nofun, fun x hx => ?_, nofun, nofun⟩ (fun _ => by rw [hpc]; rfl)
    (fun j _ x hx => ?_) (h.events.lag_of_ne (by rw [hpc]; nofun)), h.noted, h.held, h.waiters⟩
  · exact congrArg EventBaseHolder.ev (hother x (h.invariant.shape.linked x hx).1)
  · cases hx
    simp
  · rcases hx with hfresh | huses
    · exact congrArg EventBaseHolder.ev (hother x ((h.invariant.sound j).fresh x hfresh).1)
    · exact congrArg EventBaseHolder.ev (hother x ((h.invariant.sound j).uses x huses))

/-- A step that only reads. -/
theorem read (h : s.Kept nodes last owner handed evs data atom)
    (hread : (s.pc i).read s.waiters = some p) :
    (s.setPc i p).Kept nodes last owner handed evs data atom :=
  ⟨h.invariant.read hread, h.events.read hread, h.noted, h.held, h.waiters⟩

/-- A thread that takes the atomic finds it free. -/
theorem take (h : s.Kept nodes last owner handed evs data atom) {q : Request} {hd : Pointer}
    (hpc : s.pc i = .pushTake q hd) (hone : (s.waiters.nodes hd).next = 1) :
    (((((s.setWaiters (((s.waiters.setNext hd null).setEv q.e (some q.ev)).setNext q.e 3)).put
      q.e).grant [q.ev]).note (.acquireOrWait q.ev q.wtype) (.acquired true)).setPc i .idle).Kept
        nodes last (.event q.ev) handed evs data { atom with held := 1 } := by
  obtain ⟨rfl, hfree⟩ := h.invariant.free_of_take hpc hone
  have hsound := h.invariant.sound i
  have hapart := h.invariant.apart i
  have hheld : atom.held = 0 := h.held.mpr hfree
  rw [hpc] at hsound hapart
  obtain ⟨-, helist, -, -⟩ := hsound.fresh q.e rfl
  have hother : ∀ x, x ≠ q.e →
      ((((s.waiters.setNext hd null).setEv q.e (some q.ev)).setNext q.e 3).nodes x).ev =
        (s.waiters.nodes x).ev := by
    intro x hxe
    rw [ev_setNext, ExclusiveWaiterList.nodes_setEv, if_neg hxe, ev_setNext]
  have hcall : classicNext atom (.acquireOrWait q.ev q.wtype) =
      (.acquired true, { atom with held := 1 }) := by
    simp [classicNext, Guards.AtomicExclusive.acquireOrWait, hheld]
  refine ⟨h.invariant.take hpc hone, h.events.move_same rfl (fun x hx => ?_) (by rw [hpc]; rfl)
    knows_idle (fun _ => by rw [hpc]; rfl) (fun j hj x hx => ?_)
    (h.events.lag_of_ne (by rw [hpc]; intro _ _ heq; cases heq)), h.noted.snoc hcall,
    iff_of_false Nat.one_ne_zero (by intro heq; cases heq), h.waiters⟩
  · exact hother x fun heq => helist (heq ▸ hx)
  · refine hother x ?_
    rintro rfl
    rcases hx with hfresh | huses
    · exact (hapart j (Ne.symm hj)).fresh q.e rfl hfresh
    · exact (hapart j (Ne.symm hj)).used q.e huses rfl

/-- A push that links its node at the tail waits as the last one. -/
theorem link (h : s.Kept nodes last owner handed evs data atom) {q : Request} {tl : Pointer}
    (hpc : s.pc i = .pushLink q tl) (hnull : (s.waiters.nodes tl).next = null)
    (htail : s.waiters.tail = tl) :
    (((s.setWaiters (s.waiters.setNext tl q.e)).note (.acquireOrWait q.ev q.wtype)
      (.acquired false)).setPc i (.pushSwing q tl)).Kept (nodes ++ [last]) q.e owner handed
        (evs ++ [q.ev]) data
        { atom with held := 1, waiters := atom.waiters ++ [⟨q.ev, WType.exclusive⟩] } := by
  have hlist : tl ∈ nodes ++ [last] := htail ▸ h.invariant.shape.tail_mem
  have hinv := h.invariant.link_last hpc hnull hlist
  have hlast : tl = last := h.invariant.shape.eq_last hlist hnull
  have hheld : owner ≠ .free := by
    intro hfree
    rw [hlast, (h.invariant.shape.free hfree).2] at hnull
    cases hnull
  have hatom : atom.held ≠ 0 := fun hzero => hheld (h.held.mp hzero)
  subst hlast
  have hev := ev_setNext s.waiters tl q.e
  have hcall : classicNext atom (.acquireOrWait q.ev q.wtype) = (.acquired false,
      { atom with held := 1, waiters := atom.waiters ++ [⟨q.ev, WType.exclusive⟩] }) := by
    simp [classicNext, Guards.AtomicExclusive.acquireOrWait, hatom]
  have hnone : ∀ j ev, pending (s.pc j) ≠ some (tl, ev) := fun j ev hj =>
    h.invariant.shape.last_notMem ((h.events.knows j).pending tl ev hj).1
  refine ⟨hinv, h.events.move rfl (List.rel_append ?_ (.cons ?_ .nil))
    ⟨?_, (by intro _ he; cases he), (by intro _ _ he; cases he), (by intro _ he; cases he)⟩
    (fun j _ => ?_) ?_ ?_ (fun _ hrest => h.events.noHand fun j => ?_)
    (.inr ⟨i, q, by rw [Function.update_self]; exact congrArg _ htail.symm⟩),
    h.noted.snoc hcall, iff_of_false Nat.one_ne_zero hheld, ?_⟩
  · exact h.events.waits.imp fun a ev hwait => hwait.setPc rfl (hev a) fun hi => by
      rw [hpc] at hi
      cases hi
  · refine .inr ⟨(hev tl).trans h.events.lastEv, i, ?_⟩
    show pending (Function.update s.pc i (.pushSwing q tl) i) = some (tl, q.ev)
    rw [Function.update_self]
    rfl
  · intro a ev ha
    cases ha
    exact ⟨by simp, (hev tl).trans h.events.lastEv⟩
  · have hknows : Knows (s.waiters.setNext tl q.e) nodes handed (s.pc j) :=
      (h.events.knows j).congr fun x _ => hev x
    exact ⟨fun a ev ha => ⟨List.mem_append_left _ (hknows.pending a ev ha).1,
      (hknows.pending a ev ha).2⟩, hknows.fresh, hknows.popped, hknows.hand⟩
  · intro a ev ha
    cases ha
    exact .inr fun j _ ev' => hnone j ev'
  · exact (hev q.e).trans ((h.events.knows i).fresh q.e (by rw [hpc]; rfl))
  · rcases eq_or_ne j i with rfl | hne
    · rw [hpc]
      rfl
    · exact hrest j hne
  · simp [h.waiters]

/-- Moving the tail does not touch the events. -/
theorem swing (h : s.Kept nodes last owner handed evs data atom) {q : Request} {tl : Pointer}
    (hpc : s.pc i = .pushSwing q tl) :
    ((s.setWaiters { s.waiters with
      tail := if s.waiters.tail = tl then q.e else s.waiters.tail }).setPc i
        (.pushStore q tl)).Kept nodes last owner handed evs data atom := by
  have hfacts := (h.invariant.sound i).facts
  have hknows := h.events.knows i
  rw [hpc] at hfacts hknows
  refine ⟨h.invariant.swing hpc, h.events.move_same rfl (fun _ _ => rfl) (by rw [hpc]; rfl)
    ⟨hknows.pending, nofun, nofun, nofun⟩ (fun _ => by rw [hpc]; rfl) (fun _ _ _ _ => rfl) ?_,
    h.noted, h.held, h.waiters⟩
  show (if s.waiters.tail = tl then q.e else s.waiters.tail) = last ∨ ∃ j q',
    Function.update s.pc i (.pushStore q tl) j =
      .pushSwing q' (if s.waiters.tail = tl then q.e else s.waiters.tail)
  split
  next heq => exact .inl (hfacts.2 heq.symm)
  next hne =>
    rcases h.events.lag with htail | ⟨j, q', hj⟩
    · exact .inl htail
    · have hji : j ≠ i := by
        rintro rfl
        rw [hpc] at hj
        cases hj
        exact hne rfl
      exact .inr ⟨j, q', by rw [Function.update_of_ne hji]; exact hj⟩

/-- The event is stored in the node behind which its own was linked. -/
theorem store (h : s.Kept nodes last owner handed evs data atom) {q : Request} {tl : Pointer}
    (hpc : s.pc i = .pushStore q tl) :
    ((s.setWaiters (s.waiters.setEv tl (some q.ev))).setPc i .idle).Kept nodes last owner handed evs
      data atom := by
  have hpending : pending (s.pc i) = some (tl, q.ev) := by rw [hpc]; rfl
  obtain ⟨hmem, hnone⟩ := (h.events.knows i).pending tl q.ev hpending
  have huses := (h.invariant.sound i).uses
  rw [hpc] at huses
  have hself : ((s.waiters.setEv tl (some q.ev)).nodes tl).ev = some q.ev := by simp
  have hother : ∀ x, x ≠ tl → ((s.waiters.setEv tl (some q.ev)).nodes x).ev =
      (s.waiters.nodes x).ev := fun x hx => by simp [hx]
  have hwaits : List.Forall₂ (fun a ev => a ∈ nodes ∧ s.Waits a ev) nodes evs :=
    (List.forall₂_and_left nodes evs).mpr ⟨fun _ ha => ha, h.events.waits⟩
  refine ⟨h.invariant.store hpc, h.events.move rfl (hwaits.imp fun a ev hwait => ?_) knows_idle
    (fun j hj => ⟨fun a ev ha => ?_, fun e he => ?_, fun hd hn hmove hnull => ?_, fun r hr => ?_⟩)
    nofun ?_ (fun _ hrest => h.events.noHand fun j => ?_)
    (h.events.lag_of_ne (by rw [hpc]; nofun)), h.noted, h.held, h.waiters⟩
  · rcases eq_or_ne a tl with rfl | hne
    · -- only this thread was to store an event here
      rcases hwait.2 with hstored | ⟨-, j, hj⟩
      · cases hnone.symm.trans hstored
      · obtain rfl := h.events.pending_eq i j a q.ev ev hpending hj
        cases hpending.symm.trans hj
        exact .inl hself
    · exact hwait.2.setPc rfl (hother a hne) fun hi => by
        cases hpending.symm.trans hi
        exact absurd rfl hne
  · obtain ⟨ha', hnull⟩ := (h.events.knows j).pending a ev ha
    have hne : a ≠ tl := by
      rintro rfl
      exact hj (h.events.pending_eq j i a ev q.ev ha hpending)
    exact ⟨ha', (hother a hne).trans hnull⟩
  · have hne : e ≠ tl := by
      rintro rfl
      exact h.invariant.fresh_notMem he (List.mem_append_left _ hmem)
    exact (hother e hne).trans ((h.events.knows j).fresh e he)
  · rcases eq_or_ne hd tl with rfl | hne
    · cases hself.symm.trans hnull
    · exact (h.events.knows j).popped hd hn hmove ((hother hd hne).symm.trans hnull)
  · have hne : r ≠ tl := by
      rintro rfl
      exact ((h.invariant.sound j).hand r hr).1 (List.mem_append_left _ hmem)
    exact (congrArg Option.toList (hother r hne)).trans ((h.events.knows j).hand r hr)
  · have hne : last ≠ tl := fun heq => h.invariant.shape.last_notMem (heq ▸ hmem)
    exact (hother last hne).trans h.events.lastEv
  · rcases eq_or_ne j i with rfl | hne
    · rw [hpc]
      rfl
    · exact hrest j hne

/-- Beginning to release keeps what was handed over. -/
theorem release (h : s.Kept nodes last owner handed evs data atom) {ev : EventId}
    (hpc : s.pc i = .idle) (hev : ev ∈ s.holders) :
    (setPc { s with holders := s.holders.erase ev } i .popHead).Kept nodes last (.thread i) handed
      evs data atom := by
  have hheld : owner ≠ .free := by
    rintro rfl
    rw [h.invariant.holders] at hev
    cases hev
  refine ⟨h.invariant.release hev, h.events.move_same rfl (fun _ _ => rfl) (by rw [hpc]; rfl)
    ⟨nofun, nofun, nofun, nofun⟩ (fun _ => by rw [hpc]; rfl) (fun _ _ _ _ => rfl)
    (h.events.lag_of_ne (by rw [hpc]; nofun)), h.noted,
    ⟨fun hzero => absurd (h.held.mp hzero) hheld, nofun⟩, h.waiters⟩

/-- The first waiting event is in the hand of the thread that takes its node off the list. -/
theorem moveHead (h : s.Kept nodes last owner handed evs data atom) {hd hn : Pointer}
    (hpc : s.pc i = .popMoveHead hd hn) :
    ∃ rest ev evs', evs = ev :: evs' ∧ handed = [] ∧
      ((s.setWaiters { s.waiters with head := hn }).setPc i (.popClear hd)).Kept rest last owner
        [ev] evs' data atom := by
  obtain ⟨rest, rfl, hinv⟩ := h.invariant.moveHead hpc
  have hrel : (s.pc i).releasing = true := by rw [hpc]; rfl
  have hstored := (h.events.knows i).popped hd hn hpc
  have hnodup := h.invariant.shape.nodup
  rw [List.cons_append, List.nodup_cons] at hnodup
  have hempty : handed = [] := h.events.noHand fun j => by
    rcases eq_or_ne j i with rfl | hj
    · rw [hpc]
      rfl
    · exact h.invariant.hand_eq_none hrel hj
  cases hwaits : h.events.waits with
  | cons hfirst hrest =>
    rename_i ev evs'
    have hev : (s.waiters.nodes hd).ev = some ev := hfirst.resolve_right fun hnone =>
      hstored hnone.1
    refine ⟨rest, ev, evs', rfl, hempty, hinv, h.events.move rfl (hrest.imp fun a x hwait => ?_)
      ⟨nofun, nofun, nofun, fun r hr => ?_⟩ (fun j hj => ⟨fun a x ha => ?_, (h.events.knows j).fresh,
        (h.events.knows j).popped, fun r hr => ?_⟩) nofun h.events.lastEv nofun
      (h.events.lag_of_ne (by rw [hpc]; nofun)), h.noted, h.held, ?_⟩
    · exact hwait.setPc rfl rfl fun hi => by
        rw [hpc] at hi
        cases hi
    · cases hr
      exact congrArg Option.toList hev
    · obtain ⟨ha', hnone⟩ := (h.events.knows j).pending a x ha
      refine ⟨(List.mem_cons.mp ha').resolve_left ?_, hnone⟩
      rintro rfl
      exact hstored hnone
    · cases (h.invariant.hand_eq_none hrel hj).symm.trans hr
    · rw [h.waiters, hempty]
      rfl

/-- Only an atomic without waiting events becomes free. -/
theorem free (h : s.Kept nodes last owner handed evs data atom) {hd : Pointer}
    (hpc : s.pc i = .popFree hd) (hnull : (s.waiters.nodes hd).next = null) :
    evs = [] ∧ handed = [] ∧
      (((s.setWaiters (s.waiters.setNext hd 1)).note .release (.released [])).setPc i .idle).Kept
        nodes last .free handed evs data { atom with held := 0 } := by
  obtain ⟨rfl, hinv⟩ := h.invariant.free hpc hnull
  have hrel : (s.pc i).releasing = true := by rw [hpc]; rfl
  have hempty : handed = [] := h.events.noHand fun j => by
    rcases eq_or_ne j i with rfl | hj
    · rw [hpc]
      rfl
    · exact h.invariant.hand_eq_none hrel hj
  have hevs : evs = [] := List.forall₂_nil_left_iff.mp h.events.waits
  have hwaiters : atom.waiters = [] := by
    have hmap := h.waiters
    rw [hempty, hevs] at hmap
    exact List.map_eq_nil_iff.mp hmap
  have hcall : classicNext atom .release = (.released [], { atom with held := 0 }) := by
    simp [classicNext, Guards.AtomicExclusive.release, hwaiters]
  exact ⟨hevs, hempty, hinv, h.events.move_same rfl (fun x _ => ev_setNext _ _ _ x)
    (by rw [hpc]; rfl) knows_idle (fun _ => by rw [hpc]; rfl)
    (fun _ _ x _ => ev_setNext _ _ _ x) (h.events.lag_of_ne (by rw [hpc]; intro _ _ heq; cases heq)),
    h.noted.snoc hcall, iff_of_true rfl rfl, h.waiters⟩

/-- A write to the link of the node that a pop has taken off the list. -/
theorem write_hand (h : s.Kept nodes last owner handed evs data atom) {r next : Pointer}
    (hr : (s.pc i).hand = some r) (hold : pending (s.pc i) = none) (hnew : pending p = none)
    (hhand : p.hand = some r)
    (hinv : ((s.setWaiters (s.waiters.setNext r next)).setPc i p).Invariant nodes last owner) :
    ((s.setWaiters (s.waiters.setNext r next)).setPc i p).Kept nodes last owner handed evs data
      atom := by
  have hev := ev_setNext s.waiters r next
  have hnone : ∀ a, (s.pc i).fresh ≠ some a := by
    rw [(Invariant.of_hand hr).1]
    nofun
  refine ⟨hinv, h.events.move_same rfl (fun x _ => hev x) (hnew.trans hold.symm)
    ⟨fun a ev ha => ?_, fun e he => ?_, fun hd hn hpop => ?_, fun r' hr' => ?_⟩ (fun hp => ?_)
    (fun _ _ x _ => hev x) (h.events.lag_of_ne fun q tl hpc => ?_), h.noted, h.held, h.waiters⟩
  · cases hnew.symm.trans ha
  · cases (Invariant.of_hand hhand).1.symm.trans he
  · subst hpop
    cases hhand
  · obtain rfl : r = r' := Option.some.inj (hhand.symm.trans hr')
    exact (congrArg Option.toList (hev r)).trans ((h.events.knows i).hand r hr)
  · cases hhand.symm.trans hp
  · rw [hpc] at hold
    cases hold

/-- Clearing the link of a popped node keeps what was handed over. -/
theorem clear (h : s.Kept nodes last owner handed evs data atom) {r : Pointer}
    (hpc : s.pc i = .popClear r) :
    ((s.setWaiters (s.waiters.setNext r null)).setPc i (.popWaitEv r)).Kept nodes last owner handed
      evs data atom :=
  h.write_hand (by rw [hpc]; rfl) (by rw [hpc]; rfl) rfl rfl (h.invariant.clear hpc)

/-- Marking a popped node keeps what was handed over. -/
theorem mark (h : s.Kept nodes last owner handed evs data atom) {r : Pointer}
    (hpc : s.pc i = .popMark r) :
    ((s.setWaiters (s.waiters.setNext r 3)).setPc i (.popHand r)).Kept nodes last owner handed
      evs data atom :=
  h.write_hand (by rw [hpc]; rfl) (by rw [hpc]; rfl) rfl rfl (h.invariant.mark hpc)

/-- The event that gets the atomic is the one that has waited longest. -/
theorem handOver (h : s.Kept nodes last owner handed evs data atom) {r : Pointer}
    (hpc : s.pc i = .popHand r) :
    ∃ ev entry rest, (s.waiters.nodes r).ev = some ev ∧ handed = [ev] ∧
      atom.waiters = entry :: rest ∧ entry.event = ev ∧
      ((((s.put r).grant [ev]).note .release (.released [ev])).setPc i .idle).Kept nodes last
        (.event ev) [] evs data { atom with held := 1, waiters := rest } := by
  obtain ⟨ev, hev, hinv⟩ := h.invariant.handOver hpc
  have hhand : (s.pc i).hand = some r := by rw [hpc]; rfl
  obtain rfl : [ev] = handed := by
    rw [← (h.events.knows i).hand r hhand, hev]
    rfl
  obtain ⟨entry, rest, hentry, rfl, hrest⟩ := List.map_eq_cons_iff.mp h.waiters
  have hcall : classicNext atom .release =
      (.released [entry.event], { atom with held := 1, waiters := rest }) := by
    simp [classicNext, Guards.AtomicExclusive.release, hentry]
  refine ⟨_, entry, rest, hev, rfl, hentry, rfl, hinv, h.events.move rfl
    (h.events.waits.imp fun a x hwait => hwait.setPc rfl rfl fun hi => ?_) knows_idle
    (fun j hj => ⟨(h.events.knows j).pending, (h.events.knows j).fresh, (h.events.knows j).popped,
      fun r' hr' => ?_⟩) (by intro _ _ ha; cases ha) h.events.lastEv (fun _ _ => rfl)
    (h.events.lag_of_ne (by rw [hpc]; intro _ _ heq; cases heq)), h.noted.snoc hcall,
    iff_of_false Nat.one_ne_zero (by intro heq; cases heq), hrest⟩
  · cases (h.invariant.hand_eq_none (Invariant.of_hand hhand).2.2 hj).symm.trans hr'
  · rw [hpc] at hi
    cases hi

omit [DecidableEq θ] in
/-- Reclaiming a node nobody uses keeps what was handed over. -/
theorem reclaim (h : s.Kept nodes last owner handed evs data atom) {x : Pointer}
    (hx : x ∈ s.retired) (hunused : ∀ i, x ∉ (s.pc i).uses) :
    SharedExclusive.Kept { s with inUse := s.inUse.erase x, retired := s.retired.erase x } nodes
      last owner handed evs data atom :=
  ⟨h.invariant.reclaim hx hunused,
    ⟨h.events.waits, h.events.knows, h.events.pending_eq, h.events.lastEv, h.events.noHand,
      h.events.lag⟩, h.noted, h.held, h.waiters⟩

/-- What one step keeps of the waiting events. -/
theorem step {action : Action θ} (h : s.Kept nodes last owner handed evs data atom)
    (hstep : Step s action t) (hlink : LinksAtTail s action t) :
    ∃ nodes' last' owner' handed' evs' atom',
      t.Kept nodes' last' owner' handed' evs' data atom' := by
  cases hstep with
  | acquireOrWait hpc hnode hnew => exact ⟨_, _, _, _, _, _, h.acquireOrWait hpc hnode hnew⟩
  | read hread => exact ⟨_, _, _, _, _, _, h.read hread⟩
  | take hpc hone => exact ⟨_, _, _, _, _, _, h.take hpc hone⟩
  | link hpc _ hnull => exact ⟨_, _, _, _, _, _, h.link hpc hnull (hlink _ _ _ rfl hpc)⟩
  | swing hpc => exact ⟨_, _, _, _, _, _, h.swing hpc⟩
  | store hpc => exact ⟨_, _, _, _, _, _, h.store hpc⟩
  | release hpc hev => exact ⟨_, _, _, _, _, _, h.release hpc hev⟩
  | moveHead hpc _ =>
      obtain ⟨rest, ev, evs', -, -, hkept⟩ := h.moveHead hpc
      exact ⟨_, _, _, _, _, _, hkept⟩
  | free hpc hnull => exact ⟨_, _, _, _, _, _, (h.free hpc hnull).2.2⟩
  | clear hpc => exact ⟨_, _, _, _, _, _, h.clear hpc⟩
  | mark hpc => exact ⟨_, _, _, _, _, _, h.mark hpc⟩
  | hand hpc =>
      obtain ⟨ev, entry, rest, hev, -, -, -, hkept⟩ := h.handOver hpc
      rw [hev]
      exact ⟨_, _, _, _, _, _, hkept⟩
  | reclaim hx hunused => exact ⟨_, _, _, _, _, _, h.reclaim hx hunused⟩

end Kept

/-! ## Runs -/

/-- Nothing was handed over at the start. -/
theorem Initial.kept {dummy : Pointer} (h : Initial s dummy) (data : Option D) :
    s.Kept [] dummy .free [] [] data { data := data } where
  invariant := h.invariant
  events :=
    { waits := .nil
      knows := fun i => by
        rw [h.pc i]
        exact knows_idle
      pending_eq := fun i j a ev ev' hi => by
        rw [h.pc i] at hi
        cases hi
      lastEv := by rw [h.dummy]
      noHand := fun _ => rfl
      lag := .inl h.tail }
  noted := by
    rw [h.noted]
    exact .nil _
  held := iff_of_true rfl rfl
  waiters := rfl

/-- When no call is going on, the list is one that single calls leave. -/
theorem Kept.represents {data : Option D} {atom : Guards.AtomicExclusive D}
    (h : s.Kept nodes last owner handed evs data atom) (hidle : ∀ i, s.pc i = .idle) :
    s.waiters.Represents s.inUse.toList nodes (atom.held != 0)
      (atom.waiters.map AtomicQueueEntry.event) := by
  have hempty : handed = [] := h.events.noHand fun i => by
    rw [hidle i]
    rfl
  have htail : s.waiters.tail = last := h.events.lag.resolve_right fun ⟨i, q, hi⟩ => by
    cases (hidle i).symm.trans hi
  have hstored : List.Forall₂ (fun a ev => (s.waiters.nodes a).ev = some ev) nodes evs :=
    h.events.waits.imp fun a ev hwait => hwait.resolve_right fun ⟨_, i, hi⟩ => by
      rw [hidle i] at hi
      cases hi
  have hfree := h.held
  rw [h.waiters, hempty, List.nil_append]
  refine ⟨⟨htail ▸ h.invariant.shape.segment, htail ▸ h.invariant.shape.nodup, ?_⟩, ?_, ?_, ?_, ?_⟩
  · rw [← List.forall₂_eq_eq_eq, List.forall₂_map_left_iff, List.forall₂_map_right_iff]
    exact hstored
  · rw [htail]
    exact fun p hp => ⟨h.invariant.shape.address p (h.invariant.shape.linked p hp).1,
      Finset.mem_toList.mpr (h.invariant.shape.linked p hp).1⟩
  · rw [htail]
    exact h.events.lastEv
  · rw [htail]
    by_cases hheld : atom.held = 0
    · simpa [hheld] using (h.invariant.shape.free (hfree.mp hheld)).2
    · simpa [hheld] using h.invariant.shape.held fun heq => hheld (hfree.mpr heq)
  · intro hheld
    have hnil := (h.invariant.shape.free (hfree.mp (by simpa using hheld))).1
    rw [hnil] at hstored
    exact List.forall₂_nil_left_iff.mp hstored

theorem linksAtTail_of_ne {action : Action θ} (h : ∀ i, action ≠ .write i) :
    LinksAtTail s action t :=
  fun i _ _ hi => absurd hi (h i)

/-- A write that finds its tail links at the tail. -/
theorem linksAtTail_of_pc (hpc : s.pc i = p) (htail : ∀ q tl, p = .pushLink q tl →
    s.waiters.tail = tl) : LinksAtTail s (.write i) t := by
  intro j q tl hj hpush
  cases hj
  exact htail q tl (hpc.symm.trans hpush)

section Runs

variable [DecidableEq θ]

theorem exists_kept (data : Option D) (h : ((system θ).restrict LinksAtTail).Reachable s) :
    ∃ nodes last owner handed evs atom, s.Kept nodes last owner handed evs data atom := by
  refine h.invariant (P := fun s => ∃ nodes last owner handed evs atom,
    s.Kept nodes last owner handed evs data atom) ?_ ?_
  · rintro s ⟨dummy, hinit⟩
    exact ⟨_, _, _, _, _, _, hinit.kept data⟩
  · rintro s action t ⟨nodes, last, owner, handed, evs, atom, hs⟩ ⟨hstep, hlink⟩
    exact hs.step hstep hlink

/-- As long as each push links its node at the tail, the calls answer as those of the classic atomic
one after another.  When no call is going on, the events that wait in the list are those of the
classic atomic, and an event holds the atomic exactly if the classic one is held. -/
theorem waiting_events_kept (data : Option D)
    (h : ((system θ).restrict LinksAtTail).Reachable s) :
    ∃ atom, (classicMachine D).Trace { data := data } s.noted atom ∧
      ((∀ i, s.pc i = .idle) →
        (∀ evs, s.waiters.Waiting evs ↔ evs = atom.waiters.map AtomicQueueEntry.event) ∧
          (s.holders = [] ↔ atom.held = 0)) := by
  obtain ⟨nodes, last, owner, handed, evs, atom, hs⟩ := exists_kept data h
  refine ⟨atom, hs.noted, fun hidle => ⟨fun evs' => (hs.represents hidle).waiting_iff, ?_⟩⟩
  rw [hs.invariant.holders, hs.held]
  cases owner with
  | free => exact iff_of_true rfl rfl
  | event ev => exact ⟨nofun, nofun⟩
  | thread i =>
      have hrel := (hs.invariant.releasing i).mpr rfl
      rw [hidle i] at hrel
      cases hrel

/-- The second event waits in the list. -/
theorem waiting_events_kept_second :
    ∃ s : SharedExclusive (Fin 2),
      s.noted = [(.acquireOrWait 1 3, .acquired true), (.acquireOrWait 2 3, .acquired false)] ∧
      s.waiters.Waiting [2] := by
  have hnew : ((system (Fin 2)).restrict LinksAtTail).Reachable (new 4) :=
    .init ⟨4, new_initial ⟨rfl, by decide⟩⟩
  have hread : ∀ {s : SharedExclusive (Fin 2)} {i : Fin 2} (p : ExclusivePc),
      ((system (Fin 2)).restrict LinksAtTail).Reachable s → (s.pc i).read s.waiters = some p →
        ((system (Fin 2)).restrict LinksAtTail).Reachable (s.setPc i p) :=
    fun p hs hread => hs.step ⟨.read hread, linksAtTail_of_ne nofun⟩
  have hfirst := hread (i := 0) (.pushTake ⟨8, 1, 3⟩ 4) (hread (i := 0) (.pushNext ⟨8, 1, 3⟩ 4)
    (hread (i := 0) (.pushCheckHead ⟨8, 1, 3⟩ 4) (hnew.step ⟨.acquireOrWait (i := 0) (v := 1)
      (w := 3) (e := 8) rfl ⟨rfl, by decide⟩ (by decide), linksAtTail_of_ne nofun⟩) rfl) rfl) rfl
  have htaken := hfirst.step ⟨.take (i := 0) (q := ⟨8, 1, 3⟩) (h := 4) rfl rfl,
    linksAtTail_of_pc (p := .pushTake ⟨8, 1, 3⟩ 4) rfl nofun⟩
  have hsecond := hread (i := 1) (.pushTail ⟨12, 2, 3⟩) (hread (i := 1) (.pushNext ⟨12, 2, 3⟩ 4)
    (hread (i := 1) (.pushCheckHead ⟨12, 2, 3⟩ 4) (htaken.step ⟨.acquireOrWait (i := 1) (v := 2)
      (w := 3) (e := 12) rfl ⟨rfl, by decide⟩ (by decide), linksAtTail_of_ne nofun⟩) rfl) rfl)
        rfl
  have htail := hread (i := 1) (.pushLink ⟨12, 2, 3⟩ 4) (hread (i := 1) (.pushTailNext ⟨12, 2, 3⟩ 4)
    (hread (i := 1) (.pushCheckTail ⟨12, 2, 3⟩ 4) hsecond rfl) rfl) rfl
  have hlinked := htail.step ⟨.link (i := 1) (q := ⟨12, 2, 3⟩) (t := 4) rfl (by decide) rfl,
    linksAtTail_of_pc (p := .pushLink ⟨12, 2, 3⟩ 4) rfl fun _ _ hpc => by cases hpc; rfl⟩
  have hswung := hlinked.step ⟨.swing (i := 1) (q := ⟨12, 2, 3⟩) (t := 4) rfl,
    linksAtTail_of_pc (p := .pushSwing ⟨12, 2, 3⟩ 4) rfl nofun⟩
  have hend := hswung.step ⟨.store (i := 1) (q := ⟨12, 2, 3⟩) (t := 4) rfl,
    linksAtTail_of_pc (p := .pushStore ⟨12, 2, 3⟩ 4) rfl nofun⟩
  obtain ⟨atom, htrace, hidle⟩ := waiting_events_kept (D := Unit) none hend
  refine ⟨_, rfl, ((hidle (Fin.forall_fin_two.mpr ⟨rfl, rfl⟩)).1 [2]).mpr ?_⟩
  obtain _ | ⟨hfirst, _ | ⟨hsecond, _ | _⟩⟩ := htrace
  cases hfirst
  cases hsecond
  rfl

/-- Without the condition a waiting event can be lost: the second request links its node behind one
that the release has taken off the list. -/
theorem exists_lost_event :
    ∃ s : SharedExclusive (Fin 3), (system (Fin 3)).Reachable s ∧ (∀ i, s.pc i = .idle) ∧
      s.noted = [(.acquireOrWait 1 3, .acquired true), (.acquireOrWait 3 3, .acquired false),
        (.acquireOrWait 2 3, .acquired false), (.release, .released [3])] ∧
      s.holders = [3] ∧ s.waiters.Waiting [] := by
  have hread : ∀ {s : SharedExclusive (Fin 3)} {i : Fin 3} (p : ExclusivePc),
      (system (Fin 3)).Reachable s → (s.pc i).read s.waiters = some p →
        (system (Fin 3)).Reachable (s.setPc i p) :=
    fun p hs hread => hs.step (.read hread)
  have hnew : (system (Fin 3)).Reachable (new 4) := .init ⟨4, new_initial ⟨rfl, by decide⟩⟩
  -- the first request takes the atomic
  have hfirst := hread (i := 0) (.pushTake ⟨8, 1, 3⟩ 4) (hread (i := 0) (.pushNext ⟨8, 1, 3⟩ 4)
    (hread (i := 0) (.pushCheckHead ⟨8, 1, 3⟩ 4) (hnew.step (.acquireOrWait (i := 0) (v := 1)
      (w := 3) (e := 8) rfl ⟨rfl, by decide⟩ (by decide))) rfl) rfl) rfl
  have htaken := hfirst.step (.take (i := 0) (q := ⟨8, 1, 3⟩) (h := 4) rfl rfl)
  -- the second one has read that node 4 is the tail
  have hsecond := hread (i := 1) (.pushTail ⟨12, 2, 3⟩) (hread (i := 1) (.pushNext ⟨12, 2, 3⟩ 4)
    (hread (i := 1) (.pushCheckHead ⟨12, 2, 3⟩ 4) (htaken.step (.acquireOrWait (i := 1) (v := 2)
      (w := 3) (e := 12) rfl ⟨rfl, by decide⟩ (by decide))) rfl) rfl) rfl
  have hstale := hread (i := 1) (.pushLink ⟨12, 2, 3⟩ 4) (hread (i := 1) (.pushTailNext ⟨12, 2, 3⟩ 4)
    (hread (i := 1) (.pushCheckTail ⟨12, 2, 3⟩ 4) hsecond rfl) rfl) rfl
  -- the third one waits in node 4
  have hthird := hread (i := 2) (.pushTail ⟨16, 3, 3⟩) (hread (i := 2) (.pushNext ⟨16, 3, 3⟩ 4)
    (hread (i := 2) (.pushCheckHead ⟨16, 3, 3⟩ 4) (hstale.step (.acquireOrWait (i := 2) (v := 3)
      (w := 3) (e := 16) rfl ⟨rfl, by decide⟩ (by decide))) rfl) rfl) rfl
  have htail := hread (i := 2) (.pushLink ⟨16, 3, 3⟩ 4) (hread (i := 2) (.pushTailNext ⟨16, 3, 3⟩ 4)
    (hread (i := 2) (.pushCheckTail ⟨16, 3, 3⟩ 4) hthird rfl) rfl) rfl
  have hwaits := ((htail.step (.link (i := 2) (q := ⟨16, 3, 3⟩) (t := 4) rfl (by decide) rfl)).step
    (.swing (i := 2) (q := ⟨16, 3, 3⟩) (t := 4) rfl)).step
    (.store (i := 2) (q := ⟨16, 3, 3⟩) (t := 4) rfl)
  -- the release takes node 4 off the list and clears its link
  have hpop := hread (i := 0) (.popTail 4 16) (hread (i := 0) (.popNext 4)
    (hread (i := 0) (.popCheckHead 4) (hwaits.step (.release (i := 0) (v := 1) rfl (by decide)))
      rfl) rfl) rfl
  have hcompare := hread (i := 0) (.popCompare 4 16) (hread (i := 0) (.popTailNext 4 16 16)
    (hread (i := 0) (.popCheckTail 4 16 16) hpop rfl) rfl) rfl
  have hmove := hread (i := 0) (.popMoveHead 4 16) (hread (i := 0) (.popEv 4 16) hcompare rfl) rfl
  have hclear := (hmove.step (.moveHead (i := 0) (h := 4) (n := 16) rfl rfl)).step
    (.clear (i := 0) (r := 4) rfl)
  -- now the compare-and-swap of the second request succeeds on it
  have hlost := (hclear.step (.link (i := 1) (q := ⟨12, 2, 3⟩) (t := 4) rfl (by decide) rfl)).step
    (.swing (i := 1) (q := ⟨12, 2, 3⟩) (t := 4) rfl)
  have hmark := (hread (i := 0) (.popMark 4) hlost rfl).step (.mark (i := 0) (r := 4) rfl)
  have hend := (hmark.step (.hand (i := 0) (r := 4) rfl)).step
    (.store (i := 1) (q := ⟨12, 2, 3⟩) (t := 4) rfl)
  exact ⟨_, hend, Fin.forall_fin_succ.mpr ⟨rfl, Fin.forall_fin_two.mpr ⟨rfl, rfl⟩⟩, rfl, rfl,
    16, .done rfl⟩

end Runs

end SharedExclusive
end Lockfree
end OFlux
