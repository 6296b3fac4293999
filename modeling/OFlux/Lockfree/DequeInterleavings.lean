import OFlux.Lockfree.WorkStealingDeque

/-!
# The work-stealing deque under interleavings

One thread owns the deque and pushes and pops at the bottom; the others steal at the top.  Every
access to {lit}`_bottom`, {lit}`_top`, {lit}`_active_array` and the entries of an array is one step,
and the steps of the calls interleave freely.  Only the owner writes the bottom index, the pointer to
the array and the entries, so that its reads of them belong to the step that follows.  Arrays that
have been replaced stay, because a thief may still read them.

The calls are noted with their answers, each at the step that decides it.  Indices are integers: they
have 64 bits in the source, and would overflow after 2^63 pushes.

Main results:

- Theorem {lit}`Invariant.step`: what one step keeps.
- Theorem {lit}`noted_calls_answer`: in the order in which they are noted, the calls answer as those
  of a double-ended queue, and what remains stands in the array.
-/

namespace OFlux
namespace Lockfree
namespace WorkStealing

open Library

variable {T θ : Type}

/-! ## State -/

/-- A double-ended queue that answers one call after another. -/
def dequeMachine (T : Type) : Machine (List T) (DequeCall T) (DequeAnswer T) :=
  .ofNext (· = []) dequeNext

/-- Where the owner is; {lit}`a` is an array, {lit}`b` and {lit}`t` are the indices it has read. -/
inductive OwnerPc (T : Type) where
  | idle
  | pushReadTop (e : T) (b : Int)
  | pushGrow (e : T) (b t : Int)
  | pushPut (e : T) (b : Int) (a : Nat)
  | pushWriteBottom (e : T) (b : Int)
  | popWriteBottom (b : Int) (a : Nat)
  | popReadTop (b : Int) (a : Nat)
  | popResetBottom (t : Int)
  | popCasTop (t : Int) (e : Option T)
  | popRaiseBottom (t : Int)

/-- Where a thief is. -/
inductive ThiefPc (T : Type) where
  | idle
  | readBottom (t : Int)
  | readArray (t b : Int)
  | readEntry (t : Int) (a : Nat)
  | casTop (t : Int) (e : Option T)

/-- The fields of the deque, where the threads are, and the calls that are decided. -/
structure SharedDeque (T θ : Type) where
  bottom : Int := 0
  top : Int := 0
  arrays : Nat → CircularArray T := fun _ => {}
  activeArray : Nat := 0
  owner : OwnerPc T := .idle
  thief : θ → ThiefPc T := fun _ => .idle
  noted : List (DequeCall T × DequeAnswer T) := []

namespace SharedDeque

/-- Notes a call at the step that decides its answer. -/
@[simps]
def note (s : SharedDeque T θ) (call : DequeCall T) (answer : DequeAnswer T) : SharedDeque T θ :=
  { s with noted := s.noted ++ [(call, answer)] }

/-- Moves the owner to its next step. -/
@[simps]
def setOwner (s : SharedDeque T θ) (p : OwnerPc T) : SharedDeque T θ :=
  { s with owner := p }

/-- Moves thief `i` to its next step. -/
@[simps]
def setThief [DecidableEq θ] (s : SharedDeque T θ) (i : θ) (p : ThiefPc T) : SharedDeque T θ :=
  { s with thief := Function.update s.thief i p }

/-- Writes `_bottom`. -/
@[simps]
def setBottom (s : SharedDeque T θ) (b : Int) : SharedDeque T θ :=
  { s with bottom := b }

/-- What {lit}`cas_top` writes when it succeeds. -/
@[simps]
def raiseTop (s : SharedDeque T θ) (t : Int) : SharedDeque T θ :=
  { s with top := t + 1 }

/-- Writes entry `b` of array `a`. -/
@[simps]
def putEntry (s : SharedDeque T θ) (a : Nat) (b : Int) (e : T) : SharedDeque T θ :=
  { s with arrays := Function.update s.arrays a ((s.arrays a).put b (some e)) }

/-- The array that {lit}`grow` returns becomes the active one. -/
@[simps]
def install (s : SharedDeque T θ) (res : CircularArray T) : SharedDeque T θ :=
  { s with
    arrays := Function.update s.arrays (s.activeArray + 1) res
    activeArray := s.activeArray + 1 }

/-! ## Steps -/

/-- A call begins, or a thread takes its next step. -/
inductive Action (T θ : Type) where
  | pushBottom (e : T)
  | popBottom
  | owner
  | steal (i : θ)
  | thief (i : θ)

/-- One step of the owner or of a thief. -/
inductive Step [DecidableEq θ] (s : SharedDeque T θ) : Action T θ → SharedDeque T θ → Prop where
  | pushBottom {e : T} :
      s.owner = .idle → Step s (.pushBottom e) (s.setOwner (.pushReadTop e s.bottom))
  | pushReadTop {e : T} {b : Int} :
      s.owner = .pushReadTop e b → Step s .owner (s.setOwner (.pushGrow e b s.top))
  | grow {e : T} {b t : Int} {res : CircularArray T} :
      s.owner = .pushGrow e b t → b - t ≥ (s.arrays s.activeArray).size - 1 →
      (s.arrays s.activeArray).grow b t = .ok res →
      Step s .owner ((s.install res).setOwner (.pushPut e b (s.activeArray + 1)))
  | growFails {e : T} {b t : Int} {failure : Failure} :
      s.owner = .pushGrow e b t → b - t ≥ (s.arrays s.activeArray).size - 1 →
      (s.arrays s.activeArray).grow b t = .error failure →
      Step s .owner (s.setOwner .idle)
  | fits {e : T} {b t : Int} :
      s.owner = .pushGrow e b t → ¬ b - t ≥ (s.arrays s.activeArray).size - 1 →
      Step s .owner (s.setOwner (.pushPut e b s.activeArray))
  | pushPut {e : T} {b : Int} {a : Nat} :
      s.owner = .pushPut e b a →
      Step s .owner ((s.putEntry a b e).setOwner (.pushWriteBottom e b))
  | pushWriteBottom {e : T} {b : Int} :
      s.owner = .pushWriteBottom e b →
      Step s .owner (((s.setBottom (b + 1)).setOwner .idle).note (.pushBottom e) .pushed)
  | popBottom :
      s.owner = .idle →
      Step s .popBottom (s.setOwner (.popWriteBottom (s.bottom - 1) s.activeArray))
  | popWriteBottom {b : Int} {a : Nat} :
      s.owner = .popWriteBottom b a → Step s .owner ((s.setBottom b).setOwner (.popReadTop b a))
  | popNone {b : Int} {a : Nat} :
      s.owner = .popReadTop b a → b - s.top < 0 →
      Step s .owner ((s.setOwner (.popResetBottom s.top)).note .popBottom (.ptr .empty))
  | popMore {b : Int} {a : Nat} :
      s.owner = .popReadTop b a → b - s.top > 0 →
      Step s .owner
        ((s.setOwner .idle).note .popBottom (.ptr (.entry ((s.arrays a).get b))))
  | popLast {b : Int} {a : Nat} :
      s.owner = .popReadTop b a → b - s.top = 0 →
      Step s .owner (s.setOwner (.popCasTop s.top ((s.arrays a).get b)))
  | popResetBottom {t : Int} :
      s.owner = .popResetBottom t → Step s .owner ((s.setBottom t).setOwner .idle)
  | popCasTop {t : Int} {e : Option T} :
      s.owner = .popCasTop t e → s.top = t →
      Step s .owner
        (((s.raiseTop t).setOwner (.popRaiseBottom t)).note .popBottom (.ptr (.entry e)))
  | popCasTopFails {t : Int} {e : Option T} :
      s.owner = .popCasTop t e → s.top ≠ t →
      Step s .owner ((s.setOwner (.popRaiseBottom t)).note .popBottom (.ptr .empty))
  | popRaiseBottom {t : Int} :
      s.owner = .popRaiseBottom t → Step s .owner ((s.setBottom (t + 1)).setOwner .idle)
  | steal {i : θ} :
      s.thief i = .idle → Step s (.steal i) (s.setThief i (.readBottom s.top))
  | readBottom {i : θ} {t : Int} :
      s.thief i = .readBottom t → Step s (.thief i) (s.setThief i (.readArray t s.bottom))
  | stealNone {i : θ} {t b : Int} :
      s.thief i = .readArray t b → b - t ≤ 0 → Step s (.thief i) (s.setThief i .idle)
  | readArray {i : θ} {t b : Int} :
      s.thief i = .readArray t b → ¬ b - t ≤ 0 →
      Step s (.thief i) (s.setThief i (.readEntry t s.activeArray))
  | readEntry {i : θ} {t : Int} {a : Nat} :
      s.thief i = .readEntry t a →
      Step s (.thief i) (s.setThief i (.casTop t ((s.arrays a).get t)))
  | casTop {i : θ} {t : Int} {e : Option T} :
      s.thief i = .casTop t e → s.top = t →
      Step s (.thief i) (((s.raiseTop t).setThief i .idle).note .steal (.ptr (.entry e)))
  | casTopFails {i : θ} {t : Int} {e : Option T} :
      s.thief i = .casTop t e → s.top ≠ t → Step s (.thief i) (s.setThief i .idle)

variable (T θ) in
/-- The owner and the thieves over the shared deque, one access a step. -/
def system [DecidableEq θ] : TransitionSystem (SharedDeque T θ) (Action T θ) where
  init s := s = {}
  step := Step

end SharedDeque

/-! ## What the threads may rely on -/

/-- How far the owner has moved the bottom index below the last element that remains. -/
def OwnerPc.lead : OwnerPc T → Int
  | .popReadTop _ _ | .popResetBottom _ | .popCasTop _ _ | .popRaiseBottom _ => 1
  | _ => 0

namespace SharedDeque

variable (s : SharedDeque T θ) (remaining : List T)

/-- The array that the owner and the thieves read through `_active_array`. -/
def array : CircularArray T :=
  s.arrays s.activeArray

/-- What the owner has read so far still says about the shared state. -/
def OwnerFacts : OwnerPc T → Prop
  | .idle => True
  | .pushReadTop _ b => b = s.bottom
  | .pushGrow _ b t => b = s.bottom ∧ 0 ≤ t ∧ t ≤ s.top ∧ b < t + s.array.size
  | .pushPut _ b a => b = s.bottom ∧ a = s.activeArray ∧ remaining.length + 1 < s.array.size
  | .pushWriteBottom e b =>
      b = s.bottom ∧ remaining.length + 1 < s.array.size ∧ s.array.get b = some e
  | .popWriteBottom b a => b = s.bottom - 1 ∧ a = s.activeArray
  | .popReadTop b a => b = s.bottom ∧ a = s.activeArray
  | .popResetBottom t => remaining = [] ∧ t = s.top
  | .popCasTop t e => t = s.bottom ∧ t ≤ s.top ∧ e = s.array.get t
  | .popRaiseBottom t => remaining = [] ∧ t + 1 = s.top

/-- As long as the top index has not moved, what a thief has seen of the oldest element is right. -/
def ThiefFacts : ThiefPc T → Prop
  | .idle => True
  | .readBottom t => t ≤ s.top
  | .readArray t b => t ≤ s.top ∧ (t = s.top → t < b → remaining ≠ [])
  | .readEntry t a =>
      t ≤ s.top ∧ a ≤ s.activeArray ∧
        (t = s.top → remaining ≠ [] ∧ (s.arrays a).get t = s.array.get t)
  | .casTop t e => t ≤ s.top ∧ (t = s.top → remaining ≠ [] ∧ e = s.array.get t)

/-- The noted calls leave the elements that remain, and these are in the entries from the top index
on. -/
structure Invariant : Prop where
  noted : (dequeMachine T).Trace [] s.noted remaining
  top : 0 ≤ s.top
  bottom : s.bottom + s.owner.lead = s.top + remaining.length
  room : remaining.length < s.array.size
  live : ∀ (k : Nat) e, remaining[k]? = some e → s.array.get (s.top + k) = some e
  owner : s.OwnerFacts remaining s.owner
  thief : ∀ i, s.ThiefFacts remaining (s.thief i)

section

variable {s s' : SharedDeque T θ} {remaining remaining' : List T}

/-- What a thief has seen stays right if the oldest element and the arrays with it stay. -/
theorem ThiefFacts.mono {p : ThiefPc T} (h : s.ThiefFacts remaining p) (htop : s.top ≤ s'.top)
    (hactive : s.activeArray ≤ s'.activeArray)
    (hsame : s'.top = s.top → remaining ≠ [] →
      remaining' ≠ [] ∧ s'.array.get s.top = s.array.get s.top ∧
        ∀ a ≤ s.activeArray, (s.arrays a).get s.top = s.array.get s.top →
          (s'.arrays a).get s.top = s.array.get s.top) :
    s'.ThiefFacts remaining' p := by
  cases p with
  | idle => trivial
  | readBottom t => exact le_trans h htop
  | readArray t b =>
      obtain ⟨hle, hrest⟩ := h
      refine ⟨hle.trans htop, fun ht hlt => ?_⟩
      have hst : t = s.top := le_antisymm hle (ht ▸ htop)
      exact (hsame (ht.symm.trans hst) (hrest hst hlt)).1
  | readEntry t a =>
      obtain ⟨hle, ha, hrest⟩ := h
      refine ⟨hle.trans htop, ha.trans hactive, fun ht => ?_⟩
      obtain rfl : t = s.top := le_antisymm hle (ht ▸ htop)
      obtain ⟨hne, hget⟩ := hrest rfl
      obtain ⟨hne', harray, harrays⟩ := hsame ht.symm hne
      exact ⟨hne', (harrays a ha hget).trans harray.symm⟩
  | casTop t e =>
      obtain ⟨hle, hrest⟩ := h
      refine ⟨hle.trans htop, fun ht => ?_⟩
      obtain rfl : t = s.top := le_antisymm hle (ht ▸ htop)
      obtain ⟨hne, rfl⟩ := hrest rfl
      obtain ⟨hne', harray, -⟩ := hsame ht.symm hne
      exact ⟨hne', harray.symm⟩

/-- Once the top index has moved on, a thief that has read it before can only fail. -/
theorem ThiefFacts.raiseTop {p : ThiefPc T} (h : s.ThiefFacts remaining p) (hs : s'.top = s.top + 1)
    (hactive : s.activeArray ≤ s'.activeArray) : s'.ThiefFacts remaining' p :=
  h.mono (by omega) hactive fun ht => absurd ht (by omega)

namespace Invariant

theorem initial : Invariant ({} : SharedDeque T θ) [] where
  noted := .nil []
  top := le_rfl
  bottom := rfl
  room := CircularArray.size_pos _
  live k e hk := by simp at hk
  owner := trivial
  thief i := trivial

/-- The owner moves on, and may write the bottom index. -/
theorem moveBottom (h : Invariant s remaining) {b : Int} {p : OwnerPc T}
    (hb : b + p.lead = s.bottom + s.owner.lead)
    (hp : ((s.setBottom b).setOwner p).OwnerFacts remaining p) :
    Invariant ((s.setBottom b).setOwner p) remaining where
  noted := h.noted
  top := h.top
  bottom := hb.trans h.bottom
  room := h.room
  live := h.live
  owner := hp
  thief := h.thief

/-- A step of the owner that only reads keeps the invariant. -/
theorem setOwner (h : Invariant s remaining) {p : OwnerPc T} (hlead : p.lead = s.owner.lead)
    (hp : (s.setOwner p).OwnerFacts remaining p) : Invariant (s.setOwner p) remaining :=
  h.moveBottom (b := s.bottom) (by rw [hlead]) hp

/-- A step of a thief that only reads keeps the invariant. -/
theorem setThief [DecidableEq θ] (h : Invariant s remaining) {i : θ} {p : ThiefPc T}
    (hp : s.ThiefFacts remaining p) : Invariant (s.setThief i p) remaining where
  noted := h.noted
  top := h.top
  bottom := h.bottom
  room := h.room
  live := h.live
  owner := h.owner
  thief j := by
    show s.ThiefFacts remaining (Function.update s.thief i p j)
    rcases eq_or_ne j i with rfl | hne
    · rwa [Function.update_self]
    · rw [Function.update_of_ne hne]
      exact h.thief j

/-- The entry of an element that remains. -/
theorem get_top (h : Invariant s remaining) {e : T} (he : remaining.head? = some e) :
    s.array.get s.top = some e := by
  have hlive := h.live 0 e (by rw [← List.head?_eq_getElem?, he])
  rwa [Nat.cast_zero, add_zero] at hlive

/-- Growing the array keeps the invariant. -/
theorem pushGrow (h : Invariant s remaining) {e : T} {b t : Int} {res : CircularArray T}
    (hpc : s.owner = .pushGrow e b t) (hfull : b - t ≥ s.array.size - 1)
    (hgrow : s.array.grow b t = .ok res) :
    Invariant ((s.install res).setOwner (.pushPut e b (s.activeArray + 1))) remaining := by
  have hfacts := h.owner
  have hbottom := h.bottom
  have htop := h.top
  rw [hpc] at hfacts hbottom
  obtain ⟨rfl, ht, hle, hroom⟩ := hfacts
  have hlog : s.array.logSize + 1 ≤ 30 := by
    by_contra hlog
    exact nomatch (CircularArray.grow_of_lt (Nat.lt_of_not_le hlog)).symm.trans hgrow
  obtain ⟨res', hgrow', hlogSize, hget⟩ := CircularArray.grow_of_le hlog ht hroom.le
  obtain rfl : res' = res := Except.ok.inj (hgrow'.symm.trans hgrow)
  have hsize : res'.size = 2 * s.array.size := by
    rw [CircularArray.size, hlogSize, pow_succ, mul_comm, CircularArray.size]
  have harray : ((s.install res').setOwner (.pushPut e s.bottom (s.activeArray + 1))).array =
      res' := by
    simp [array]
  have hold : ∀ a ≤ s.activeArray, (s.install res').arrays a = s.arrays a := fun a ha =>
    Function.update_of_ne (by omega) _ _
  have hpos := s.array.size_pos
  simp only [OwnerPc.lead] at hbottom
  refine ⟨h.noted, htop, by simpa [OwnerPc.lead] using hbottom, ?_, fun k x hk => ?_, ⟨rfl, rfl, ?_⟩,
    fun i => (h.thief i).mono le_rfl (Nat.le_succ _) fun _ hne => ⟨hne, ?_, fun a ha hsame => ?_⟩⟩
  · rw [harray]
    have := h.room
    omega
  · have hlt := (List.getElem?_eq_some_iff.mp hk).1
    rw [harray]
    exact (hget _ (by simp; omega) (by simp; omega)).trans (h.live k x hk)
  · rw [harray]
    omega
  · rw [harray]
    have hpos := List.length_pos_of_ne_nil hne
    exact hget _ hle (by omega)
  · exact (congrArg (CircularArray.get · s.top) (hold a ha)).trans hsame

/-- Writing the entry keeps the invariant. -/
theorem pushPut (h : Invariant s remaining) {e : T} {b : Int} {a : Nat}
    (hpc : s.owner = .pushPut e b a) :
    Invariant ((s.putEntry a b e).setOwner (.pushWriteBottom e b)) remaining := by
  have hfacts := h.owner
  have hbottom := h.bottom
  have htop := h.top
  rw [hpc] at hfacts hbottom
  obtain ⟨rfl, rfl, hroom⟩ := hfacts
  simp only [OwnerPc.lead, add_zero] at hbottom
  have harray : ((s.putEntry s.activeArray s.bottom e).setOwner (.pushWriteBottom e s.bottom)).array =
      s.array.put s.bottom (some e) := by
    simp [array]
  have hkeep : ∀ j, s.top ≤ j → j < s.bottom →
      (s.array.put s.bottom (some e)).get j = s.array.get j := fun j hj hlt =>
    s.array.get_put_of_lt _ (by omega) hlt (by omega)
  refine ⟨h.noted, htop, by simpa [OwnerPc.lead] using hbottom, ?_, fun k x hk => ?_,
    ⟨rfl, ?_, ?_⟩, fun i => (h.thief i).mono le_rfl le_rfl fun _ hne => ⟨hne, ?_, fun a ha hsame => ?_⟩⟩
  · rw [harray]
    exact h.room
  · have hlt := (List.getElem?_eq_some_iff.mp hk).1
    rw [harray]
    exact (hkeep _ (by simp) (by simp; omega)).trans (h.live k x hk)
  · rw [harray]
    exact hroom
  · rw [harray]
    exact s.array.get_put_self _ _
  · have hpos := List.length_pos_of_ne_nil hne
    rw [harray]
    exact hkeep _ le_rfl (by omega)
  · have hpos := List.length_pos_of_ne_nil hne
    rcases eq_or_ne a s.activeArray with rfl | hold
    · simpa [array] using hkeep _ le_rfl (by omega)
    · simpa [Function.update_of_ne hold] using hsame

/-- Moving the bottom pushes the entry. -/
theorem pushWriteBottom (h : Invariant s remaining) {e : T} {b : Int}
    (hpc : s.owner = .pushWriteBottom e b) :
    Invariant (((s.setBottom (b + 1)).setOwner .idle).note (.pushBottom e) .pushed)
      (remaining ++ [e]) := by
  have hfacts := h.owner
  have hbottom := h.bottom
  rw [hpc] at hfacts hbottom
  obtain ⟨rfl, hroom, hget⟩ := hfacts
  simp only [OwnerPc.lead, add_zero] at hbottom
  refine ⟨h.noted.snoc rfl, h.top, ?_, ?_, fun k x hk => ?_, trivial,
    fun i => (h.thief i).mono le_rfl le_rfl fun _ _ => ⟨by simp, rfl, fun _ _ hsame => hsame⟩⟩
  · simp only [OwnerPc.lead, note_bottom, setOwner_bottom, setBottom_bottom, note_owner,
      setOwner_owner, note_top, setOwner_top, setBottom_top, List.length_append,
      List.length_singleton]
    push_cast
    omega
  · rw [List.length_append, List.length_singleton]
    exact_mod_cast hroom
  · show s.array.get (s.top + k) = some x
    rcases Nat.lt_or_ge k remaining.length with hlive | hnew
    · rw [List.getElem?_append_left hlive] at hk
      exact h.live k x hk
    · rw [List.getElem?_append_right hnew, List.getElem?_singleton] at hk
      split at hk
      next hzero =>
        have hlast : s.top + k = s.bottom := by omega
        rw [hlast, hget, hk]
      next => cases hk

/-- A pop decides that nothing remains. -/
theorem popNothing (h : Invariant s []) {p : OwnerPc T} (hlead : p.lead = s.owner.lead)
    (hp : ((s.setOwner p).note .popBottom (.ptr .empty)).OwnerFacts [] p) :
    Invariant ((s.setOwner p).note .popBottom (.ptr .empty)) [] where
  noted := h.noted.snoc rfl
  top := h.top
  bottom := (congrArg (s.bottom + ·) hlead).trans h.bottom
  room := h.room
  live := h.live
  owner := hp
  thief := h.thief

/-- A pop takes the newest element and leaves others. -/
theorem popMore (h : Invariant s remaining) {b : Int} {a : Nat} (hpc : s.owner = .popReadTop b a)
    (hmore : b - s.top > 0) :
    ∃ rest, Invariant ((s.setOwner .idle).note .popBottom (.ptr (.entry ((s.arrays a).get b))))
      rest := by
  have hfacts := h.owner
  have hbottom := h.bottom
  rw [hpc] at hfacts hbottom
  obtain ⟨rfl, rfl⟩ := hfacts
  simp only [OwnerPc.lead] at hbottom
  rcases List.eq_nil_or_concat remaining with rfl | ⟨rest, e, rfl⟩
  · simp at hbottom
    omega
  · rw [List.concat_eq_append] at h hbottom
    rw [List.length_append, List.length_singleton] at hbottom
    have hlast := h.live rest.length e (by simp)
    rw [show s.top + (rest.length : Int) = s.bottom by push_cast at hbottom; omega] at hlast
    refine ⟨rest, h.noted.snoc ?_, h.top, ?_, ?_, fun k x hk => ?_, trivial,
      fun i => (h.thief i).mono le_rfl le_rfl fun _ _ => ⟨?_, rfl, fun _ _ hsame => hsame⟩⟩
    · show dequeNext (rest ++ [e]) .popBottom = (.ptr (.entry (s.array.get s.bottom)), rest)
      rw [hlast]
      simp [dequeNext]
    · simp only [OwnerPc.lead, note_bottom, setOwner_bottom, note_owner, setOwner_owner, note_top,
        setOwner_top]
      push_cast at hbottom
      omega
    · have hroom := h.room
      rw [List.length_append] at hroom
      show (rest.length : Int) < s.array.size
      push_cast at hroom
      omega
    · have hlt := (List.getElem?_eq_some_iff.mp hk).1
      exact h.live k x (by rwa [List.getElem?_append_left hlt])
    · refine List.ne_nil_of_length_pos ?_
      push_cast at hbottom
      omega

/-- The oldest element goes. -/
theorem takeOldest {e : T} {rest : List T} (h : Invariant s (e :: rest)) {p : OwnerPc T}
    {call : DequeCall T} {answer : DequeAnswer T}
    (hcall : dequeNext (e :: rest) call = (answer, rest)) (hlead : p.lead = s.owner.lead)
    (hp : (((s.raiseTop s.top).setOwner p).note call answer).OwnerFacts rest p) :
    Invariant (((s.raiseTop s.top).setOwner p).note call answer) rest := by
  have hbottom := h.bottom
  have hroom := h.room
  have htop := h.top
  rw [List.length_cons] at hbottom hroom
  push_cast at hbottom hroom
  refine ⟨h.noted.snoc hcall, ?_, ?_, ?_, fun k x hk => ?_, hp,
    fun i => (h.thief i).raiseTop rfl le_rfl⟩
  · show 0 ≤ s.top + 1
    omega
  · show s.bottom + p.lead = s.top + 1 + rest.length
    omega
  · show (rest.length : Int) < s.array.size
    omega
  · have hlive := h.live (k + 1) x hk
    show s.array.get (s.top + 1 + k) = some x
    rwa [Nat.cast_succ, add_comm (k : Int), ← add_assoc] at hlive

/-- What the owner knows does not depend on the oldest element. -/
theorem ownerFacts_of_steal {e : T} {rest : List T} (h : Invariant s (e :: rest))
    {answer : DequeAnswer T} :
    ((s.raiseTop s.top).note .steal answer).OwnerFacts rest s.owner := by
  have hfacts := h.owner
  cases hpc : s.owner <;> rw [hpc] at hfacts
  case idle => trivial
  case pushReadTop => exact hfacts
  case pushGrow =>
    obtain ⟨hb, ht, hle, hroom⟩ := hfacts
    exact ⟨hb, ht, Int.le_add_one hle, hroom⟩
  case pushPut =>
    obtain ⟨hb, ha, hroom⟩ := hfacts
    rw [List.length_cons] at hroom
    push_cast at hroom
    exact ⟨hb, ha, lt_trans (by omega) hroom⟩
  case pushWriteBottom =>
    obtain ⟨hb, hroom, hget⟩ := hfacts
    rw [List.length_cons] at hroom
    push_cast at hroom
    exact ⟨hb, lt_trans (by omega) hroom, hget⟩
  case popWriteBottom => exact hfacts
  case popReadTop => exact hfacts
  case popResetBottom => exact nomatch hfacts.1
  case popCasTop =>
    obtain ⟨hb, hle, hget⟩ := hfacts
    exact ⟨hb, Int.le_add_one hle, hget⟩
  case popRaiseBottom => exact nomatch hfacts.1

/-- A thief whose compare-and-swap succeeds has the oldest element. -/
theorem steal [DecidableEq θ] (h : Invariant s remaining) {i : θ} {t : Int} {e : Option T}
    (hpc : s.thief i = .casTop t e) (ht : s.top = t) :
    ∃ rest, Invariant (((s.raiseTop t).setThief i .idle).note .steal (.ptr (.entry e))) rest := by
  have hfacts := h.thief i
  rw [hpc] at hfacts
  obtain ⟨hne, rfl⟩ := hfacts.2 ht.symm
  subst ht
  obtain ⟨x, rest, rfl⟩ := List.exists_cons_of_ne_nil hne
  rw [h.get_top rfl]
  have hcall : dequeNext (x :: rest) .steal = (.ptr (.entry (some x)), rest) := rfl
  have htake := h.takeOldest (p := s.owner) hcall rfl h.ownerFacts_of_steal
  exact ⟨rest, htake.setThief (i := i) (p := .idle) trivial⟩

/-- The owner takes the last element as a thief would. -/
theorem popLast (h : Invariant s remaining) {t : Int} {e : Option T}
    (hpc : s.owner = .popCasTop t e) (ht : s.top = t) :
    Invariant
      (((s.raiseTop t).setOwner (.popRaiseBottom t)).note .popBottom (.ptr (.entry e))) [] := by
  have hfacts := h.owner
  have hbottom := h.bottom
  rw [hpc] at hfacts hbottom
  obtain ⟨rfl, -, rfl⟩ := hfacts
  simp only [OwnerPc.lead] at hbottom
  obtain ⟨x, rfl⟩ : ∃ x, remaining = [x] := List.length_eq_one_iff.mp (by omega)
  rw [← ht, h.get_top rfl]
  exact h.takeOldest rfl (by rw [hpc, OwnerPc.lead, OwnerPc.lead]) ⟨rfl, rfl⟩

/-- Each step keeps the invariant, for the elements that remain after it. -/
theorem step [DecidableEq θ] {action : Action T θ} (h : Invariant s remaining)
    (hstep : Step s action s') : ∃ rest, Invariant s' rest := by
  have hfacts := h.owner
  have hbottom := h.bottom
  cases hstep with
  | pushBottom hpc => exact ⟨_, h.setOwner (by rw [hpc]; rfl) rfl⟩
  | pushReadTop hpc =>
      rw [hpc] at hfacts hbottom
      refine ⟨_, h.setOwner (by rw [hpc]; rfl) ⟨hfacts, h.top, le_rfl, ?_⟩⟩
      have hroom := h.room
      simp only [OwnerPc.lead, add_zero] at hbottom
      show _ < s.top + s.array.size
      rw [hfacts]
      omega
  | grow hpc hfull hgrow => exact ⟨_, h.pushGrow hpc hfull hgrow⟩
  | growFails hpc _ _ => exact ⟨_, h.setOwner (by rw [hpc]; rfl) trivial⟩
  | fits hpc hfull =>
      rw [hpc] at hfacts hbottom
      obtain ⟨rfl, ht, hle, -⟩ := hfacts
      simp only [OwnerPc.lead, add_zero] at hbottom
      refine ⟨_, h.setOwner (by rw [hpc]; rfl) ⟨rfl, rfl, ?_⟩⟩
      show (remaining.length : Int) + 1 < s.array.size
      have harray : s.array.size = (s.arrays s.activeArray).size := rfl
      omega
  | pushPut hpc => exact ⟨_, h.pushPut hpc⟩
  | pushWriteBottom hpc => exact ⟨_, h.pushWriteBottom hpc⟩
  | popBottom hpc => exact ⟨_, h.setOwner (by rw [hpc]; rfl) ⟨rfl, rfl⟩⟩
  | popWriteBottom hpc =>
      rw [hpc] at hfacts
      obtain ⟨rfl, rfl⟩ := hfacts
      refine ⟨_, h.moveBottom ?_ ⟨rfl, rfl⟩⟩
      rw [hpc]
      show s.bottom - 1 + 1 = s.bottom + 0
      omega
  | popNone hpc hnone =>
      rw [hpc] at hfacts hbottom
      obtain ⟨rfl, -⟩ := hfacts
      simp only [OwnerPc.lead] at hbottom
      obtain rfl : remaining = [] := List.length_eq_zero_iff.mp (by omega)
      exact ⟨_, h.popNothing (by rw [hpc]; rfl) ⟨rfl, rfl⟩⟩
  | popMore hpc hmore => exact h.popMore hpc hmore
  | popLast hpc hlast =>
      rw [hpc] at hfacts
      obtain ⟨rfl, rfl⟩ := hfacts
      have ht : s.top = s.bottom := by omega
      refine ⟨_, h.setOwner (by rw [hpc]; rfl) ⟨ht, le_rfl, ?_⟩⟩
      rw [ht]
      rfl
  | popResetBottom hpc =>
      rw [hpc] at hfacts hbottom
      obtain ⟨rfl, rfl⟩ := hfacts
      refine ⟨_, h.moveBottom ?_ trivial⟩
      simp only [OwnerPc.lead, hpc, List.length_nil] at hbottom ⊢
      omega
  | popCasTop hpc ht => exact ⟨_, h.popLast hpc ht⟩
  | popCasTopFails hpc ht =>
      rw [hpc] at hfacts hbottom
      obtain ⟨rfl, hle, -⟩ := hfacts
      simp only [OwnerPc.lead] at hbottom
      obtain rfl : remaining = [] := List.length_eq_zero_iff.mp (by omega)
      refine ⟨_, h.popNothing (by rw [hpc]; rfl) ⟨rfl, ?_⟩⟩
      show s.bottom + 1 = s.top
      rw [List.length_nil] at hbottom
      omega
  | popRaiseBottom hpc =>
      rw [hpc] at hfacts hbottom
      obtain ⟨rfl, ht⟩ := hfacts
      refine ⟨_, h.moveBottom ?_ trivial⟩
      simp only [OwnerPc.lead, hpc, List.length_nil] at hbottom ⊢
      omega
  | steal hpc => exact ⟨_, h.setThief le_rfl⟩
  | @readBottom i t hpc =>
      have hthief := h.thief i
      rw [hpc] at hthief
      refine ⟨_, h.setThief ⟨hthief, fun ht hlt => List.ne_nil_of_length_pos ?_⟩⟩
      have hlead : 0 ≤ s.owner.lead := by
        cases s.owner <;> simp [OwnerPc.lead]
      omega
  | stealNone _ _ => exact ⟨_, h.setThief trivial⟩
  | @readArray i t b hpc hsome =>
      have hthief := h.thief i
      rw [hpc] at hthief
      exact ⟨_, h.setThief ⟨hthief.1, le_rfl, fun ht => ⟨hthief.2 ht (by omega), rfl⟩⟩⟩
  | @readEntry i t a hpc =>
      have hthief := h.thief i
      rw [hpc] at hthief
      obtain ⟨hle, -, hrest⟩ := hthief
      exact ⟨_, h.setThief ⟨hle, hrest⟩⟩
  | casTop hpc ht => exact h.steal hpc ht
  | casTopFails _ _ => exact ⟨_, h.setThief trivial⟩

end Invariant

theorem exists_invariant [DecidableEq θ] (h : (system T θ).Reachable s) :
    ∃ remaining, Invariant s remaining :=
  h.invariant (P := fun s => ∃ remaining, Invariant s remaining)
    (fun _ hinit => ⟨[], hinit ▸ Invariant.initial⟩) fun _ _ _ ⟨_, hs⟩ hstep => hs.step hstep

/-- In every interleaving the noted calls answer as those of a double-ended queue.  Between two calls
of the owner the elements that remain are those between the indices.  A thief finds no element only
if none remains, or if the owner is popping the last one. -/
theorem noted_calls_answer [DecidableEq θ] (h : (system T θ).Reachable s) :
    ∃ remaining, (dequeMachine T).Trace [] s.noted remaining ∧
      (s.owner = .idle → s.bottom = s.top + remaining.length ∧
        ∀ (k : Nat) e, remaining[k]? = some e → s.array.get (s.top + k) = some e) ∧
      ∀ i t, s.thief i = .readBottom t → s.bottom ≤ t →
        remaining = [] ∨ remaining.length = 1 ∧ s.owner.lead = 1 := by
  obtain ⟨remaining, hs⟩ := exists_invariant h
  have hbottom := hs.bottom
  refine ⟨remaining, hs.noted, fun hidle => ⟨?_, hs.live⟩, fun i t hpc hle => ?_⟩
  · rw [hidle] at hbottom
    simpa [OwnerPc.lead] using hbottom
  · have hthief := hs.thief i
    rw [hpc] at hthief
    have htop : t ≤ s.top := hthief
    have hlead : s.owner.lead = 0 ∨ s.owner.lead = 1 := by
      cases s.owner <;> simp [OwnerPc.lead]
    rcases hlead with hlead | hlead
    · exact Or.inl (List.length_eq_zero_iff.mp (by omega))
    · rcases Nat.eq_zero_or_pos remaining.length with hzero | hpos
      · exact Or.inl (List.length_eq_zero_iff.mp hzero)
      · exact Or.inr ⟨by omega, hlead⟩

/-- A thief takes the last element while the owner is popping it. -/
theorem noted_calls_answer_race :
    ∃ s : SharedDeque Nat Unit,
      s.noted = [(.pushBottom 7, .pushed), (.steal, .ptr (.entry (some 7))),
        (.popBottom, .ptr .empty)] ∧
      ∃ remaining, (dequeMachine Nat).Trace [] s.noted remaining := by
  have hnew : (system Nat Unit).Reachable {} := .init rfl
  have hpushed := ((((hnew.step (.pushBottom (e := 7) rfl)).step
    (.pushReadTop (e := 7) (b := 0) rfl)).step
    (.fits (e := 7) (b := 0) (t := 0) rfl (by decide))).step
    (.pushPut (e := 7) (b := 0) (a := 0) rfl)).step (.pushWriteBottom (e := 7) (b := 0) rfl)
  have hseen := ((hpushed.step (.steal (i := ()) rfl)).step
    (.readBottom (i := ()) (t := 0) rfl)).step
    (.readArray (i := ()) (t := 0) (b := 1) rfl (by decide))
  have hpopping := ((hseen.step (.popBottom rfl)).step (.popWriteBottom (b := 0) (a := 0) rfl)).step
    (.popLast (b := 0) (a := 0) rfl rfl)
  have hstolen := (hpopping.step (.readEntry (i := ()) (t := 0) (a := 0) rfl)).step
    (.casTop (i := ()) (t := 0) (e := some 7) rfl rfl)
  have hend := hstolen.step (.popCasTopFails (t := 0) (e := some 7) rfl (by decide))
  obtain ⟨remaining, htrace, -⟩ := noted_calls_answer hend
  exact ⟨_, rfl, remaining, htrace⟩

end

end SharedDeque

end WorkStealing
end Lockfree
end OFlux
