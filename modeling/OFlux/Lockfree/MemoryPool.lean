import Mathlib.Order.Monotone.Basic
import OFlux.Library.Fallible
import OFlux.Library.Location
import OFlux.Library.NullTerminated
import OFlux.Library.TransitionSystem

/-!
# The memory pool

Each thread has an array of elements of its own, of which it hands out those below a horizon and
those that came back, which are in a free list.  An element that another thread gives back travels
home through a queue from that thread to its owner; its owner collects it when it has nothing else
to hand out.  When this fails as well, the memory comes from {lit}`malloc`.

Calls are taken one after another.  Addresses are numbers, and 0 is null; only the {lit}`next`
fields of the elements are looked at.

Main results:

- Theorem {lit}`call_spec`: what one call keeps.
- Theorem {lit}`elements_conserved`: every element is in one place, nothing is handed out twice, and
  what came from {lit}`malloc` goes to {lit}`free`.
-/

namespace OFlux
namespace Lockfree
namespace MemoryPool

open Library

/-! ## Where the elements are -/

/-- {lit}`DivideBy`; {lit}`Log` is the logarithm with base 2. -/
def divideBy (divisor onvalue : Nat) : Nat :=
  if 1 <<< Nat.log2 divisor = divisor then onvalue >>> Nat.log2 divisor else onvalue / divisor

/-- The number of elements of a thread; the two numbers that are taken off are the sizes of the
other fields, {lit}`_horizon` and {lit}`_head`. -/
def optSz (sz elSz offset : Nat) : Nat :=
  ((1 <<< Nat.log2 sz) * elSz - 8 - 8 - offset) / elSz

/-- The padding that the pool puts behind its elements. -/
def optPad (elSz offset : Nat) : Nat :=
  ((2 + offset) * elSz - 8 - 8 - offset) % elSz

/-- The parameters of the template, the sizes of {lit}`ElStorage`, {lit}`PerThreadBase1` and
{lit}`PerThread`, and the address of {lit}`_pt`. -/
structure Layout where
  numThreads : Nat
  numElements : Nat
  sizeofEl : Nat
  sizeofBase : Nat
  sizeofPt : Nat
  start : Nat
  start_pos : 0 < start
  pointer_fits : 8 ≤ sizeofEl
  fits : sizeofBase + 8 + 8 + optPad sizeofEl sizeofBase +
    optSz numElements sizeofEl sizeofBase * sizeofEl ≤ sizeofPt

namespace Layout

variable (L : Layout)

/-- The number of bytes of one pool. -/
def optSz : Nat :=
  MemoryPool.optSz L.numElements L.sizeofEl L.sizeofBase

/-- The address of {lit}`_pt[i].arr._raw[k]`. -/
def raw (i k : Nat) : Nat :=
  L.start + i * L.sizeofPt +
    (L.sizeofBase + 8 + 8 + optPad L.sizeofEl L.sizeofBase + k * L.sizeofEl)

/-- The address of {lit}`_pt[num_threads]`. -/
def finish : Nat :=
  L.start + L.numThreads * L.sizeofPt

/-- The address lies inside the pools. -/
def InPool (m : Nat) : Prop :=
  L.start ≤ m ∧ m < L.finish

instance (m : Nat) : Decidable (L.InPool m) := by
  unfold InPool
  infer_instance

/-- The index of the pool that an address lies in, or -1. -/
def calcMemIndex (m : Nat) : Int :=
  if m ≥ L.finish ∨ m < L.start then -1 else divideBy L.sizeofPt (m - L.start)

/-- An element of the array of a thread. -/
def Slot (i e : Nat) : Prop :=
  i < L.numThreads ∧ ∃ k < L.optSz, e = L.raw i k

end Layout

theorem divideBy_eq (divisor onvalue : Nat) : divideBy divisor onvalue = onvalue / divisor := by
  unfold divideBy
  split
  · rename_i hpow
    rw [Nat.shiftRight_eq_div_pow, ← Nat.one_shiftLeft, hpow]
  · rfl

namespace Layout

variable {L : Layout} {i j k l e m : Nat}

/-- The elements of a thread are in its part of the memory. -/
theorem offset_lt (hk : k < L.optSz) :
    L.sizeofBase + 8 + 8 + optPad L.sizeofEl L.sizeofBase + k * L.sizeofEl < L.sizeofPt := by
  have hfits := L.fits
  have hle : (k + 1) * L.sizeofEl ≤ L.optSz * L.sizeofEl := Nat.mul_le_mul_right _ hk
  have hpos := L.pointer_fits
  rw [Nat.succ_mul] at hle
  unfold optSz at hle
  omega

/-- A slot lies inside the pools. -/
theorem Slot.inPool (h : L.Slot i e) : L.InPool e := by
  obtain ⟨hi, k, hk, rfl⟩ := h
  have hlt := offset_lt hk
  have hle : (i + 1) * L.sizeofPt ≤ L.numThreads * L.sizeofPt := Nat.mul_le_mul_right _ hi
  rw [Nat.succ_mul] at hle
  unfold InPool raw finish
  omega

/-- The owner of an element is known by its address. -/
theorem Slot.calcMemIndex (h : L.Slot i e) : L.calcMemIndex e = i := by
  have hin := h.inPool
  obtain ⟨hi, k, hk, rfl⟩ := h
  have hlt := offset_lt hk
  have hpos : 0 < L.sizeofPt := Nat.zero_lt_of_lt hlt
  rw [Layout.calcMemIndex, if_neg (by unfold InPool at hin; omega), divideBy_eq, raw]
  rw [Nat.add_assoc, Nat.add_sub_cancel_left, Nat.add_comm, Nat.add_mul_div_right _ _ hpos,
    Nat.div_eq_of_lt hlt, Nat.zero_add]

/-- An address outside the pools has index -1. -/
theorem calcMemIndex_of_not_inPool (h : ¬ L.InPool m) : L.calcMemIndex m = -1 := by
  rw [calcMemIndex, if_pos]
  unfold InPool at h
  omega

/-- A slot belongs to one thread. -/
theorem Slot.owner_unique (h : L.Slot i e) (h' : L.Slot j e) : i = j :=
  Int.ofNat.inj (h.calcMemIndex.symm.trans h'.calcMemIndex)

/-- A slot is not the null pointer. -/
theorem Slot.ne_zero (h : L.Slot i e) : e ≠ 0 :=
  Nat.ne_of_gt (Nat.lt_of_lt_of_le L.start_pos h.inPool.1)

/-- Elements of one pool stand in order. -/
theorem raw_lt_raw (hkl : k < l) : L.raw i k < L.raw i l := by
  have hlt : k * L.sizeofEl < l * L.sizeofEl :=
    Nat.mul_lt_mul_of_pos_right hkl (Nat.lt_of_lt_of_le (by decide) L.pointer_fits)
  unfold raw
  omega

/-- Elements of one pool are apart. -/
theorem raw_injective (L : Layout) (i : Nat) : Function.Injective (L.raw i) :=
  (strictMono_nat_of_lt_succ fun k => raw_lt_raw (Nat.lt_succ_self k)).injective

/-- A slot lies inside the pool of its thread. -/
theorem Slot.range (h : L.Slot i e) : L.raw i 0 ≤ e ∧ e < L.raw i L.optSz := by
  obtain ⟨-, k, hk, rfl⟩ := h
  refine ⟨?_, raw_lt_raw hk⟩
  rcases Nat.eq_zero_or_pos k with rfl | hpos
  · exact le_rfl
  · exact (raw_lt_raw hpos).le

end Layout

/-! ## The lists -/

/-- Why a call fails. -/
inductive Failure where
  | nullPointer
  | assertion
deriving DecidableEq

/-- A {lit}`RawMemPoolElementList`. -/
structure ElementList where
  head : Nat
  tail : Nat

/-- Put an element in front; whether the queue was empty, the queue and the links. -/
def ElementList.push (l : ElementList) (next : Nat → Nat) (e : Nat) :
    Except Failure (Bool × ElementList × (Nat → Nat)) :=
  if e = 0 then
    .error .nullPointer
  else
    .ok (l.head = 0, { head := e, tail := if l.head = 0 then e else l.tail },
      Function.update next e l.head)

/-- Take all elements but the one in front; the first and the last one of these, the queue and the
links. -/
def ElementList.pull (l : ElementList) (next : Nat → Nat) :
    Nat × Nat × ElementList × (Nat → Nat) :=
  if l.head = 0 then
    (0, l.tail, { l with tail := l.head }, next)
  else
    (next l.head, l.tail, { l with tail := l.head }, Function.update next l.head 0)

/-- The part of a pool not handed out yet, and its free list. -/
structure RawMemPool where
  horizon : Nat
  head : Nat

/-- Hand out an element, or null if there is none. -/
def RawMemPool.get (L : Layout) (i : Nat) (p : RawMemPool) (next : Nat → Nat) :
    Nat × RawMemPool :=
  if p.head ≠ 0 then
    (p.head, { p with head := next p.head })
  else if p.horizon < L.optSz then
    (L.raw i p.horizon, { p with horizon := p.horizon + 1 })
  else
    (0, p)

/-- Returns an element to the free list of its pool. -/
def RawMemPool.put (L : Layout) (i : Nat) (p : RawMemPool) (next : Nat → Nat) (m : Nat) :
    Except Failure (RawMemPool × (Nat → Nat)) :=
  if L.raw i 0 ≤ m ∧ m < L.raw i L.optSz then
    .ok ({ p with head := m }, Function.update next m p.head)
  else
    .error .assertion

/-- The {lit}`put` for the first and the last element of a chain. -/
def RawMemPool.putChain (p : RawMemPool) (next : Nat → Nat) (h t : Nat) :
    Except Failure (RawMemPool × (Nat → Nat)) :=
  if t = 0 then
    .error .nullPointer
  else
    .ok ({ p with head := h }, Function.update next t p.head)

/-! ## The pool -/

/-- The fields of {lit}`_pt[i]`, where {lit}`qus i j` is the queue from thread {lit}`i` to thread
{lit}`j`, and the {lit}`next` fields of the elements. -/
structure Pool where
  qus : Nat → Nat → ElementList
  collectTouch : Nat → Bool
  arr : Nat → RawMemPool
  next : Nat → Nat

namespace Pool

/-- Writes the mail from thread `j` to thread `i`. -/
def setQueue (s : Pool) (i j : Nat) (l : ElementList) : Pool :=
  { s with qus := Function.update s.qus i (Function.update (s.qus i) j l) }

/-- Writes the pool of thread `i`. -/
def setArr (s : Pool) (i : Nat) (p : RawMemPool) : Pool :=
  { s with arr := Function.update s.arr i p }

/-- Writes the mark that thread `i` has mail. -/
def setTouch (s : Pool) (i : Nat) (touch : Bool) : Pool :=
  { s with collectTouch := Function.update s.collectTouch i touch }

section

variable (s : Pool) (i j : Nat) (l : ElementList) (p : RawMemPool) (touch : Bool)

@[simp]
theorem setQueue_arr : (s.setQueue i j l).arr = s.arr :=
  rfl

@[simp]
theorem setQueue_next : (s.setQueue i j l).next = s.next :=
  rfl

@[simp]
theorem setArr_qus : (s.setArr i p).qus = s.qus :=
  rfl

@[simp]
theorem setArr_arr : (s.setArr i p).arr = Function.update s.arr i p :=
  rfl

@[simp]
theorem setArr_next : (s.setArr i p).next = s.next :=
  rfl

end

/-- An element of thread {lit}`i` for the queue from thread {lit}`j`. -/
def fill (L : Layout) (i : Nat) (s : Pool) (j : Nat) : Except Failure Pool := do
  let (e, arr) := (s.arr i).get L i s.next
  let (_, l, next) ← (s.qus j i).push s.next e
  .ok { (s.setArr i arr).setQueue j i l with next := next }

/-- The members before the constructor runs, which sets neither {lit}`collect_touch` nor the
elements. -/
def empty (collectTouch : Nat → Bool) (next : Nat → Nat) : Pool where
  qus _ _ := { head := 0, tail := 0 }
  collectTouch := collectTouch
  arr _ := { horizon := 0, head := 0 }
  next := next

/-- The constructor. -/
def new (L : Layout) (collectTouch : Nat → Bool) (next : Nat → Nat) : Except Failure Pool :=
  (List.range L.numThreads).foldlM
    (fun s i => (List.range L.numThreads).foldlM (fill L i) s) (empty collectTouch next)

/-- What thread {lit}`i` has sent home to thread {lit}`index`. -/
def collectFrom (index : Nat) (acc : Bool × Pool) (i : Nat) : Except Failure (Bool × Pool) :=
  let (res, s) := acc
  let (h, t, l, next) := (s.qus i index).pull s.next
  let s := { s.setQueue i index l with next := next }
  if h ≠ 0 then do
    let (arr, next) ← (s.arr index).putChain s.next h t
    .ok (true, { s.setArr index arr with next := next })
  else
    .ok (res, s)

/-- Collect what the first {lit}`n` threads have sent; {lit}`n` is the current number of threads. -/
def collect (n index : Nat) (s : Pool) : Except Failure (Bool × Pool) :=
  if s.collectTouch index then
    .ok (false, s)
  else do
    let (res, s) ← (List.range n).foldlM (collectFrom index) (false, s)
    .ok (res, s.setTouch index true)

/-- What a {lit}`get` comes to. -/
inductive Got where
  | fromPool (m : Nat)
  | fromHeap (m : Nat)
  | badAlloc

/-- A {lit}`get` of a thread, where {lit}`answer` is what {lit}`malloc` gives. -/
def get (L : Layout) (n index answer : Nat) (s : Pool) : Except Failure (Got × Pool) :=
  let (res, arr) := (s.arr index).get L index s.next
  let s := s.setArr index arr
  if res ≠ 0 then
    .ok (.fromPool res, s)
  else do
    let (collected, s) ← s.collect n index
    if collected then
      let (res, arr) := (s.arr index).get L index s.next
      if L.InPool res ∧ res ≠ 0 then
        .ok (.fromPool res, s.setArr index arr)
      else
        .error .assertion
    else if answer = 0 then
      .ok (.badAlloc, s)
    else if L.InPool answer then
      .error .assertion
    else
      .ok (.fromHeap answer, s)

/-- A {lit}`put` of a thread; what it gives to {lit}`free`. -/
def put (L : Layout) (index m : Nat) (s : Pool) : Except Failure (Option Nat × Pool) :=
  if m = 0 then
    .ok (none, s)
  else
    let memIndex := L.calcMemIndex m
    if memIndex ≥ 0 then do
      let s ←
        if (index : Int) = memIndex then do
          let (arr, next) ← (s.arr index).put L index s.next m
          .ok { s.setArr index arr with next := next }
        else do
          let j := memIndex.toNat
          let (pres, l, next) ← (s.qus index j).push s.next m
          .ok { (s.setQueue index j l).setTouch j (s.collectTouch j && pres) with next := next }
      if L.InPool m then .ok (none, s) else .error .assertion
    else if L.InPool m then
      .error .assertion
    else
      .ok (some m, s)

end Pool

/-! ## Sequences of calls -/

/-- The pool with the elements that are handed out, those that came from {lit}`malloc` and those
that were given to {lit}`free`. -/
structure Usage where
  pool : Pool
  live : List Nat
  mallocd : List Nat
  freed : List Nat

/-- A call with the index of its thread, or a write to the memory that an element begins with.  A
{lit}`get` finds a number of threads and an answer of {lit}`malloc`. -/
inductive Call where
  | get (n index answer : Nat)
  | put (index m : Nat)
  | write (m v : Nat)

namespace Usage

/-- Takes account of an element handed out. -/
def handOut (u : Usage) : Pool.Got × Pool → Usage
  | (.fromPool m, s) => { u with pool := s, live := m :: u.live }
  | (.fromHeap m, s) => { u with pool := s, live := m :: u.live, mallocd := m :: u.mallocd }
  | (.badAlloc, s) => { u with pool := s }

/-- Takes account of an element given back. -/
def giveBack (u : Usage) (m : Nat) : Option Nat × Pool → Usage
  | (freed, s) =>
      { u with pool := s, live := u.live.erase m, freed := freed.toList ++ u.freed }

/-- One call on the pool by one of its users. -/
def call (L : Layout) (u : Usage) : Call → Except Failure Usage
  | .get n index answer => (u.pool.get L n index answer).map u.handOut
  | .put index m => (u.pool.put L index m).map (u.giveBack m)
  | .write m v => .ok { u with pool := { u.pool with next := Function.update u.pool.next m v } }

/-- The threads are those that the pool is made for, {lit}`malloc` gives null or memory that is not
in use, and what is given back or written to is handed out. -/
def Allowed (L : Layout) (u : Usage) : Call → Prop
  | .get n index answer => n ≤ L.numThreads ∧ index < L.numThreads ∧
      (answer = 0 ∨ ¬ L.InPool answer ∧ answer ∉ u.live)
  | .put index m => index < L.numThreads ∧ (m = 0 ∨ m ∈ u.live)
  | .write m _ => m ∈ u.live

/-- The pool is new, and nothing has been handed out. -/
structure Initial (L : Layout) (u : Usage) : Prop where
  pool : ∃ collectTouch next, Pool.new L collectTouch next = .ok u.pool
  live : u.live = []
  mallocd : u.mallocd = []
  freed : u.freed = []

end Usage

/-- The users of the pool, who return only what they were given. -/
def system (L : Layout) : TransitionSystem Usage Call where
  init := Usage.Initial L
  step u c u' := u.Allowed L c ∧ u.call L c = .ok u'

/-! ## The places of the elements -/

/-- Where an element of the pool is. -/
inductive Place where
  | handedOut
  | free (owner : Nat)
  | mail (sender owner : Nat)
  | beyond (owner : Nat)
deriving DecidableEq

/-- What a place holds. -/
def contents (L : Layout) (live : List Nat) (free : Nat → List Nat) (mail : Nat → Nat → List Nat)
    (horizon : Nat → Nat) : Place → List Nat
  | .handedOut => live.filter fun m => L.InPool m
  | .free i => free i
  | .mail j i => mail j i
  | .beyond i =>
      if i < L.numThreads then (List.range' (horizon i) (L.optSz - horizon i)).map (L.raw i) else []

/-- What has not been handed out yet. -/
theorem mem_beyond {L : Layout} {live : List Nat} {free : Nat → List Nat}
    {mail : Nat → Nat → List Nat} {horizon : Nat → Nat} {e i : Nat} :
    e ∈ contents L live free mail horizon (.beyond i) ↔
      i < L.numThreads ∧ ∃ k, horizon i ≤ k ∧ k < L.optSz ∧ e = L.raw i k := by
  by_cases hi : i < L.numThreads
  · rw [contents, if_pos hi, List.mem_map, and_iff_right hi]
    simp only [List.mem_range'_1]
    refine exists_congr fun k => ?_
    constructor
    · rintro ⟨hk, rfl⟩
      exact ⟨hk.1, by omega, rfl⟩
    · rintro ⟨hle, hlt, rfl⟩
      exact ⟨⟨hle, by omega⟩, rfl⟩
  · simp [contents, hi]

/-- The element may be at the place. -/
def Fits (L : Layout) (e : Nat) : Place → Prop
  | .handedOut => True
  | .free i => L.Slot i e
  | .mail j i => j < L.numThreads ∧ L.Slot i e
  | .beyond i => L.Slot i e

/-- Every element of the pool is at one of the places that it may be at. -/
def Conserved (L : Layout) (contents : Place → List Nat) : Prop :=
  ∃ place, Located contents place ∧ (∀ e, place e ≠ none ↔ ∃ i, L.Slot i e) ∧
    ∀ e p, place e = some p → Fits L e p

namespace Conserved

variable {L : Layout} {contents contents' : Place → List Nat} {p q : Place} {e i : Nat}

theorem exists_slot (h : Conserved L contents) (he : e ∈ contents p) : ∃ i, L.Slot i e := by
  obtain ⟨place, hlocated, hslot, -⟩ := h
  refine (hslot e).mp ?_
  rw [hlocated.mem_iff.mp he]
  exact Option.some_ne_none p

/-- What is accounted for may be where it is. -/
theorem fits (h : Conserved L contents) (he : e ∈ contents p) : Fits L e p := by
  obtain ⟨place, hlocated, -, hfits⟩ := h
  exact hfits e p (hlocated.mem_iff.mp he)

/-- An element is at one place. -/
theorem place_unique (h : Conserved L contents) (hp : e ∈ contents p) (hq : e ∈ contents q) :
    p = q := by
  obtain ⟨place, hlocated, -⟩ := h
  exact Option.some.inj ((hlocated.mem_iff.mp hp).symm.trans (hlocated.mem_iff.mp hq))

theorem nodup (h : Conserved L contents) (p : Place) : (contents p).Nodup := by
  obtain ⟨place, hlocated, -⟩ := h
  exact hlocated.nodup p

theorem exists_place (h : Conserved L contents) (he : L.Slot i e) : ∃ p, e ∈ contents p := by
  obtain ⟨place, hlocated, hslot, -⟩ := h
  obtain ⟨p, hp⟩ := Option.ne_none_iff_exists'.mp ((hslot e).mpr ⟨i, he⟩)
  exact ⟨p, hlocated.mem_iff.mpr hp⟩

/-- Only the contents matter, up to order. -/
theorem congr (h : Conserved L contents) (hperm : ∀ p, (contents' p).Perm (contents p)) :
    Conserved L contents' := by
  obtain ⟨place, hlocated, hplace⟩ := h
  exact ⟨place, hlocated.congr hperm, hplace⟩

/-- Elements move from one place to another. -/
theorem moveAll (h : Conserved L contents) (xs : List Nat) (hne : p ≠ q)
    (hfrom : (contents p).Perm (xs ++ contents' p)) (hto : (contents' q).Perm (xs ++ contents q))
    (hrest : ∀ r, r ≠ p → r ≠ q → (contents' r).Perm (contents r))
    (hfits : ∀ x ∈ xs, Fits L x q) : Conserved L contents' := by
  obtain ⟨place, hlocated, hslot, hplace⟩ := h
  refine ⟨_, hlocated.moveAll hne hfrom hto hrest, fun e => ?_, fun e r => ?_⟩
  · rw [← hslot e]
    by_cases he : e ∈ xs
    · have hp : place e = some p :=
        hlocated.mem_iff.mp (hfrom.mem_iff.mpr (List.mem_append_left _ he))
      simp [he, hp]
    · simp [he]
  · by_cases he : e ∈ xs
    · rw [if_pos he]
      rintro ⟨⟩
      exact hfits e he
    · rw [if_neg he]
      exact hplace e r

/-- Moving one element keeps the account. -/
theorem move (h : Conserved L contents) (hne : p ≠ q)
    (hfrom : (contents p).Perm (e :: contents' p)) (hto : (contents' q).Perm (e :: contents q))
    (hrest : ∀ r, r ≠ p → r ≠ q → (contents' r).Perm (contents r)) (hfits : Fits L e q) :
    Conserved L contents' :=
  h.moveAll [e] hne hfrom hto hrest (by simpa using hfits)

end Conserved

/-- A filter over a list, with one kept element taken out. -/
theorem filter_perm_erase_of_pos {p : Nat → Bool} {l : List Nat} {m : Nat} (hm : m ∈ l)
    (hp : p m = true) : (l.filter p).Perm (m :: (l.erase m).filter p) := by
  have h := (List.perm_cons_erase hm).filter p
  rwa [List.filter_cons_of_pos hp] at h

/-- A filter does not see an element that it drops. -/
theorem filter_perm_erase_of_neg {p : Nat → Bool} {l : List Nat} {m : Nat} (hm : m ∈ l)
    (hp : ¬ p m = true) : (l.filter p).Perm ((l.erase m).filter p) := by
  have h := (List.perm_cons_erase hm).filter p
  rwa [List.filter_cons_of_neg hp] at h

/-! ## What every call keeps -/

theorem exists_ends {l : List Nat} (h : ¬ l.length ≤ 1) : ∃ a front b, l = a :: (front ++ [b]) := by
  cases l with
  | nil => exact absurd (Nat.zero_le 1) h
  | cons a rest =>
      have hrest : rest ≠ [] := by
        rintro rfl
        exact h le_rfl
      exact ⟨a, rest.dropLast, rest.getLast hrest, by rw [List.dropLast_append_getLast]⟩

theorem range'_eq_cons {k n : Nat} (h : k < n) :
    List.range' k (n - k) = k :: List.range' (k + 1) (n - (k + 1)) := by
  rw [show n - k = n - (k + 1) + 1 by omega, List.range'_succ]

/-- The table of queues with one of them replaced. -/
theorem update_update_apply {β : Type} (f : Nat → Nat → β) (i j : Nat) (x : β) (a b : Nat) :
    Function.update f i (Function.update (f i) j x) a b = if a = i ∧ b = j then x else f a b := by
  by_cases ha : a = i
  · subst ha
    by_cases hb : b = j
    · simp [hb]
    · simp [hb]
  · simp [ha]

namespace Pool

/-- The mail after one queue was written. -/
theorem qus_setQueue (s : Pool) (i j : Nat) (l : ElementList) (a b : Nat) :
    (s.setQueue i j l).qus a b = if a = i ∧ b = j then l else s.qus a b :=
  update_update_apply ..

/-- How far pool `i` has been handed out. -/
def horizons (s : Pool) (i : Nat) : Nat :=
  (s.arr i).horizon

/-- The horizons after one pool was written. -/
theorem horizons_setArr (s : Pool) (i : Nat) (p : RawMemPool) :
    (s.setArr i p).horizons = Function.update s.horizons i p.horizon := by
  funext j
  by_cases hj : j = i
  · simp [horizons, hj]
  · simp [horizons, hj]

/-- Writing a free list moves no horizon. -/
theorem horizons_setHead (s : Pool) (i head : Nat) :
    (s.setArr i { s.arr i with head := head }).horizons = s.horizons := by
  rw [horizons_setArr]
  exact Function.update_eq_self ..

end Pool

/-- The elements in the free lists and the queues, in their order. -/
structure Invariant (L : Layout) (u : Usage) (free : Nat → List Nat) (mail : Nat → Nat → List Nat) :
    Prop where
  freeChain : ∀ i, NullTerminated u.pool.next 0 (u.pool.arr i).head (free i)
  mailChain : ∀ j i, NullTerminated u.pool.next 0 (u.pool.qus j i).head (mail j i)
  tail_eq : ∀ j i, (u.pool.qus j i).tail = (mail j i).getLastD 0
  horizon_le : ∀ i, u.pool.horizons i ≤ L.optSz
  conserved : Conserved L (contents L u.live free mail u.pool.horizons)
  live_nodup : u.live.Nodup
  live_ne_zero : 0 ∉ u.live
  heap : (u.freed ++ u.live.filter fun m => ¬ L.InPool m).Perm u.mallocd

namespace Invariant

variable {L : Layout} {u : Usage} {free : Nat → List Nat} {mail : Nat → Nat → List Nat}
  {i j e m : Nat} {rest : List Nat}

/-- What is on a free list is a slot of its owner. -/
theorem slot_of_free (h : Invariant L u free mail) (he : e ∈ free i) : L.Slot i e :=
  h.conserved.fits (p := .free i) he

/-- What is in the mail is a slot of its owner. -/
theorem slot_of_mail (h : Invariant L u free mail) (he : e ∈ mail j i) :
    j < L.numThreads ∧ L.Slot i e :=
  h.conserved.fits (p := .mail j i) he

/-- What is handed out is nowhere else. -/
theorem place_of_live (h : Invariant L u free mail) (hm : m ∈ u.live) {p : Place}
    (hp : m ∈ contents L u.live free mail u.pool.horizons p) : p = .handedOut := by
  obtain ⟨i, hslot⟩ := h.conserved.exists_slot hp
  refine h.conserved.place_unique hp ?_
  exact List.mem_filter.mpr ⟨hm, decide_eq_true hslot.inPool⟩

/-- What is in use is on no free list. -/
theorem notMem_free (h : Invariant L u free mail) (hm : m ∈ u.live) (i : Nat) : m ∉ free i :=
  fun hfree => Place.noConfusion (h.place_of_live hm (p := .free i) hfree)

/-- What is in use is in no mail. -/
theorem notMem_mail (h : Invariant L u free mail) (hm : m ∈ u.live) (j i : Nat) :
    m ∉ mail j i :=
  fun hmail => Place.noConfusion (h.place_of_live hm (p := .mail j i) hmail)

/-- What is in use inside the pools is a slot. -/
theorem exists_slot_of_live (h : Invariant L u free mail) (hm : m ∈ u.live) (hin : L.InPool m) :
    ∃ i, L.Slot i m :=
  h.conserved.exists_slot (p := .handedOut) (List.mem_filter.mpr ⟨hm, decide_eq_true hin⟩)

/-- An element of the pool is handed out. -/
theorem handOut {s : Pool} {free' : Nat → List Nat} (h : Invariant L u free mail)
    (hslot : L.Slot i e) (hlive : e ∉ u.live)
    (hfree : ∀ j, NullTerminated s.next 0 (s.arr j).head (free' j))
    (hnext : s.next = u.pool.next) (hqus : s.qus = u.pool.qus)
    (hhorizon : ∀ j, s.horizons j ≤ L.optSz)
    (hconserved : Conserved L (contents L (e :: u.live) free' mail s.horizons)) :
    Invariant L { u with pool := s, live := e :: u.live } free' mail where
  freeChain := hfree
  mailChain := by
    simp only [hnext, hqus]
    exact h.mailChain
  tail_eq := by
    simp only [hqus]
    exact h.tail_eq
  horizon_le := hhorizon
  conserved := hconserved
  live_nodup := List.nodup_cons.mpr ⟨hlive, h.live_nodup⟩
  live_ne_zero := by
    rw [List.mem_cons]
    exact not_or.mpr ⟨hslot.ne_zero.symm, h.live_ne_zero⟩
  heap := by
    rw [List.filter_cons_of_neg (by simpa using hslot.inPool)]
    exact h.heap

/-- The first element of a free list is handed out. -/
theorem takeFree (h : Invariant L u free mail) (hfree : free i = e :: rest) :
    Invariant L { u with
      pool := u.pool.setArr i { u.pool.arr i with head := u.pool.next e }
      live := e :: u.live } (Function.update free i rest) mail := by
  have hmem : e ∈ free i := hfree ▸ List.mem_cons_self
  have hslot := h.slot_of_free hmem
  refine h.handOut hslot (fun hlive => h.notMem_free hlive i hmem) (fun j => ?_) rfl rfl ?_ ?_
  · by_cases hj : j = i
    · subst hj
      have hchain := h.freeChain j
      rw [hfree] at hchain
      simpa using hchain.tail.2
    · simpa [hj] using h.freeChain j
  · rw [Pool.horizons_setHead]
    exact h.horizon_le
  · rw [Pool.horizons_setHead]
    refine h.conserved.move (p := .free i) (q := .handedOut) (e := e) Place.noConfusion ?_ ?_ ?_
      trivial
    · simp [contents, hfree]
    · simp [contents, hslot.inPool]
    · intro r hfrom hto
      cases r with
      | handedOut => exact absurd rfl hto
      | free j =>
          have hj : j ≠ i := fun heq => hfrom (heq ▸ rfl)
          simp [contents, hj]
      | mail j i => exact .refl _
      | beyond i => exact .refl _

/-- The first element beyond the horizon is handed out. -/
theorem takeBeyond (h : Invariant L u free mail) (hi : i < L.numThreads)
    (hlt : u.pool.horizons i < L.optSz) :
    Invariant L { u with
      pool := u.pool.setArr i { u.pool.arr i with horizon := u.pool.horizons i + 1 }
      live := L.raw i (u.pool.horizons i) :: u.live } free mail := by
  have hslot : L.Slot i (L.raw i (u.pool.horizons i)) := ⟨hi, _, hlt, rfl⟩
  have hhorizons := u.pool.horizons_setArr i { u.pool.arr i with horizon := u.pool.horizons i + 1 }
  refine h.handOut hslot (fun hlive => ?_) (fun j => ?_) rfl rfl (fun j => ?_) ?_
  · have hbeyond := h.place_of_live hlive (mem_beyond.mpr ⟨hi, _, le_rfl, hlt, rfl⟩)
    contradiction
  · by_cases hj : j = i
    · subst hj
      simpa using h.freeChain j
    · simpa [hj] using h.freeChain j
  · rw [hhorizons]
    by_cases hj : j = i
    · rw [hj, Function.update_self]
      exact hlt
    · simpa [hj] using h.horizon_le j
  · rw [hhorizons]
    refine h.conserved.move (p := .beyond i) (q := .handedOut) (e := L.raw i (u.pool.horizons i))
      Place.noConfusion ?_ ?_ ?_ trivial
    · simp [contents, hi, range'_eq_cons hlt]
    · simp [contents, hslot.inPool]
    · intro r hfrom hto
      cases r with
      | handedOut => exact absurd rfl hto
      | free j => exact .refl _
      | mail j i => exact .refl _
      | beyond j =>
          have hj : j ≠ i := fun heq => hfrom (heq ▸ rfl)
          simp [contents, hj]

/-- An element of the pool is given back. -/
theorem giveBack {s : Pool} {free' : Nat → List Nat} {mail' : Nat → Nat → List Nat}
    (h : Invariant L u free mail) (hm : m ∈ u.live) (hslot : L.Slot i m)
    (hfree : ∀ j, NullTerminated s.next 0 (s.arr j).head (free' j))
    (hmail : ∀ j i, NullTerminated s.next 0 (s.qus j i).head (mail' j i))
    (htail : ∀ j i, (s.qus j i).tail = (mail' j i).getLastD 0)
    (hhorizons : s.horizons = u.pool.horizons)
    (hconserved : Conserved L (contents L (u.live.erase m) free' mail' u.pool.horizons)) :
    Invariant L { u with pool := s, live := u.live.erase m } free' mail' where
  freeChain := hfree
  mailChain := hmail
  tail_eq := htail
  horizon_le := by
    rw [hhorizons]
    exact h.horizon_le
  conserved := by
    rw [hhorizons]
    exact hconserved
  live_nodup := h.live_nodup.erase m
  live_ne_zero := fun hzero => h.live_ne_zero (List.mem_of_mem_erase hzero)
  heap := by
    refine List.Perm.trans (List.Perm.append_left _ ?_) h.heap
    exact (filter_perm_erase_of_neg hm (by simpa using hslot.inPool)).symm

/-- The owner of an element puts it in front of its free list. -/
theorem putFree (h : Invariant L u free mail) (hm : m ∈ u.live) (hslot : L.Slot i m) :
    Invariant L { u with
      pool := { u.pool.setArr i { u.pool.arr i with head := m } with
        next := Function.update u.pool.next m (u.pool.arr i).head }
      live := u.live.erase m } (Function.update free i (m :: free i)) mail := by
  refine h.giveBack hm hslot (fun j => ?_) (fun j i => ?_) h.tail_eq ?_ ?_
  · by_cases hj : j = i
    · subst hj
      simpa using (h.freeChain j).cons (h.notMem_free hm j) hslot.ne_zero
    · simpa [hj] using (h.freeChain j).update (h.notMem_free hm j) _
  · exact (h.mailChain j i).update (h.notMem_mail hm j i) _
  · exact u.pool.horizons_setHead i m
  · refine h.conserved.move (p := .handedOut) (q := .free i) (e := m) Place.noConfusion ?_ ?_ ?_
      hslot
    · exact filter_perm_erase_of_pos hm (decide_eq_true hslot.inPool)
    · simp [contents]
    · intro r hfrom hto
      cases r with
      | handedOut => exact absurd rfl hfrom
      | free j =>
          have hj : j ≠ i := fun heq => hto (heq ▸ rfl)
          simp [contents, hj]
      | mail j i => exact .refl _
      | beyond i => exact .refl _

/-- Another thread puts an element in front of its queue to the owner. -/
theorem putMail (h : Invariant L u free mail) (hm : m ∈ u.live) (hslot : L.Slot i m)
    (hj : j < L.numThreads) (touch : Nat → Bool) :
    Invariant L { u with
      pool := { u.pool.setQueue j i { head := m, tail :=
          if (u.pool.qus j i).head = 0 then m else (u.pool.qus j i).tail } with
        collectTouch := touch
        next := Function.update u.pool.next m (u.pool.qus j i).head }
      live := u.live.erase m }
      free (Function.update mail j (Function.update (mail j) i (m :: mail j i))) := by
  refine h.giveBack hm hslot (fun j => ?_) (fun a b => ?_) (fun a b => ?_) rfl ?_
  · exact (h.freeChain j).update (h.notMem_free hm j) _
  · change NullTerminated _ 0 ((u.pool.setQueue j i _).qus a b).head _
    rw [Pool.qus_setQueue, update_update_apply]
    by_cases hab : a = j ∧ b = i
    · rw [if_pos hab, if_pos hab]
      exact (h.mailChain j i).cons (h.notMem_mail hm j i) hslot.ne_zero
    · rw [if_neg hab, if_neg hab]
      exact (h.mailChain a b).update (h.notMem_mail hm a b) _
  · change ((u.pool.setQueue j i _).qus a b).tail = _
    rw [Pool.qus_setQueue, update_update_apply]
    by_cases hab : a = j ∧ b = i
    · rw [if_pos hab, if_pos hab]
      have hnil := (h.mailChain j i).eq_nil_iff
      have htail := h.tail_eq j i
      split
      · rename_i hhead
        rw [hnil.mp hhead]
        rfl
      · rename_i hhead
        obtain ⟨rest, hrest, -⟩ := (h.mailChain j i).exists_cons hhead
        rw [htail, hrest]
        rfl
    · rw [if_neg hab, if_neg hab]
      exact h.tail_eq a b
  · refine h.conserved.move (p := .handedOut) (q := .mail j i) (e := m) Place.noConfusion ?_ ?_ ?_
      ⟨hj, hslot⟩
    · exact filter_perm_erase_of_pos hm (decide_eq_true hslot.inPool)
    · simp [contents]
    · intro r hfrom hto
      cases r with
      | handedOut => exact absurd rfl hfrom
      | free i => exact .refl _
      | mail a b =>
          have hne : ¬ (a = j ∧ b = i) := by
            rintro ⟨rfl, rfl⟩
            exact hto rfl
          simp only [contents]
          rw [update_update_apply, if_neg hne]
      | beyond i => exact .refl _

/-- What is in the mail is on no free list. -/
theorem notMem_free_of_mail (h : Invariant L u free mail) (he : e ∈ mail j i) (a : Nat) :
    e ∉ free a :=
  fun hfree => Place.noConfusion (h.conserved.place_unique (p := .mail j i) (q := .free a) he hfree)

/-- What is in one mail is in no other. -/
theorem notMem_mail_of_mail (h : Invariant L u free mail) (he : e ∈ mail j i) {a b : Nat}
    (hne : ¬ (a = j ∧ b = i)) : e ∉ mail a b := by
  intro hmail
  have heq := h.conserved.place_unique (p := .mail j i) (q := .mail a b) he hmail
  obtain ⟨rfl, rfl⟩ := Place.mail.inj heq
  exact hne ⟨rfl, rfl⟩

/-- A queue of at most one element is left as it is. -/
theorem pull_short (h : Invariant L u free mail)
    (hshort : (mail j i).length ≤ 1) : ∃ t,
      (u.pool.qus j i).pull u.pool.next = (0, t, u.pool.qus j i, u.pool.next) := by
  have hchain := h.mailChain j i
  have htail := h.tail_eq j i
  cases hl : u.pool.qus j i with
  | mk head tail =>
      rw [hl] at hchain htail
      unfold ElementList.pull
      cases hmail : mail j i with
      | nil =>
          rw [hmail] at hchain htail
          have hhead : head = 0 := hchain.eq_nil_iff.mpr rfl
          have htail : tail = 0 := htail
          subst hhead htail
          exact ⟨0, rfl⟩
      | cons e rest =>
          rw [hmail] at hchain htail hshort
          obtain rfl : rest = [] := List.eq_nil_of_length_eq_zero (by simpa using hshort)
          obtain ⟨hhead, hrest⟩ := hchain.tail
          have hhead : head = e := hhead
          have htail : tail = e := htail
          have hnext : u.pool.next e = 0 := hrest.eq_nil_iff.mpr rfl
          subst hhead htail
          have hne : tail ≠ 0 := fun heq => List.cons_ne_nil _ _ (hchain.eq_nil_iff.mp heq)
          refine ⟨tail, ?_⟩
          rw [if_neg hne, hnext, ← hnext, Function.update_eq_self]

/-- All elements of a queue but the first one go to the front of the free list of their owner. -/
theorem collectChain {front : List Nat} {t : Nat} (h : Invariant L u free mail)
    (hmail : mail j i = e :: (front ++ [t])) :
    Invariant L { u with
      pool := { (u.pool.setQueue j i { head := e, tail := e }).setArr i
          { u.pool.arr i with head := u.pool.next e } with
        next := Function.update (Function.update u.pool.next e 0) t (u.pool.arr i).head } }
      (Function.update free i (front ++ [t] ++ free i))
      (Function.update mail j (Function.update (mail j) i [e])) := by
  have hchain := h.mailChain j i
  rw [hmail] at hchain
  obtain ⟨-, hrest⟩ := hchain.tail
  have hrun : ∀ x ∈ front ++ [t], x ∈ mail j i := by
    intro x hx
    rw [hmail]
    exact List.mem_cons_of_mem e hx
  have he : e ∈ mail j i := hmail ▸ List.mem_cons_self
  have hlast : t ∈ mail j i := hrun t (by simp)
  have hfirst : e ∉ front ++ [t] := (List.nodup_cons.mp hchain.nodup).1
  have hne : t ≠ e := by
    rintro rfl
    exact hfirst (by simp)
  constructor
  case freeChain =>
    intro a
    have hfree := (h.freeChain a).update (h.notMem_free_of_mail he a) 0
    by_cases ha : a = i
    · subst ha
      have hdisjoint : (front ++ [t]).Disjoint (free a) :=
        fun x hx hx' => h.notMem_free_of_mail (hrun x hx) a hx'
      simpa using (hrest.update hfirst 0).splice hfree hdisjoint
    · simpa [ha] using hfree.update (h.notMem_free_of_mail hlast a) _
  case mailChain =>
    intro a b
    change NullTerminated _ 0 ((u.pool.setQueue j i _).qus a b).head _
    rw [Pool.qus_setQueue, update_update_apply]
    by_cases hab : a = j ∧ b = i
    · rw [if_pos hab, if_pos hab]
      exact (NullTerminated.singleton (h.slot_of_mail he).2.ne_zero).update (by simpa using hne) _
    · rw [if_neg hab, if_neg hab]
      exact ((h.mailChain a b).update (h.notMem_mail_of_mail he hab) 0).update
        (h.notMem_mail_of_mail hlast hab) _
  case tail_eq =>
    intro a b
    change ((u.pool.setQueue j i _).qus a b).tail = _
    rw [Pool.qus_setQueue, update_update_apply]
    by_cases hab : a = j ∧ b = i
    · rw [if_pos hab, if_pos hab]
      rfl
    · rw [if_neg hab, if_neg hab]
      exact h.tail_eq a b
  case horizon_le =>
    intro a
    exact (congrFun (u.pool.horizons_setHead i (u.pool.next e)) a).trans_le (h.horizon_le a)
  case conserved =>
    have hhorizons := u.pool.horizons_setHead i (u.pool.next e)
    change Conserved L (contents L u.live _ _
      (u.pool.setArr i { u.pool.arr i with head := u.pool.next e }).horizons)
    rw [hhorizons]
    refine h.conserved.moveAll (front ++ [t]) (p := .mail j i) (q := .free i) Place.noConfusion
      ?_ ?_ ?_ fun x hx => (h.slot_of_mail (hrun x hx)).2
    · simp only [contents]
      rw [update_update_apply, if_pos ⟨rfl, rfl⟩, hmail]
      exact (List.perm_append_singleton e _).symm
    · simp [contents]
    · intro r hfrom hto
      cases r with
      | handedOut => exact .refl _
      | free a =>
          have ha : a ≠ i := fun heq => hto (heq ▸ rfl)
          simp [contents, ha]
      | mail a b =>
          have hab : ¬ (a = j ∧ b = i) := by
            rintro ⟨rfl, rfl⟩
            exact hfrom rfl
          simp only [contents]
          rw [update_update_apply, if_neg hab]
      | beyond a => exact .refl _
  case live_nodup => exact h.live_nodup
  case live_ne_zero => exact h.live_ne_zero
  case heap => exact h.heap

end Invariant

/-- The elements are accounted for, in some lists. -/
def Accounted (L : Layout) (u : Usage) : Prop :=
  ∃ free mail, Invariant L u free mail

section

variable {L : Layout} {u : Usage} {i j m index n : Nat} {res : Bool}

/-! ## The parts of a call -/

/-- A queue with one element or none gives nothing; otherwise the free list is not empty after. -/
theorem collectFrom_spec (h : Accounted L u)
    (hres : res = true → (u.pool.arr index).head ≠ 0) (j : Nat) :
    ∃ acc, Pool.collectFrom index (res, u.pool) j = .ok acc ∧
      Accounted L { u with pool := acc.2 } ∧
      (acc.1 = true → (acc.2.arr index).head ≠ 0) := by
  obtain ⟨free, mail, h⟩ := h
  by_cases hshort : (mail j index).length ≤ 1
  · obtain ⟨t, hpull⟩ := h.pull_short hshort
    refine ⟨(res, u.pool), ?_, ⟨free, mail, h⟩, hres⟩
    have hqus : u.pool.setQueue j index (u.pool.qus j index) = u.pool := by
      simp [Pool.setQueue]
    simp [Pool.collectFrom, hpull, hqus]
  · obtain ⟨e, front, t, hmail⟩ := exists_ends hshort
    have hchain := h.mailChain j index
    have htail := h.tail_eq j index
    rw [hmail] at hchain htail
    obtain ⟨hhead, hrest⟩ := hchain.tail
    have hslot : ∀ x ∈ e :: (front ++ [t]), x ≠ 0 := by
      intro x hx
      exact (h.slot_of_mail (hmail ▸ hx)).2.ne_zero
    have he : e ≠ 0 := hslot e List.mem_cons_self
    have ht : t ≠ 0 := hslot t (by simp)
    have hnext : u.pool.next e ≠ 0 := by
      intro heq
      exact List.append_ne_nil_of_right_ne_nil front (List.cons_ne_nil t [])
        (hrest.eq_nil_iff.mp heq)
    rw [← List.cons_append, List.getLastD_concat] at htail
    have hpull : (u.pool.qus j index).pull u.pool.next = (u.pool.next e, t,
        { head := e, tail := e }, Function.update u.pool.next e 0) := by
      rw [ElementList.pull, if_neg (hhead ▸ he), htail, hhead]
    refine ⟨(true, { (u.pool.setQueue j index { head := e, tail := e }).setArr index
        { u.pool.arr index with head := u.pool.next e } with
      next := Function.update (Function.update u.pool.next e 0) t (u.pool.arr index).head }),
      ?_, ⟨_, _, h.collectChain hmail⟩, fun _ => ?_⟩
    · simp [Pool.collectFrom, hpull, hnext, RawMemPool.putChain, ht]
      rfl
    · simpa using hnext

/-- After a successful collection there is something to hand out. -/
theorem collect_spec (h : Accounted L u) (n index : Nat) :
    ∃ acc, u.pool.collect n index = .ok acc ∧ Accounted L { u with pool := acc.2 } ∧
      (acc.1 = true → (acc.2.arr index).head ≠ 0) := by
  unfold Pool.collect
  split
  · exact ⟨_, rfl, h, fun hfalse => Bool.noConfusion hfalse⟩
  · obtain ⟨acc, hacc, hspec, hhead⟩ := Fallible.exists_foldlM_range_eq_ok
      (P := fun _ acc => Accounted L { u with pool := acc.2 } ∧
        (acc.1 = true → (acc.2.arr index).head ≠ 0))
      (f := Pool.collectFrom index) (n := n) (s := (false, u.pool))
      ⟨h, fun hfalse => Bool.noConfusion hfalse⟩
      fun k _ acc hacc => collectFrom_spec hacc.1 hacc.2 k
    refine ⟨(acc.1, acc.2.setTouch index true), ?_, ?_, hhead⟩
    · rw [hacc]
      rfl
    · obtain ⟨free, mail, hinv⟩ := hspec
      exact ⟨free, mail, { hinv with }⟩

/-- The array of a thread hands out an element, unless it has none left. -/
theorem rawGet_spec (h : Accounted L u) (hi : i < L.numThreads) :
    (u.pool.arr i).head = 0 ∧ (u.pool.arr i).get L i u.pool.next = (0, u.pool.arr i) ∨
      ∃ e p, (u.pool.arr i).get L i u.pool.next = (e, p) ∧ e ≠ 0 ∧ L.InPool e ∧
        Accounted L { u with pool := u.pool.setArr i p, live := e :: u.live } := by
  obtain ⟨free, mail, h⟩ := h
  unfold RawMemPool.get
  by_cases hhead : (u.pool.arr i).head = 0
  · rw [if_neg (not_not.mpr hhead)]
    split
    · rename_i hlt
      have hslot : L.Slot i (L.raw i (u.pool.arr i).horizon) := ⟨hi, _, hlt, rfl⟩
      exact .inr ⟨_, _, rfl, hslot.ne_zero, hslot.inPool, _, _, h.takeBeyond hi hlt⟩
    · exact .inl ⟨hhead, rfl⟩
  · rw [if_pos hhead]
    obtain ⟨rest, hfree, -⟩ := (h.freeChain i).exists_cons hhead
    have hslot := h.slot_of_free (hfree ▸ List.mem_cons_self)
    exact .inr ⟨_, _, rfl, hslot.ne_zero, hslot.inPool, _, _, h.takeFree hfree⟩

/-- Memory from {lit}`malloc` is handed out. -/
theorem handOut_heap (h : Accounted L u) (hm : m ≠ 0) (hin : ¬ L.InPool m) (hlive : m ∉ u.live) :
    Accounted L { u with live := m :: u.live, mallocd := m :: u.mallocd } := by
  obtain ⟨free, mail, h⟩ := h
  refine ⟨free, mail, h.freeChain, h.mailChain, h.tail_eq, h.horizon_le, ?_,
    List.nodup_cons.mpr ⟨hlive, h.live_nodup⟩, ?_, ?_⟩
  · refine h.conserved.congr fun p => ?_
    cases p with
    | handedOut => simp [contents, hin]
    | _ => exact .refl _
  · rw [List.mem_cons]
    exact not_or.mpr ⟨hm.symm, h.live_ne_zero⟩
  · rw [List.filter_cons_of_pos (by simpa using hin)]
    exact List.perm_middle.trans (h.heap.cons m)

/-- Memory from {lit}`malloc` is given to {lit}`free`. -/
theorem giveBack_heap (h : Accounted L u) (hm : m ∈ u.live) (hin : ¬ L.InPool m) :
    Accounted L { u with live := u.live.erase m, freed := m :: u.freed } := by
  obtain ⟨free, mail, h⟩ := h
  refine ⟨free, mail, h.freeChain, h.mailChain, h.tail_eq, h.horizon_le, ?_, h.live_nodup.erase m,
    fun hzero => h.live_ne_zero (List.mem_of_mem_erase hzero), ?_⟩
  · refine h.conserved.congr fun p => ?_
    cases p with
    | handedOut => exact (filter_perm_erase_of_neg hm (by simpa using hin)).symm
    | _ => exact .refl _
  · refine List.Perm.trans ?_ h.heap
    have hperm := filter_perm_erase_of_pos (p := fun m => ¬ L.InPool m) hm (by simpa using hin)
    exact (List.perm_middle.symm.trans (hperm.symm.append_left u.freed))

/-! ## The calls -/

/-- A get accounts for the element that it hands out. -/
theorem get_spec (h : Accounted L u) (hindex : index < L.numThreads) {answer : Nat}
    (hanswer : answer = 0 ∨ ¬ L.InPool answer ∧ answer ∉ u.live) (n : Nat) :
    ∃ got, u.pool.get L n index answer = .ok got ∧ Accounted L (u.handOut got) := by
  unfold Pool.get
  rcases rawGet_spec h hindex with ⟨-, hnone⟩ | ⟨e, p, hget, he, -, hspec⟩
  · have hsame : u.pool.setArr index (u.pool.arr index) = u.pool := by
      simp [Pool.setArr]
    simp only [hnone, hsame, ne_eq, not_true_eq_false, if_false]
    obtain ⟨⟨collected, s⟩, hcollect, hspec, hhead⟩ := collect_spec h n index
    rw [hcollect]
    change ∃ got, (if collected = true then _ else _) = Except.ok got ∧ _
    cases collected with
    | true =>
        -- what was collected is in the free list now
        rcases rawGet_spec hspec hindex with ⟨hempty, -⟩ | ⟨e, p, hget, he, hin, hspec⟩
        · exact absurd hempty (hhead rfl)
        · simp only [if_true, hget, if_pos (And.intro hin he)]
          exact ⟨_, rfl, hspec⟩
    | false =>
        simp only [Bool.false_eq_true, if_false]
        by_cases hzero : answer = 0
        · rw [if_pos hzero]
          exact ⟨_, rfl, hspec⟩
        · obtain ⟨hin, hlive⟩ := hanswer.resolve_left hzero
          rw [if_neg hzero, if_neg hin]
          exact ⟨_, rfl, handOut_heap hspec hzero hin hlive⟩
  · simp only [hget, ne_eq, he, not_false_eq_true, if_true]
    exact ⟨_, rfl, hspec⟩

/-- A put accounts for the element that it takes back. -/
theorem put_spec (h : Accounted L u) (hindex : index < L.numThreads) (hm : m = 0 ∨ m ∈ u.live) :
    ∃ freed, u.pool.put L index m = .ok freed ∧ Accounted L (u.giveBack m freed) := by
  obtain ⟨free, mail, hinv⟩ := h
  unfold Pool.put
  by_cases hzero : m = 0
  · rw [if_pos hzero]
    refine ⟨_, rfl, free, mail, ?_⟩
    rw [Usage.giveBack, hzero, List.erase_of_not_mem hinv.live_ne_zero]
    exact hinv
  · rw [if_neg hzero]
    have hlive := hm.resolve_left hzero
    by_cases hin : L.InPool m
    · obtain ⟨i, hslot⟩ := hinv.exists_slot_of_live hlive hin
      simp only [hslot.calcMemIndex, Int.natCast_nonneg, ge_iff_le, if_true, hin]
      by_cases hown : index = i
      · subst hown
        rw [if_pos rfl, RawMemPool.put, if_pos hslot.range]
        exact ⟨_, rfl, _, _, hinv.putFree hlive hslot⟩
      · rw [if_neg (mt Int.ofNat_inj.mp hown), Int.toNat_natCast, ElementList.push, if_neg hzero]
        exact ⟨_, rfl, _, _, hinv.putMail hlive hslot hindex _⟩
    · refine ⟨(some m, u.pool), ?_, giveBack_heap ⟨free, mail, hinv⟩ hlive hin⟩
      simp [Layout.calcMemIndex_of_not_inPool hin, hin]

/-- Writing into an element in use keeps the account. -/
theorem write_spec (h : Accounted L u) (hm : m ∈ u.live) (v : Nat) :
    Accounted L { u with pool := { u.pool with next := Function.update u.pool.next m v } } := by
  obtain ⟨free, mail, h⟩ := h
  exact ⟨free, mail, fun i => (h.freeChain i).update (h.notMem_free hm i) v,
    fun j i => (h.mailChain j i).update (h.notMem_mail hm j i) v, h.tail_eq, h.horizon_le,
    h.conserved, h.live_nodup, h.live_ne_zero, h.heap⟩

/-- What one call keeps; it fails nowhere. -/
theorem call_spec {c : Call} (h : Accounted L u) (hc : u.Allowed L c) :
    ∃ u', u.call L c = .ok u' ∧ Accounted L u' := by
  cases c with
  | get n index answer =>
      obtain ⟨-, hindex, hanswer⟩ := hc
      obtain ⟨got, hgot, hspec⟩ := get_spec h hindex hanswer n
      exact ⟨_, by rw [Usage.call, hgot]; rfl, hspec⟩
  | put index m =>
      obtain ⟨hindex, hm⟩ := hc
      obtain ⟨freed, hfreed, hspec⟩ := put_spec h hindex hm
      exact ⟨_, by rw [Usage.call, hfreed]; rfl, hspec⟩
  | write m v => exact ⟨_, rfl, write_spec h hc v⟩

/-! ## The constructor -/

/-- One element of thread {lit}`i` goes to the queue from thread {lit}`j`. -/
theorem fill_spec (h : Accounted L u) (hi : i < L.numThreads)
    (hj : j < L.numThreads) (hhead : (u.pool.arr i).head = 0)
    (hlt : u.pool.horizons i < L.optSz) :
    ∃ s, Pool.fill L i u.pool j = .ok s ∧ Accounted L { u with pool := s } ∧
      s.arr = Function.update u.pool.arr i
        { u.pool.arr i with horizon := u.pool.horizons i + 1 } := by
  obtain ⟨free, mail, h⟩ := h
  have hslot : L.Slot i (L.raw i (u.pool.horizons i)) := ⟨hi, _, hlt, rfl⟩
  have hmail := (h.takeBeyond hi hlt).putMail (m := L.raw i (u.pool.horizons i)) (j := j)
    List.mem_cons_self hslot hj u.pool.collectTouch
  have hget : (u.pool.arr i).get L i u.pool.next =
      (L.raw i (u.pool.horizons i), { u.pool.arr i with horizon := u.pool.horizons i + 1 }) := by
    rw [RawMemPool.get, if_neg (not_not.mpr hhead)]
    exact if_pos hlt
  rw [List.erase_cons_head] at hmail
  refine ⟨_, ?_, ⟨_, _, hmail⟩, rfl⟩
  simp only [Pool.fill, hget, ElementList.push, if_neg hslot.ne_zero]
  rfl

end

/-- Before the constructor fills the queues, all elements are beyond the horizons. -/
theorem conserved_empty (L : Layout) :
    Conserved L (contents L [] (fun _ => []) (fun _ _ => []) fun _ => 0) := by
  classical
  have hbeyond : ∀ {e i : Nat},
      e ∈ contents L [] (fun _ => []) (fun _ _ => []) (fun _ => 0) (.beyond i) ↔ L.Slot i e := by
    intro e i
    simp [mem_beyond, Layout.Slot]
  refine ⟨fun e => if h : ∃ i, L.Slot i e then some (.beyond h.choose) else none,
    .of_mem_iff (fun p => ?_) (fun e p => ?_), fun e => ?_, fun e p => ?_⟩
  · cases p with
    | beyond i =>
        rw [contents]
        split
        · exact (List.nodup_range' _).map (L.raw_injective i)
        · exact List.nodup_nil
    | _ => exact List.nodup_nil
  · cases p with
    | beyond i =>
        rw [hbeyond]
        constructor
        · intro hslot
          have he : ∃ i, L.Slot i e := ⟨i, hslot⟩
          rw [dif_pos he, he.choose_spec.owner_unique hslot]
        · intro hplace
          split at hplace
          · rename_i he
            obtain rfl := Place.beyond.inj (Option.some.inj hplace)
            exact he.choose_spec
          · contradiction
    | _ =>
        refine iff_of_false List.not_mem_nil ?_
        split <;> simp
  · beta_reduce
    split
    · rename_i he
      exact iff_of_true (Option.some_ne_none _) he
    · rename_i he
      exact iff_of_false (by simp) he
  · intro hplace
    beta_reduce at hplace
    split at hplace
    · rename_i he
      obtain rfl := Option.some.inj hplace
      exact he.choose_spec
    · contradiction

/-- The pools begin accounted for. -/
theorem accounted_empty (L : Layout) (collectTouch : Nat → Bool) (next : Nat → Nat) :
    Accounted L
      { pool := Pool.empty collectTouch next, live := [], mallocd := [], freed := [] } :=
  ⟨fun _ => [], fun _ _ => [], fun _ => .nil, fun _ _ => .nil, fun _ _ => rfl,
    fun _ => Nat.zero_le _, conserved_empty L, List.nodup_nil, List.not_mem_nil, .refl _⟩

/-- The elements of one thread for the queues from all threads. -/
theorem fillRow_spec {L : Layout} {s : Pool} {i : Nat} (hi : i < L.numThreads)
    (hsize : L.numThreads ≤ L.optSz)
    (hspec : Accounted L { pool := s, live := [], mallocd := [], freed := [] })
    (hhead : ∀ a, (s.arr a).head = 0) (hhorizon : ∀ a, i ≤ a → s.horizons a = 0) :
    ∃ t, (List.range L.numThreads).foldlM (Pool.fill L i) s = .ok t ∧
      Accounted L { pool := t, live := [], mallocd := [], freed := [] } ∧
      (∀ a, (t.arr a).head = 0) ∧ ∀ a, i + 1 ≤ a → t.horizons a = 0 := by
  have hfill : ∀ j < L.numThreads, ∀ s : Pool,
      (Accounted L { pool := s, live := [], mallocd := [], freed := [] } ∧
        (∀ a, (s.arr a).head = 0) ∧ s.horizons i = j ∧ ∀ a, i < a → s.horizons a = 0) →
      ∃ t, Pool.fill L i s j = .ok t ∧
        Accounted L { pool := t, live := [], mallocd := [], freed := [] } ∧
        (∀ a, (t.arr a).head = 0) ∧ t.horizons i = j + 1 ∧ ∀ a, i < a → t.horizons a = 0 := by
    rintro j hj s ⟨hspec, hhead, hcount, hhorizon⟩
    have hlt : s.horizons i < L.optSz := hcount ▸ Nat.lt_of_lt_of_le hj hsize
    obtain ⟨t, ht, htspec, harr⟩ := fill_spec hspec hi hj (hhead i) hlt
    refine ⟨t, ht, htspec, fun a => ?_, ?_, fun a ha => ?_⟩
    · rw [harr]
      by_cases hai : a = i
      · subst hai
        simpa using hhead a
      · simpa [hai] using hhead a
    · simp [Pool.horizons, harr, ← hcount]
    · have hai : a ≠ i := Nat.ne_of_gt ha
      simpa [Pool.horizons, harr, hai] using hhorizon a ha
  obtain ⟨t, ht, htspec, hthead, -, hthorizon⟩ :=
    Fallible.exists_foldlM_range_eq_ok (s := s)
      ⟨hspec, hhead, hhorizon i le_rfl, fun a ha => hhorizon a ha.le⟩ hfill
  exact ⟨t, ht, htspec, hthead, hthorizon⟩

/-- The constructor has an element for each of the queues. -/
theorem new_spec {L : Layout} (hsize : L.numThreads ≤ L.optSz) (collectTouch : Nat → Bool)
    (next : Nat → Nat) : ∃ s, Pool.new L collectTouch next = .ok s ∧
      Accounted L { pool := s, live := [], mallocd := [], freed := [] } := by
  obtain ⟨s, hs, hspec, -⟩ := Fallible.exists_foldlM_range_eq_ok
    (P := fun i s => Accounted L { pool := s, live := [], mallocd := [], freed := [] } ∧
      (∀ a, (s.arr a).head = 0) ∧ ∀ a, i ≤ a → s.horizons a = 0)
    (f := fun s i => (List.range L.numThreads).foldlM (Pool.fill L i) s) (n := L.numThreads)
    ⟨accounted_empty L collectTouch next, fun _ => rfl, fun _ _ => rfl⟩
    fun i hi s hs => fillRow_spec hi hsize hs.1 hs.2.1 hs.2.2
  exact ⟨s, hs, hspec⟩

/-! ## Conservation -/

/-- The element is on the list that begins with {lit}`head` and ends with null. -/
def OnList (next : Nat → Nat) (head e : Nat) : Prop :=
  ∃ nodes, NullTerminated next 0 head nodes ∧ e ∈ nodes

/-- The element is at the place. -/
def Holds (L : Layout) (u : Usage) (e : Nat) : Place → Prop
  | .handedOut => e ∈ u.live
  | .free i => i < L.numThreads ∧ OnList u.pool.next (u.pool.arr i).head e
  | .mail j i => j < L.numThreads ∧ i < L.numThreads ∧
      OnList u.pool.next (u.pool.qus j i).head e
  | .beyond i => i < L.numThreads ∧ ∃ k, (u.pool.arr i).horizon ≤ k ∧ k < L.optSz ∧ e = L.raw i k

/-- The thread to whose array the elements at a place belong. -/
def Place.owner : Place → Option Nat
  | .handedOut => none
  | .free i => some i
  | .mail _ i => some i
  | .beyond i => some i

/-- The walk over a list meets its nodes. -/
theorem onList_iff {next : Nat → Nat} {head e : Nat} {nodes : List Nat}
    (h : NullTerminated next 0 head nodes) : OnList next head e ↔ e ∈ nodes := by
  constructor
  · rintro ⟨nodes', h', he⟩
    exact h.unique h' ▸ he
  · exact fun he => ⟨nodes, h, he⟩

/-- The places that the account names are those in memory. -/
theorem Invariant.holds_iff {L : Layout} {u : Usage} {free : Nat → List Nat}
    {mail : Nat → Nat → List Nat} {i e : Nat} (h : Invariant L u free mail) (he : L.Slot i e)
    (p : Place) : Holds L u e p ↔ e ∈ contents L u.live free mail u.pool.horizons p := by
  cases p with
  | handedOut =>
      refine Iff.trans ?_ List.mem_filter.symm
      exact (and_iff_left (decide_eq_true he.inPool)).symm
  | free a =>
      refine (and_congr_right fun _ => onList_iff (h.freeChain a)).trans ?_
      exact and_iff_right_of_imp fun hmem => (h.slot_of_free hmem).1
  | mail b a =>
      refine (and_congr_right fun _ => and_congr_right fun _ =>
        onList_iff (h.mailChain b a)).trans ?_
      constructor
      · exact fun hmem => hmem.2.2
      · intro hmem
        obtain ⟨hb, ha, -⟩ := h.slot_of_mail hmem
        exact ⟨hb, ha, hmem⟩
  | beyond a =>
      have hbeyond : e ∈ contents L u.live free mail u.pool.horizons (.beyond a) ↔ _ := mem_beyond
      exact hbeyond.symm

/-- An element is at one place, which is its owner's if it has one. -/
theorem Invariant.exists_place {L : Layout} {u : Usage} {free : Nat → List Nat}
    {mail : Nat → Nat → List Nat} {i e : Nat} (h : Invariant L u free mail) (he : L.Slot i e) :
    ∃ p, Holds L u e p ∧ (∀ o ∈ p.owner, o = i) ∧ ∀ q, Holds L u e q → q = p := by
  obtain ⟨p, hp⟩ := h.conserved.exists_place he
  refine ⟨p, (h.holds_iff he p).mpr hp, ?_, fun q hq => ?_⟩
  · have hfits := h.conserved.fits hp
    rintro o ho
    cases p with
    | handedOut => contradiction
    | free a =>
        cases ho
        exact Layout.Slot.owner_unique hfits he
    | mail b a =>
        cases ho
        exact hfits.2.owner_unique he
    | beyond a =>
        cases ho
        exact Layout.Slot.owner_unique hfits he
  · exact h.conserved.place_unique ((h.holds_iff he q).mp hq) hp

theorem accounted_of_reachable {L : Layout} (hsize : L.numThreads ≤ L.optSz) {u : Usage}
    (h : (system L).Reachable u) : Accounted L u := by
  refine h.invariant ?_ ?_
  · rintro ⟨pool, live, mallocd, freed⟩ ⟨⟨collectTouch, next, hnew⟩, rfl, rfl, rfl⟩
    obtain ⟨s, hs, hspec⟩ := new_spec hsize collectTouch next
    obtain rfl : s = pool := Except.ok.inj (hs.symm.trans hnew)
    exact hspec
  · rintro u c u' hspec ⟨hallowed, hcall⟩
    obtain ⟨v, hv, hspec'⟩ := call_spec hspec hallowed
    obtain rfl : v = u' := Except.ok.inj (hv.symm.trans hcall)
    exact hspec'

/-- The constructor succeeds.  After every sequence of calls, each element is at one place, nothing
is handed out twice, the lists end with null and the tails of the queues are their last elements,
what came from {lit}`malloc` was given to {lit}`free` or is still handed out, and no call fails. -/
theorem elements_conserved (L : Layout) (hsize : L.numThreads ≤ L.optSz) :
    (∀ collectTouch next, ∃ s, Pool.new L collectTouch next = .ok s) ∧
      ∀ u, (system L).Reachable u →
        (∀ i e, L.Slot i e →
          ∃ p, Holds L u e p ∧ (∀ o ∈ p.owner, o = i) ∧ ∀ q, Holds L u e q → q = p) ∧
        u.live.Nodup ∧
        (∀ i, ∃ nodes, NullTerminated u.pool.next 0 (u.pool.arr i).head nodes) ∧
        (∀ j i, ∃ nodes, NullTerminated u.pool.next 0 (u.pool.qus j i).head nodes ∧
          (u.pool.qus j i).tail = nodes.getLastD 0) ∧
        (u.freed ++ u.live.filter fun m => ¬ L.InPool m).Perm u.mallocd ∧
        ∀ c, u.Allowed L c → ∃ u', u.call L c = .ok u' := by
  refine ⟨fun collectTouch next => ?_, fun u hreach => ?_⟩
  · obtain ⟨s, hs, -⟩ := new_spec hsize collectTouch next
    exact ⟨s, hs⟩
  · have haccounted := accounted_of_reachable hsize hreach
    obtain ⟨free, mail, h⟩ := haccounted
    refine ⟨fun i e he => h.exists_place he, h.live_nodup, fun i => ⟨_, h.freeChain i⟩,
      fun j i => ⟨_, h.mailChain j i, h.tail_eq j i⟩, h.heap, fun c hc => ?_⟩
    obtain ⟨u', hu', -⟩ := call_spec ⟨free, mail, h⟩ hc
    exact ⟨u', hu'⟩

/-- Two threads with five elements of 64 bytes each. -/
def twoThreads : Layout where
  numThreads := 2
  numElements := 8
  sizeofEl := 64
  sizeofBase := 128
  sizeofPt := 512
  start := 4096
  start_pos := by decide
  pointer_fits := by decide
  fits := by decide

instance (L : Layout) (u : Usage) (c : Call) : Decidable (u.Allowed L c) := by
  cases c <;> simp only [Usage.Allowed] <;> infer_instance

/-- The calls one after another, as long as they are allowed and succeed. -/
def Usage.runOf (L : Layout) (u : Usage) : List Call → Option Usage
  | [] => some u
  | c :: calls =>
      if u.Allowed L c then
        match u.call L c with
        | .ok v => v.runOf L calls
        | .error _ => none
      else none

theorem reachable_runOf {L : Layout} {u v : Usage} {calls : List Call}
    (h : (system L).Reachable u) (hrun : u.runOf L calls = some v) : (system L).Reachable v := by
  induction calls generalizing u with
  | nil => exact Option.some.inj hrun ▸ h
  | cons c calls ih =>
      rw [Usage.runOf] at hrun
      split at hrun
      next hallowed =>
        split at hrun
        next w hcall => exact ih (h.step ⟨hallowed, hcall⟩) hrun
        next => cases hrun
      next => cases hrun

/-- Thread 1 gives back an element of thread 0, which then uses up what it has, collects, takes
memory from {lit}`malloc` and gives that back. -/
def sentHome : List Call :=
  [.get 2 0 0, .put 1 (twoThreads.raw 0 2), .get 2 0 0, .get 2 0 0, .get 2 0 0, .get 2 0 8,
    .put 0 8]

/-- After one call, and after all of them, each element is at one place and what came from
{lit}`malloc` is accounted for. -/
theorem elements_conserved_oneGet :
    (∃ u, (system twoThreads).Reachable u ∧ u.live = [twoThreads.raw 0 2] ∧
      ∀ i e, twoThreads.Slot i e → ∃ p, Holds twoThreads u e p ∧
        (∀ o ∈ p.owner, o = i) ∧ ∀ q, Holds twoThreads u e q → q = p) ∧
    ∃ u, (system twoThreads).Reachable u ∧ u.live.length = 3 ∧ u.freed = [8] ∧
      (u.freed ++ u.live.filter fun m => ¬ twoThreads.InPool m).Perm u.mallocd ∧
      ∀ i e, twoThreads.Slot i e → ∃ p, Holds twoThreads u e p ∧
        (∀ o ∈ p.owner, o = i) ∧ ∀ q, Holds twoThreads u e q → q = p := by
  obtain ⟨hnew, hall⟩ := elements_conserved twoThreads (by decide)
  obtain ⟨s, hs⟩ := hnew (fun _ => false) fun _ => 0
  have hinit : (system twoThreads).Reachable
      { pool := s, live := [], mallocd := [], freed := [] } :=
    .init ⟨⟨_, _, hs⟩, rfl, rfl, rfl⟩
  have hcalls : ∃ u v : Usage,
      Usage.runOf twoThreads { pool := s, live := [], mallocd := [], freed := [] }
        (sentHome.take 1) = some u ∧ u.live = [twoThreads.raw 0 2] ∧
      Usage.runOf twoThreads { pool := s, live := [], mallocd := [], freed := [] } sentHome =
        some v ∧ v.live.length = 3 ∧ v.freed = [8] := by
    cases hs
    exact ⟨_, _, rfl, rfl, rfl, rfl, rfl⟩
  obtain ⟨u, v, hu, hlive, hv, hlength, hfreed⟩ := hcalls
  have hone := hall u (reachable_runOf hinit hu)
  have hlast := hall v (reachable_runOf hinit hv)
  exact ⟨⟨u, reachable_runOf hinit hu, hlive, hone.1⟩,
    v, reachable_runOf hinit hv, hlength, hfreed, hlast.2.2.2.2.1, hlast.1⟩

end MemoryPool
end Lockfree
end OFlux
