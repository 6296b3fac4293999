import Mathlib.Algebra.Group.Nat.Defs
import Mathlib.Data.Set.Card
import OFlux.Library.Loop
import OFlux.Library.Probing
import OFlux.Lockfree.HashTable

/-!
# The growing hash table

The lock-free hash table is a chain of open-addressing tables.  A table that has no room for a key
gets a successor, to which its entries are copied a few at a time; the tag bit of a value marks
an entry that has been copied or need not be.  When all of its entries are, a table is unlinked.

The calls are whole calls of one thread after the other.  A compare-and-swap of a value that was
just read then succeeds, and no call finds an entry that another one is about to copy, so that the
retries and the help with such an entry are left out.

Main definitions:

- {lit}`Implementation`: one table.
- {lit}`Tables`: the chain, with {lit}`get`, {lit}`remove` and {lit}`compareAndSwap`.
-/

namespace OFlux
namespace Lockfree

open Library

namespace HashTableConstants

/-- Marks a value as copied to the next table. -/
def tagValue (v : Word) : Word := v ||| 1

/-- The value was copied to the next table. -/
def isTagged (v : Word) : Bool := v &&& 1 ≠ 0

/-- The mark left where there was nothing to copy. -/
def copiedValue : Word := tagValue doesNotExist

end HashTableConstants

open HashTableConstants

/-- A key and the value bound to it. -/
structure Entry (K : Type) where
  key : Option K := none
  value : Word := doesNotExist

/-- How many entries a probe tries in a row. -/
def entriesPerBucket : Nat := 4

/-- How many entries a helper copies at a time. -/
def entriesPerCopyChunk : Nat := 4

/-- One table; its size is a power of two. -/
structure Implementation (K : Type) where
  scale : Nat
  minScale : 4 ≤ scale
  table : Nat → Entry K
  count : Nat
  numEntriesCopied : Nat
  copyScan : Nat
  refCount : Nat

/-- The result of a call, and the chain after it. -/
structure Tables (K : Type) where
  impl : Implementation K
  next : List (Implementation K)

namespace Implementation

variable {K : Type}

/-- The constructor. -/
def new (scale : Nat) (minScale : 4 ≤ scale) : Implementation K where
  scale := scale
  minScale := minScale
  table := fun _ => {}
  count := 0
  numEntriesCopied := 0
  copyScan := 0
  refCount := 1

/-- The number of entries. -/
def size (t : Implementation K) : Nat := 2 ^ t.scale

/-- The number of buckets in which a key is looked for. -/
def probe (t : Implementation K) : Nat :=
  let probe := t.scale * 3 / 2 + 2
  let quarter := 2 ^ (t.scale - 2) / entriesPerBucket
  if probe > quarter ∧ quarter > 4 then quarter else probe

/-- The next bucket of a probe, by the upper bits of the hash. -/
def nextIndex (t : Implementation K) (oldIndex : Nat) (kHash : Word) : Nat :=
  let incr := kHash.toNat >>> (32 - t.scale)
  let incr := if incr < entriesPerBucket then incr + entriesPerBucket else incr
  (oldIndex + incr) % t.size

/-- The entries of the bucket around an index, from there on. -/
def bucket (index : Nat) : List Nat :=
  (List.range entriesPerBucket).map fun j =>
    index / entriesPerBucket * entriesPerBucket + (index + j) % entriesPerBucket

/-- The entries in which a hash value is looked for, in this order. -/
def probes (t : Implementation K) (kHash : Word) : List Nat :=
  (List.iterate (fun index => t.nextIndex index kHash) (kHash.toNat % t.size) t.probe).flatMap
    bucket

/-- The key of entry `i`. -/
def key (t : Implementation K) (i : Nat) : Option K := (t.table i).key

/-- The value of entry `i`. -/
def value (t : Implementation K) (i : Nat) : Word := (t.table i).value

/-- Writes the key of entry `i`. -/
def setKey (t : Implementation K) (i : Nat) (k : K) : Implementation K :=
  { t with table := Function.update t.table i { t.table i with key := some k } }

/-- Writes the value of entry `i`. -/
def setValue (t : Implementation K) (i : Nat) (v : Word) : Implementation K :=
  { t with table := Function.update t.table i { t.table i with value := v } }

/-! ## One table -/

section

variable [DecidableEq K] (hash : K → Word)

/-- The entry of `k`, when the table has one. -/
def lookUp (t : Implementation K) (k : K) : Option Nat :=
  Probing.lookUp t.key (t.probes (hash k)) k

/-- {lit}`compareAndSwap` on an entry that has the key. -/
def swapValue (t : Implementation K) (i : Nat) (expectedVal newVal : Word) :
    Word × Implementation K :=
  let entVal := t.value i
  let oldExisted := entVal ≠ tombStone ∧ entVal ≠ doesNotExist
  if isTagged entVal then (copiedValue, t)
  else if expectedVal ≠ CasExpect.whatever ∧ expectedVal ≠ entVal ∧
      expectedVal ≠ (if oldExisted then CasExpect.exists_ else CasExpect.doesNotExist) then
    (entVal, t)
  else if (newVal = doesNotExist ∧ ¬ oldExisted) ∨ entVal = newVal then (entVal, t)
  else
    let count :=
      if oldExisted ∧ newVal = doesNotExist then t.count - 1
      else if ¬ oldExisted ∧ newVal ≠ doesNotExist then t.count + 1
      else t.count
    (entVal, { t.setValue i (if newVal = doesNotExist then tombStone else newVal) with
      count := count })

/-- The swap in one table, which a copied entry or a full table sends to the next one. -/
def compareAndSwap (t : Implementation K) (k : K) (expectedVal newVal : Word) :
    Word × Implementation K :=
  match t.lookUp hash k with
  | none => (copiedValue, t)
  | some i =>
      match t.key i with
      | none =>
          if expectedVal ≠ CasExpect.doesNotExist ∧ expectedVal ≠ CasExpect.whatever then
            (doesNotExist, t)
          else if newVal = doesNotExist then (doesNotExist, t)
          else (t.setKey i k).swapValue i expectedVal newVal
      | some _ => t.swapValue i expectedVal newVal

/-- {lit}`startCopy`: the next table, which is larger if this one is full enough. -/
def startCopy (t : Implementation K) : Implementation K :=
  new (t.scale + if t.count > 2 ^ (t.scale - 1) ∨
    t.count > 2 ^ (t.scale - 2) + 2 ^ (t.scale - 3) then 1 else 0)
    (Nat.le_trans t.minScale (Nat.le_add_right _ _))

/-! ## Copying -/

/-- Put a copied key into a table, if it has room for it and has not copied the entry itself. -/
def putCopy (nht : Implementation K) (k : K) (v : Word) : Option Bool × Implementation K :=
  match nht.lookUp hash k with
  | none => (none, nht)
  | some i =>
      let nht := if nht.key i = none then nht.setKey i k else nht
      if nht.value i = copiedValue then (none, nht)
      else if nht.value i = doesNotExist then
        (some true, { nht.setValue i v with count := nht.count + 1 })
      else (some false, nht)

/-- Put a copied key into the first of the next tables that takes it. -/
def copyInto (k : K) (v : Word) :
    Implementation K → List (Implementation K) → Bool × List (Implementation K)
  | t, [] =>
      let (did, nht) := t.startCopy.putCopy hash k v
      (did.getD false, [nht])
  | _, nht :: rest =>
      match nht.putCopy hash k v with
      | (some did, nht) => (did, nht :: rest)
      | (none, nht) =>
          let (did, rest) := copyInto k v nht rest
          (did, nht :: rest)

end

end Implementation

namespace Tables

variable {K : Type}

/-- The tables, from the one that is looked into first. -/
def all (tables : Tables K) : List (Implementation K) := tables.impl :: tables.next

section

variable [DecidableEq K] (hash : K → Word)

/-- Copy one entry of the first table; the result is whether this has been done now. -/
def copyEntry (tables : Tables K) (i : Nat) : Bool × Tables K :=
  let t := tables.impl
  let entVal := t.value i
  if entVal = copiedValue ∨ entVal = tagValue tombStone then (false, tables)
  else if entVal = doesNotExist then (true, { tables with impl := t.setValue i copiedValue })
  else
    let t := t.setValue i (tagValue entVal)
    if entVal = tombStone then (true, { tables with impl := t })
    else
      match t.key i with
      | none => (false, { tables with impl := t })
      | some k =>
          let (did, next) := Implementation.copyInto hash k (stripTag entVal) t tables.next
          let t := t.setValue i copiedValue
          (did, ⟨{ t with count := if did then t.count - 1 else t.count }, next⟩)

/-- A few entries after each other, with the number of those that have been copied now. -/
def copyEntries (tables : Tables K) : List Nat → Nat × Tables K
  | [] => (0, tables)
  | i :: l =>
      let (did, tables) := tables.copyEntry hash i
      let (numCopied, tables) := copyEntries tables l
      (did.toNat + numCopied, tables)

/-- How far the copying of the first table is. -/
def setProgress (tables : Tables K) (copyScan numEntriesCopied : Nat) : Tables K :=
  { tables with impl :=
    { tables.impl with copyScan := copyScan, numEntriesCopied := numEntriesCopied } }

/-- Copy the next chunk of the first table, or all of it after two rounds; the result is whether
all entries have been copied. -/
def helpCopy (tables : Tables K) : Bool × Tables K :=
  let t := tables.impl
  if t.numEntriesCopied = t.size then (true, tables)
  else
    let x := t.copyScan
    let st :=
      if x ≥ 2 ^ (t.scale + 1) then tables.copyEntries hash (List.range t.size)
      else
        (tables.setProgress (x + entriesPerCopyChunk) t.numEntriesCopied).copyEntries hash
          ((List.range entriesPerCopyChunk).map fun i => x % t.size + i)
    let numEntriesCopied := st.2.impl.numEntriesCopied + st.1
    (numEntriesCopied = t.size, st.2.setProgress st.2.impl.copyScan numEntriesCopied)

/-! ## The hash table -/

/-- {lit}`get` of a table and those after it. -/
def getFrom (k : K) : List (Implementation K) → Word
  | [] => doesNotExist
  | t :: rest =>
      match t.lookUp hash k with
      | none => getFrom k rest
      | some i =>
          match t.key i with
          | none => doesNotExist
          | some _ =>
              if isTagged (t.value i) then getFrom k rest
              else if t.value i = tombStone then doesNotExist
              else t.value i

/-- The tables after each other, until one of them has the entry. -/
def compareAndSwapFrom (k : K) (expectedVal newVal : Word) :
    Implementation K → List (Implementation K) → Word × Tables K
  | t, [] =>
      let (old, t) := t.compareAndSwap hash k expectedVal newVal
      if old = copiedValue then
        let (old, nht) := t.startCopy.compareAndSwap hash k expectedVal newVal
        (old, ⟨t, [nht]⟩)
      else (old, ⟨t, []⟩)
  | t, nht :: rest =>
      let (old, t) := t.compareAndSwap hash k expectedVal newVal
      if old = copiedValue then
        let (old, tables) := compareAndSwapFrom k expectedVal newVal nht rest
        (old, ⟨t, tables.all⟩)
      else (old, ⟨t, nht :: rest⟩)

/-- Copying goes on, if it is under way, and a table that is done with it is unlinked. -/
def helpUnlink (tables : Tables K) : Tables K :=
  match tables.next with
  | [] => tables
  | _ :: _ =>
      match tables.helpCopy hash with
      | (true, ⟨_, nht :: rest⟩) => ⟨nht, rest⟩
      | (_, tables) => tables

/-- The value bound to `k`, from the first table that answers. -/
def get (tables : Tables K) (k : K) : Word :=
  getFrom hash k tables.all

/-- Removes `k` and returns the value it had. -/
def remove (tables : Tables K) (k : K) : Word × Tables K :=
  let (val, tables) := compareAndSwapFrom hash k CasExpect.whatever doesNotExist
    tables.impl tables.next
  (oldValue val, tables)

def compareAndSwap (tables : Tables K) (k : K) (expectedVal newVal : Word) : Word × Tables K :=
  let tables := tables.helpUnlink hash
  let (old, tables) := compareAndSwapFrom hash k expectedVal newVal tables.impl tables.next
  (oldValue old, tables)

end

/-- The constructor of the hash table. -/
def new : Tables K where
  impl := Implementation.new 4 (Nat.le_refl 4)
  next := []

end Tables

/-! ## Calls -/

/-- A whole call; a new value that is tagged, null or the tombstone is refused by an assertion. -/
inductive Call (K : Type) where
  | get (k : K)
  | remove (k : K)
  | compareAndSwap (k : K) (expectedVal newVal : Word)
      (accepted : ¬ isTagged newVal ∧ newVal ≠ doesNotExist ∧ newVal ≠ tombStone)

namespace Tables

variable {K : Type} [DecidableEq K] (hash : K → Word)

/-- One call on the tables. -/
def call (tables : Tables K) : Call K → Word × Tables K
  | .get k => (tables.get hash k, tables)
  | .remove k => tables.remove hash k
  | .compareAndSwap k expectedVal newVal _ => tables.compareAndSwap hash k expectedVal newVal

/-- The results of some calls, and the hash table after them. -/
def run (tables : Tables K) : List (Call K) → List Word × Tables K
  | [] => ([], tables)
  | c :: calls =>
      let (result, tables) := tables.call hash c
      let (results, tables) := tables.run calls
      (result :: results, tables)

end Tables

/-! ## The number of keys -/

/-- The chain as {lit}`count` walks it; a null pointer ends its loop. -/
structure Counting (K : Type) where
  impl : Option (Implementation K)
  res : BitVec 64

/-- One turn of the loop of {lit}`count`, which has no step to the next table. -/
def countTurn {K : Type} (s : Counting K) : Turn Empty (Counting K) (BitVec 64) :=
  match s.impl with
  | none => .done s s.res
  | some t => .again ⟨some t, s.res + BitVec.ofNat 64 t.count⟩

/-- A walk that stands at a table stays there. -/
theorem not_returns_countTurn {K : Type} {s : Counting K} (hs : s.impl.isSome)
    (r : Except Empty (Counting K × BitVec 64)) : ¬ Returns countTurn s r := by
  refine not_returns_of_invariant (P := fun s : Counting K => s.impl.isSome) ?_ hs r
  intro s hs
  obtain ⟨t, ht⟩ := Option.isSome_iff_exists.mp hs
  exact ⟨⟨some t, s.res + BitVec.ofNat 64 t.count⟩, by simp [countTurn, ht], rfl⟩

namespace Tables

variable {K : Type} [DecidableEq K]

/-- The count begins at the newest table. -/
def startCount (tables : Tables K) : Counting K where
  impl := some tables.impl
  res := 0

/-- {lit}`count` returns, and its result is the number of keys that have a value. -/
def CountsRight (hash : K → Word) (tables : Tables K) : Prop :=
  ∃ s res, Returns countTurn tables.startCount (.ok (s, res)) ∧
    res.toNat = Set.ncard {k | tables.get hash k ≠ doesNotExist}

/-- Whatever calls there have been, {lit}`count` does not return. -/
theorem not_countsRight (hash : K → Word) (calls : List (Call K)) :
    ¬ CountsRight hash (Tables.new.run hash calls).2 := by
  rintro ⟨s, res, hcount, -⟩
  exact not_returns_countTurn rfl _ hcount

/-- Not even a new hash table can be counted. -/
theorem not_countsRight_new :
    ¬ ∀ calls : List (Call Word), CountsRight id (Tables.new.run id calls).2 := by
  intro h
  obtain ⟨s, res, hcount, -⟩ := h []
  exact not_returns_countTurn rfl _ hcount

end Tables
end Lockfree
end OFlux
